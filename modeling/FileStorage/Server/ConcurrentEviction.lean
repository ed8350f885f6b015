import FileStorage.Server.Threads

/-!
# ConcurrentEviction — the eviction loop among other threads

Between its two sections an operation leaves the buckets and the counters apart.  They differ by
what the threads that stand halfway have yet to count, in every run; an eviction loop that starts
while somebody stands halfway meets the difference.
-/

namespace FileStorage.Server

open Memory

theorem Tally.of_eq {s : HTableStats} {n n' b b' : Int} (h : Tally s n b) (hn : n = n')
    (hb : b = b') : Tally s n' b' := by
  rw [← hn, ← hb]
  exact h

theorem SameElse.exceedsLimits_iff {t t' : HTable} (h : SameElse t t') :
    t'.exceedsLimits ↔ t.exceedsLimits := by
  rw [HTable.exceedsLimits, HTable.exceedsLimits, h.stats, h.maxItemsCount, h.maxSpaceInBytes]

namespace Threads

/-! ## 1. The invariant -/

/-- The counters are what the buckets hold without what the threads have yet to count. -/
structure Inv (P : Platform) (s : Threads) (L : Contents) : Prop where
  linked : Linked P s.table L
  sized : ∀ e ∈ L.flatten, e.2.Sized
  phases : ∀ p ∈ s.phases, p.Sized
  tally : Tally s.table.stats (L.flatten.length - Phase.total Phase.itemsAhead s.phases)
    (bytesOf L.flatten - Phase.total Phase.bytesAhead s.phases)
  room : s.table.items.live < wordSize
  chain : FifoWf s.table
  work : s.atWork → s.Settled P

section

variable {P : Platform} {s s' : Threads} {L L' : Contents} {i : Nat} {p q : Phase} {t' : HTable}

theorem mem_phases_put {r : Phase} (h : r ∈ (s.put i q t').phases) : r ∈ s.phases ∨ r = q :=
  List.mem_or_eq_of_mem_set h

/-- A thread that does not hold the guard does not matter to it. -/
theorem guardHeld_put (hq : q.holdsGuard = false) (h : (s.put i q t').guardHeld) : s.guardHeld := by
  obtain ⟨r, hr, hguard⟩ := List.any_eq_true.mp h
  rcases mem_phases_put hr with hr | rfl
  · exact List.any_eq_true.mpr ⟨r, hr, hguard⟩
  · rw [hq] at hguard
    cases hguard

theorem Settled.put (h : s.Settled P) (hq : q.halfway = false) :
    (s.put i q s.table).Settled P := by
  refine ⟨fun r hr => ?_, h.bytes, h.names⟩
  rcases mem_phases_put hr with hr | rfl
  · exact h.whole r hr
  · exact hq

namespace Inv

/-- Thread `i` goes from one phase to another. -/
theorem put (h : s.Inv P L) (hp : s.phases[i]? = some p) (hlinked : Linked P t' L')
    (hsized : ∀ e ∈ L'.flatten, e.2.Sized) (hq : q.Sized)
    (htally : Tally t'.stats
      (L'.flatten.length - (Phase.total Phase.itemsAhead s.phases - p.itemsAhead + q.itemsAhead))
      (bytesOf L'.flatten - (Phase.total Phase.bytesAhead s.phases - p.bytesAhead + q.bytesAhead)))
    (hroom : t'.items.live < wordSize) (hchain : FifoWf t')
    (hwork : (s.put i q t').atWork → (s.put i q t').Settled P) : (s.put i q t').Inv P L' where
  linked := hlinked
  sized := hsized
  phases := by
    intro r hr
    rcases mem_phases_put hr with hr | rfl
    · exact h.phases r hr
    · exact hq
  tally := by
    rw [← Phase.total_set hp, ← Phase.total_set hp] at htally
    exact htally
  room := hroom
  chain := hchain
  work := hwork

/-- The thread changes neither the buckets nor the counters. -/
theorem stay (h : s.Inv P L) (hp : s.phases[i]? = some p) (hwhole : p.halfway = false)
    (hq : q.halfway = false) (hwork : (s.put i q s.table).atWork → s.Settled P) :
    (s.put i q s.table).Inv P L := by
  obtain ⟨hitems, hbytes⟩ := Phase.ahead_of_not_halfway hwhole
  obtain ⟨hitems', hbytes'⟩ := Phase.ahead_of_not_halfway hq
  refine h.put hp h.linked h.sized ?_ ?_ h.room h.chain fun hat => (hwork hat).put hq
  · cases q with
    | linked | removed | replaced | appended => cases hq
    | idle | absent | filled | written | evicting => trivial
  · exact h.tally.of_eq (by omega) (by omega)

/-- The thread changes a bucket while no eviction loop is at work. -/
theorem bucketSection (h : s.Inv P L) (hp : s.phases[i]? = some p) (hwhole : p.halfway = false)
    (hidle : ¬s.atWork) (hsame : SameElse s.table t') (hlinked : Linked P t' L')
    (hsized : ∀ e ∈ L'.flatten, e.2.Sized) (hq : q.Sized) (hguard : q.holdsGuard = false)
    (hitems : (L'.flatten.length : Int) = L.flatten.length + q.itemsAhead)
    (hbytes : (bytesOf L'.flatten : Int) = bytesOf L.flatten + q.bytesAhead)
    (hroom : t'.items.live < wordSize) : (s.put i q t').Inv P L' := by
  obtain ⟨hitems₀, hbytes₀⟩ := Phase.ahead_of_not_halfway hwhole
  refine h.put hp hlinked hsized hq ?_ hroom (h.chain.of_same hsame.fifo hsame.fifoItems) ?_
  · rw [hsame.stats]
    exact h.tally.of_eq (by omega) (by omega)
  · rintro ⟨hheld, hexceeds⟩
    exact absurd ⟨guardHeld_put hguard hheld, hsame.exceedsLimits_iff.mp hexceeds⟩ hidle

/-- The thread counts what it did, which no eviction loop sees. -/
theorem statsSection (h : s.Inv P L) (hp : s.phases[i]? = some p) (hfree : s.guardHeld = false)
    (hq : q.halfway = false) (hguard : q.holdsGuard = false)
    (hbuckets : t'.buckets = s.table.buckets) (hitems : t'.items = s.table.items)
    (htally : Tally t'.stats
      (L.flatten.length - Phase.total Phase.itemsAhead s.phases + p.itemsAhead)
      (bytesOf L.flatten - Phase.total Phase.bytesAhead s.phases + p.bytesAhead))
    (hchain : FifoWf t') : (s.put i q t').Inv P L := by
  obtain ⟨hitems₀, hbytes₀⟩ := Phase.ahead_of_not_halfway hq
  refine h.put hp (h.linked.of_same hbuckets hitems) h.sized ?_ ?_ ?_ hchain ?_
  · cases q with
    | linked | removed | replaced | appended => cases hq
    | idle | absent | filled | written | evicting => trivial
  · exact htally.of_eq (by omega) (by omega)
  · rw [hitems]
    exact h.room
  · rintro ⟨hheld, -⟩
    have hheld₀ := guardHeld_put hguard hheld
    rw [hfree] at hheld₀
    cases hheld₀

/-- While nobody stands halfway the counters are exact. -/
theorem exact (h : s.Inv P L) (hs : s.Settled P) :
    s.table.stats.itemsCount = s.table.linkedFiles.length ∧
      s.table.stats.totalSpaceInBytes = s.table.linkedBytes := by
  have hitems := h.tally.items
  have hspace := h.tally.space
  have hzero := Phase.total_eq_zero fun p hp => (Phase.ahead_of_not_halfway (hs.whole p hp)).1
  have hzero' := Phase.total_eq_zero fun p hp => (Phase.ahead_of_not_halfway (hs.whole p hp)).2
  have hlive := h.linked.length_le_live
  have hroom := h.room
  have hbytes := hs.bytes
  rw [hzero, ← h.linked.linkedFiles_length] at hitems
  rw [hzero', ← h.linked.linkedBytes_eq] at hspace
  rw [← h.linked.linkedFiles_length] at hlive
  -- nothing wraps: there is room for every block, and the sizes fit
  rw [Int.sub_zero, Int.emod_eq_of_lt (by omega) (by omega)] at hitems hspace
  constructor <;> omega

/-! ## 2. One action -/

/-- The thread rewrites the file of a linked item, and has yet to count the bytes. -/
theorem rewrite (h : s.Inv P L) (hp : s.phases[i]? = some p) (hwhole : p.halfway = false)
    (hidle : ¬s.atWork) {a : Addr} {f f' : File} (hmem : (a, f) ∈ L.flatten)
    (hkey : f'.key = f.key) (hsized : f'.Sized) (hq : q.Sized) (hguard : q.holdsGuard = false)
    (hitems : q.itemsAhead = 0)
    (hbytes : q.bytesAhead = (f'.lengthInBytes : Int) - f.lengthInBytes) :
    (s.put i q (s.table.setFile a f')).Inv P (L.setFile a f') := by
  have hbytes' := h.linked.setFile_bytes hmem f'
  refine h.bucketSection hp hwhole hidle ⟨⟨rfl, rfl, rfl⟩, rfl, rfl, rfl⟩
    (h.linked.setFile_of_mem hmem hkey) (h.linked.sized_setFile h.sized hmem hsized) hq hguard
    ?_ ?_ ?_
  · rw [Linked.setFile_length, hitems, Int.add_zero]
  · omega
  · rw [HTable.setFile, Heap.live_modify]
    exact h.room

theorem start (h : s.Inv P L) {op : Op} (hp : s.phases[i]? = some .idle)
    (hok : s.Apart P (i, .start op)) {t' : HTable}
    (hx : op.start P s.table = .ok (some (q, t'))) : ∃ L', (s.put i q t').Inv P L' := by
  -- a file is altered only while no loop is at work
  have hidle : ∀ {a : Addr} {f : File}, lookup L op.key = some (a, f) → op.alters f →
      ¬s.atWork := fun {a f} hlook halters hat =>
    hok hat f (by rw [h.linked.fetchFile, fileAt_of_lookup hlook]) halters
  cases h.linked.started h.sized hx with
  | returned _ =>
    exact ⟨L, h.stay hp rfl rfl fun ⟨hheld, hexceeds⟩ => h.work ⟨guardHeld_put rfl hheld, hexceeds⟩⟩
  | absent =>
    exact ⟨L, h.stay hp rfl rfl fun ⟨hheld, hexceeds⟩ => h.work ⟨guardHeld_put rfl hheld, hexceeds⟩⟩
  | removed hlook hremoved hexec =>
    have hmem := mem_of_lookup hlook
    have hlength := h.linked.drop_length hmem
    have hbytes := h.linked.drop_bytes hmem
    have hlive := hremoved.live
    have hroom := h.room
    have halters := h.linked.alters_of_removed hlook hexec
    refine ⟨_, h.bucketSection hp rfl (hidle hlook halters) hremoved.same hremoved.linked
      (h.linked.sized_drop h.sized hmem) (h.sized _ hmem).2 rfl ?_ ?_ (by omega)⟩
    · simp only [Phase.itemsAhead]
      omega
    · simp only [Phase.bytesAhead]
      omega
  | replaced hlook hsized =>
    have hmem := mem_of_lookup hlook
    exact ⟨_, h.rewrite hp rfl (hidle hlook trivial) hmem rfl hsized (h.sized _ hmem).2 rfl rfl rfl⟩
  | appended hlook hsized =>
    rename_i key contents a f
    have hmem := mem_of_lookup hlook
    refine ⟨_, h.rewrite hp rfl (hidle hlook trivial) hmem rfl hsized trivial rfl rfl ?_⟩
    have hnew : (f.withBytes (f.bytes ++ contents)).lengthInBytes =
        f.lengthInBytes + contents.length := by
      rw [← (h.sized _ hmem).1]
      exact List.length_append
    simp only [Phase.bytesAhead]
    omega

theorem link (h : s.Inv P L) {key : CStr} {fd : Int} {withLock : Bool} {head : Ptr}
    (hp : s.phases[i]? = some (.filled key fd withLock head)) (hok : s.Apart P (i, .link))
    {t' : HTable}
    (hx : linkSection s.table (htableBucketPtr P s.table key) (newItem key fd withLock head) =
      .ok t') : ∃ L', (s.put i (.linked key) t').Inv P L' := by
  obtain ⟨hidle, hhead⟩ := hok
  obtain ⟨l, hl⟩ := h.linked.home_bucket key
  obtain ⟨b, hb, -⟩ := h.linked.bucket_of_contents hl
  have hbucket : s.table.bucket (htableBucketPtr P s.table key) = .ok b := by
    rw [h.linked.bucketPtr_eq, HTable.bucket, hb]
  have hroom : s.table.items.live + 1 < wordSize := by
    refine Nat.lt_of_not_le fun hfull => ?_
    rw [linkSection, if_pos hfull] at hx
    cases hx
  obtain ⟨t₁, hlink, hlinked, hsame, hlive⟩ := h.linked.link hl hb
    (newItem key fd withLock head) (hhead _ _ _ _ b hp hbucket).symm rfl rfl hroom
  rw [h.linked.bucketPtr_eq, hlink] at hx
  obtain rfl := Except.ok.inj hx
  have hperm := L.push_flatten_perm (Nat.mod_lt (P.xxh64 key) h.linked.pos)
    (s.table.items.fresh, newFile key fd withLock)
  refine ⟨_, h.bucketSection hp rfl hidle hsame hlinked ?_ trivial rfl ?_ ?_ (by omega)⟩
  · intro e he
    rcases List.mem_cons.mp (hperm.mem_iff.mp he) with rfl | he
    · exact newFile_sized key fd withLock
    · exact h.sized e he
  · have hlength := hperm.length_eq
    rw [List.length_cons] at hlength
    simp only [Phase.itemsAhead, Linked.newItem_file]
    omega
  · have hbytes := bytesOf_perm hperm
    have hnew : (newFile key fd withLock).lengthInBytes = 0 := rfl
    rw [bytesOf_cons, hnew] at hbytes
    simp only [Phase.bytesAhead, Linked.newItem_file]
    omega

theorem count (h : s.Inv P L) (hp : s.phases[i]? = some p) (hfree : s.guardHeld = false)
    {t' : HTable} (hx : p.count s.table = .ok (some (q, t'))) : (s.put i q t').Inv P L := by
  have hsized := h.phases p (List.mem_of_getElem? hp)
  cases p with
  | linked key =>
    obtain ⟨t₁, hstats, hx⟩ := Exec.bind_eq_ok.mp hx
    cases hx
    obtain ⟨-, hstats', hbuckets, hitems⟩ := createStatsSection_ok hstats
    refine h.statsSection hp hfree rfl rfl hbuckets hitems ?_ (h.chain.createStats hstats)
    rw [hstats']
    have hopen : Tally s.table.stats.incOpen _ _ := h.tally.congr (by simp) (by simp)
    exact (hopen.incItems.congr (by simp) (by simp)).of_eq rfl (Int.add_zero _).symm
  | removed size =>
    cases hx
    refine h.statsSection hp hfree rfl rfl rfl rfl ?_ (h.chain.of_same rfl rfl)
    have hopen : Tally s.table.stats.decOpen _ _ := h.tally.congr (by simp) (by simp)
    exact hopen.decItems.subSpace hsized
  | replaced size oldSize =>
    cases hx
    refine h.statsSection hp hfree rfl rfl rfl rfl ?_ (h.chain.of_same rfl rfl)
    have htally := (h.tally.addSpace size).subSpace hsized
    refine (htally.congr ?_ ?_).of_eq (Int.add_zero _).symm (Int.add_sub_assoc _ _ _)
    · simp [replaceStatsSection]
    · simp [replaceStatsSection]
  | appended size =>
    cases hx
    refine h.statsSection hp hfree rfl rfl rfl rfl ?_ (h.chain.of_same rfl rfl)
    have htally := h.tally.addSpace size
    refine (htally.congr ?_ ?_).of_eq (Int.add_zero _).symm rfl
    · simp [appendStatsSection]
    · simp [appendStatsSection]
  | idle | absent | filled | written | evicting => cases hx

/-- While a loop is at work, the chain of the FIFO policy names a file to take next. -/
theorem names_next (h : s.Inv P L) (hat : s.atWork) (hpolicy : s.table.policy = .fifo) :
    ∃ g fs, ChainNames P s.table (g :: fs) := by
  have hs := h.work hat
  obtain ⟨hitems, hspace⟩ := h.exact hs
  obtain ⟨fs, hnames⟩ := hs.names hpolicy
  cases fs with
  | nil =>
    rw [← Nat.mod_eq_of_lt hs.bytes] at hspace
    exact absurd hat.2 (hnames.within hitems hspace)
  | cons g fs => exact ⟨g, fs, hnames⟩

theorem evict (h : s.Inv P L) {evicted evicted' : List File} {rands rands' : List Nat}
    (hp : s.phases[i]? = some (.evicting evicted)) (hexceeds : s.table.exceedsLimits)
    {t' : HTable} (hx : evictRound P s.table evicted rands = .ok (t', evicted', rands')) :
    ∃ L', (s.put i (.evicting evicted') t').Inv P L' := by
  obtain ⟨a, f, hev, -, -, -⟩ := h.linked.evictRound_ok hx
  have hmem := hev.mem
  -- a loop at work: nobody stands halfway
  have hheld : s.guardHeld := List.any_eq_true.mpr ⟨_, List.mem_of_getElem? hp, rfl⟩
  have hs := h.work ⟨hheld, hexceeds⟩
  have hlength := h.linked.drop_length hmem
  have hbytes := h.linked.drop_bytes hmem
  have hlive := hev.live
  have hroom := h.room
  have hsize : f.lengthInBytes < wordSize := (h.sized _ hmem).2
  have htally := h.tally.evictStats hsize
  rw [← hev.stats] at htally
  refine ⟨L.drop a, h.put hp hev.linked (h.linked.sized_drop h.sized hmem) trivial ?_ (by omega)
    (h.chain.picked hev.picked) fun hat => ?_⟩
  · simp only [Phase.itemsAhead, Phase.bytesAhead]
    exact htally.of_eq (by omega) (by omega)
  · refine ⟨fun r hr => ?_, ?_, fun hpolicy => ?_⟩
    · rcases mem_phases_put hr with hr | rfl
      · exact hs.whole r hr
      · rfl
    · have hfits := hs.bytes
      rw [h.linked.linkedBytes_eq] at hfits
      rw [Threads.put, hev.linked.linkedBytes_eq]
      omega
    · have hfifo := hev.settings.policy.symm.trans hpolicy
      obtain ⟨g, fs, hnames⟩ := h.names_next ⟨hheld, hexceeds⟩ hfifo
      exact ⟨fs, (hnames.round h.linked h.chain hfifo hev).2⟩

/-- Whatever thread acts, the invariant holds afterwards. -/
theorem next (h : s.Inv P L) {e : Nat × Action} (hok : s.Apart P e)
    (hx : s.next P e = some s') : ∃ L', s'.Inv P L' := by
  obtain ⟨i, action⟩ := e
  have hguard : ∀ q, q.holdsGuard = false → (s.put i q s.table).atWork → s.Settled P :=
    fun q hq hat => h.work ⟨guardHeld_put hq hat.1, hat.2⟩
  cases step_of_next hx with
  | start hp hstart => exact h.start hp hok hstart
  | fill hp hbucket => exact ⟨L, h.stay hp rfl rfl (hguard _ rfl)⟩
  | link hp hlink => exact h.link hp hok hlink
  | count hp hfree hcount => exact ⟨L, h.count hp hfree hcount⟩
  | enter hp hfree => exact ⟨L, h.stay hp rfl rfl fun hat => hok hat.2⟩
  | evict hp hexceeds hround => exact h.evict hp hexceeds hround
  | miss hp hexceeds hround => exact ⟨L, h⟩
  | leave hp hlimits => exact ⟨L, h.stay hp rfl rfl (hguard _ rfl)⟩

/-! ## 3. The loop -/

/-- While a loop is at work, every linked item is counted with its size. -/
theorem counted_of_mem (h : s.Inv P L) (hat : s.atWork) {a : Addr} {f : File}
    (hmem : (a, f) ∈ L.flatten) : a ∈ s.table.linkedItems ∧
      ∃ item, s.table.items.read a = some item ∧
        item.file.lengthInBytes ≤ s.table.stats.totalSpaceInBytes := by
  obtain ⟨-, hspace⟩ := h.exact (h.work hat)
  obtain ⟨item, hread, hfile⟩ := h.linked.read_of_mem hmem
  have hbytes := h.linked.drop_bytes hmem
  rw [h.linked.linkedItems_eq]
  refine ⟨List.mem_map_of_mem hmem, item, hread, ?_⟩
  rw [hfile, hspace, h.linked.linkedBytes_eq]
  show f.lengthInBytes ≤ bytesOf L.flatten
  omega

/-- A table over its limits is not empty. -/
theorem not_empty (h : s.Inv P L) (hat : s.atWork) : L.flatten ≠ [] := by
  obtain ⟨hitems, hspace⟩ := h.exact (h.work hat)
  intro hempty
  rw [h.linked.linkedFiles_length, hempty] at hitems
  rw [h.linked.linkedBytes_eq, hempty] at hspace
  rcases hat.2 with hmore | hmore
  · rw [hitems] at hmore
    exact Nat.not_lt_zero _ hmore
  · rw [hspace] at hmore
    exact Nat.not_lt_zero _ hmore

theorem evictionFinds_segmented (h : s.Inv P L) (hat : s.atWork)
    (hpolicy : s.table.policy = .segmentedFifo) : EvictionFinds P s.table := by
  have hpos := h.not_empty hat
  have hcount : s.table.stats.itemsCount ≠ 0 := by
    rw [(h.exact (h.work hat)).1, h.linked.linkedFiles_length]
    exact fun hzero => hpos (List.length_eq_zero_iff.mp hzero)
  have hsingle : ∀ r, htableEvictSingleFile P s.table [r] =
      (segmentedLoop s.table [r] >>= fun x => .ok (some x.1, x.2.1, x.2.2)) := by
    intro r
    rw [htableEvictSingleFile, hpolicy]
    simp only [htableEvictSingleFileSegmentedFifo, if_neg hcount]
    rfl
  refine ⟨?_, fun r => ?_⟩
  · -- the draw of a bucket that is not empty
    obtain ⟨e, he⟩ := List.exists_mem_of_ne_nil _ hpos
    obtain ⟨l, hl, hel⟩ := List.mem_flatten.mp he
    obtain ⟨j, hj⟩ := List.mem_iff_getElem?.mp hl
    rcases List.eq_nil_or_concat l with rfl | ⟨xs, ⟨a, f⟩, rfl⟩
    · cases hel
    · have hlt : j < s.table.buckets.length := by
        rw [← h.linked.length]
        exact (List.getElem?_eq_some_iff.mp hj).1
      rw [List.concat_eq_append, ← Nat.mod_eq_of_lt hlt] at hj
      obtain ⟨t', hloop, -⟩ := h.linked.segmentedLoop_hit hj []
      exact ⟨j, a, t', [], by rw [hsingle, hloop]; rfl⟩
  · rcases h.linked.segmentedLoop_eq [r] with hmiss | ⟨j, l, a, f, t', rest, hl, hloop, -⟩
    · exact Or.inl (by rw [hsingle, hmiss]; rfl)
    · have hmem : (a, f) ∈ L.flatten :=
        List.mem_flatten.mpr ⟨_, List.mem_of_getElem? hl, by simp⟩
      obtain ⟨hin, item, hread, hsize⟩ := h.counted_of_mem hat hmem
      exact Or.inr ⟨a, item, t', rest, by rw [hsingle, hloop]; rfl, hin, hread, hsize⟩

/-- Under FIFO every draw comes to the key at the end of the chain. -/
theorem evictionFinds_fifo (h : s.Inv P L) (hat : s.atWork) (hpolicy : s.table.policy = .fifo) :
    EvictionFinds P s.table := by
  obtain ⟨g, fs, hnames⟩ := h.names_next hat hpolicy
  obtain ⟨fifo, last, node, hfifo, hlast, hread, a, hlook⟩ := hnames.first h.linked
  rcases h.linked.evictSingleFifo_eq hfifo hlast hread with
    ⟨hnone, -⟩ | ⟨b, f, t', hsome, hexec, -⟩
  · rw [hnone] at hlook
    cases hlook
  · have hsingle : ∀ r, htableEvictSingleFile P s.table [r] = .ok (some b, t', [r]) := by
      intro r
      rw [htableEvictSingleFile, hpolicy]
      simp only [hexec, Exec.ok_bind, Exec.pure_eq_ok]
    obtain ⟨hin, item, hitem, hsize⟩ := h.counted_of_mem hat (mem_of_lookup hsome)
    exact ⟨⟨0, b, t', [0], hsingle 0⟩,
      fun r => Or.inr ⟨b, item, t', [r], hsingle r, hin, hitem, hsize⟩⟩

/-- A loop at work finds an item whose size is counted. -/
theorem evictionFinds (h : s.Inv P L) (hat : s.atWork) : EvictionFinds P s.table := by
  cases hpolicy : s.table.policy with
  | segmentedFifo => exact h.evictionFinds_segmented hat hpolicy
  | fifo => exact h.evictionFinds_fifo hat hpolicy

end Inv

end

/-! ## 4. Over a run -/

theorem inv_start {P : Platform} {buckets : Nat} {config : Config} {t : HTable}
    (hcreate : htableCreate buckets config = .ok t) (workers : Nat) :
    (start t workers).Inv P (List.replicate buckets []) := by
  have hs : Stored P t _ := stored_create hcreate
  have hidle : ∀ p ∈ (start t workers).phases, p = .idle := fun p hp => List.eq_of_mem_replicate hp
  have hitems : Phase.total Phase.itemsAhead (start t workers).phases = 0 :=
    Phase.total_eq_zero fun p hp => by rw [hidle p hp]; rfl
  have hbytes : Phase.total Phase.bytesAhead (start t workers).phases = 0 :=
    Phase.total_eq_zero fun p hp => by rw [hidle p hp]; rfl
  refine ⟨hs.toLinked, hs.sized, fun p hp => by rw [hidle p hp]; trivial, ?_, hs.room,
    .create hcreate, ?_⟩
  · rw [hitems, hbytes]
    have htally := (counted_create False hcreate).tally
    exact htally.of_eq (Int.sub_zero _).symm (Int.sub_zero _).symm
  · rintro ⟨hheld, -⟩
    obtain ⟨p, hp, hguard⟩ := List.any_eq_true.mp hheld
    rw [hidle p hp] at hguard
    cases hguard

/-- In every run in which the threads stay apart, an eviction loop that has to go on finds a
linked item, and taking its size off the counter does not go below zero. -/
theorem eviction_finds_of_apart {P : Platform} {buckets : Nat} {config : Config} {workers : Nat}
    {tr : List (Threads × (Nat × Action))} {s : Threads}
    (run : Runs P buckets config workers tr s) (hok : ∀ x ∈ tr, x.1.Apart P x.2) :
    ∀ s' ∈ statesOf tr s, s'.atWork → EvictionFinds P s'.table := by
  obtain ⟨t₀, hcreate, run⟩ := run
  have hinv := run.invariant_states (fun s => ∃ L, s.Inv P L) (fun s e => s.Apart P e)
    ⟨_, inv_start hcreate workers⟩ (fun s e s' ⟨L, h⟩ hok hx => h.next hok hx) hok
  intro s' hs' hat
  obtain ⟨L, h⟩ := hinv s' hs'
  exact h.evictionFinds hat

/-- One thread writes a byte to `"a"` and a byte to `"b"`; the store has room for one. -/
def writeBoth : List (Nat × Action) :=
  [(0, .start (.create (bufToStr [97]) 3 false)), (0, .fill), (0, .link), (0, .count),
    (0, .start (.replace (bufToStr [97]) [7])), (0, .count), (0, .enter), (0, .leave),
    (0, .start (.create (bufToStr [98]) 3 false)), (0, .fill), (0, .link), (0, .count),
    (0, .start (.replace (bufToStr [98]) [7])), (0, .count), (0, .enter)]

/-- The threads stay apart when a loop at work is left alone, an item is linked in front of the
head that its bucket has, and under segmented FIFO a loop is entered when all is counted. -/
def calm (P : Platform) (s : Threads) (e : Nat × Action) : Bool :=
  match e.2 with
  | .start _ => ¬s.atWork
  | .link => ¬s.atWork && s.phases[e.1]?.all fun
      | .filled key _ _ head =>
          (s.table.bucket (htableBucketPtr P s.table key)).any fun bucket => bucket.head = head
      | _ => true
  | .enter => s.phases.all (fun p => ¬p.halfway) && s.table.linkedBytes < wordSize &&
      s.table.policy = .segmentedFifo
  | .fill | .count | .evict _ | .leave => true

theorem apart_of_calm {P : Platform} {s : Threads} {e : Nat × Action} (h : s.calm P e = true) :
    s.Apart P e := by
  obtain ⟨i, action⟩ := e
  cases action with
  | start op =>
    have hidle : ¬s.atWork := of_decide_eq_true h
    exact fun hat => absurd hat hidle
  | link =>
    simp only [calm, Bool.and_eq_true, decide_eq_true_eq] at h
    refine ⟨h.1, fun key fd withLock head bucket hp hb => ?_⟩
    have hhead := h.2
    simp only [hp, Option.all_some, hb] at hhead
    exact of_decide_eq_true hhead
  | enter =>
    simp only [calm, Bool.and_eq_true, List.all_eq_true, decide_eq_true_eq] at h
    obtain ⟨⟨hwhole, hbytes⟩, hpolicy⟩ := h
    refine fun _ => ⟨fun p hp => by simpa using hwhole p hp, hbytes, fun hfifo => ?_⟩
    rw [hpolicy] at hfifo
    cases hfifo
  | fill | count | evict | leave => exact trivial

/-- The loop evicts `"a"`, and the other thread creates it again afterwards. -/
theorem eviction_finds_of_apart_twice :
    ∃ tr s, Runs samplePlatform 1 ⟨10, 1, .segmentedFifo⟩ 2 tr s ∧ (∃ x ∈ tr, x.1.atWork) ∧
      ∀ s' ∈ statesOf tr s, s'.atWork → EvictionFinds samplePlatform s'.table := by
  obtain ⟨tr, s, run, htest⟩ := runs_of_actions samplePlatform 1 ⟨10, 1, .segmentedFifo⟩ 2
    (writeBoth ++ [(0, .evict 0), (0, .leave), (1, .start (.create (bufToStr [97]) 4 false)),
      (1, .fill), (1, .link), (1, .count)])
    (fun tr _ => (tr.any fun x => x.1.atWork) && tr.all fun x => x.1.calm samplePlatform x.2)
    (by decide +kernel)
  rw [Bool.and_eq_true, List.any_eq_true, List.all_eq_true] at htest
  obtain ⟨⟨y, hy, hat⟩, hall⟩ := htest
  exact ⟨tr, s, run, ⟨y, hy, of_decide_eq_true hat⟩,
    eviction_finds_of_apart run fun x hx => apart_of_calm (hall x hx)⟩

/-- While the first thread is about to evict `"a"`, the second writes three bytes to it, which
nobody has counted yet. -/
theorem eviction_takes_uncounted :
    ¬∀ (P : Platform) (buckets : Nat) (config : Config) (workers : Nat)
      (tr : List (Threads × (Nat × Action))) (s : Threads), Runs P buckets config workers tr s →
        ∀ s' ∈ statesOf tr s, s'.atWork → EvictionFinds P s'.table := by
  intro hclaim
  obtain ⟨tr, s, run, htest⟩ := runs_of_actions samplePlatform 1 ⟨10, 1, .segmentedFifo⟩ 2
    (writeBoth ++ [(1, .start (.replace (bufToStr [97]) [7, 7, 7]))])
    (fun _ s => decide s.atWork &&
      (htableEvictSingleFile samplePlatform s.table [0]).any fun r => r.1.any fun a =>
        (s.table.items.read a).any fun item =>
          decide (s.table.stats.totalSpaceInBytes < item.file.lengthInBytes))
    (by decide +kernel)
  rw [Bool.and_eq_true, decide_eq_true_eq] at htest
  obtain ⟨hat, htest⟩ := htest
  have hsound := (hclaim _ _ _ _ _ _ run s (by simp [statesOf]) hat).sound 0
  obtain ⟨⟨p, t', rest⟩, hsingle, htest⟩ := Exec.any_eq_true.mp htest
  obtain ⟨a, hp, htest⟩ := (Option.any_eq_true _ _).mp htest
  obtain ⟨item, hread, hmore⟩ := (Option.any_eq_true _ _).mp htest
  simp only at hp
  rw [hsingle, hp] at hsound
  rcases hsound with hmiss | ⟨b, item', t₁, rest₁, hok, -, hread', hle⟩
  · cases hmiss
  · cases hok
    obtain rfl := Option.some.inj (hread.symm.trans hread')
    exact absurd hle (Nat.not_le.mpr (of_decide_eq_true hmore))

end Threads

end FileStorage.Server
