import FileStorage.Server.Steps

/-!
# Counters — the statistics count what the buckets link
-/

namespace FileStorage.Server

open Memory

/-! ## 1. What the buckets link -/

/-- The items met from the head of every bucket. -/
def HTable.linkedItems (t : HTable) : List Addr :=
  t.buckets.flatMap fun b => walk (t.items.field HTableItem.next) t.items.fresh b.head

def HTable.linkedFiles (t : HTable) : List File :=
  t.linkedItems.filterMap (t.items.field HTableItem.file)

def HTable.linkedBytes (t : HTable) : Nat := (t.linkedFiles.map File.lengthInBytes).sum

def Op.size : Op → Nat
  | .replace _ contents | .append _ contents => contents.length
  | _ => 0

namespace Linked

variable {P : Platform} {t : HTable} {L : Contents}

theorem linkedItems_eq (h : Linked P t L) : t.linkedItems = L.flatten.map Prod.fst := by
  have hwalk : t.buckets.map
      (fun b => walk (t.items.field HTableItem.next) t.items.fresh b.head) =
      L.map (List.map Prod.fst) := by
    refine List.ext_getElem? fun i => ?_
    rw [List.getElem?_map, List.getElem?_map]
    cases hb : t.buckets[i]? with
    | none =>
      have hi := h.length ▸ List.getElem?_eq_none_iff.mp hb
      rw [List.getElem?_eq_none hi]
      rfl
    | some b =>
      obtain ⟨l, hl, hlinks⟩ := h.contents_of_bucket hb
      have hfuel := t.items.length_le_fresh (l.map Prod.fst) hlinks.dlist.nodup hlinks.isSome_read
      rw [hl, Option.map_some, Option.map_some, hlinks.dlist.fwd.walk_eq hfuel]
  rw [HTable.linkedItems, List.flatMap_def, hwalk, List.map_flatten]

theorem linkedFiles_eq (h : Linked P t L) : t.linkedFiles = L.flatten.map Prod.snd := by
  have hfile : ∀ e ∈ L.flatten, t.items.field HTableItem.file e.1 = some e.2 := by
    intro e he
    obtain ⟨item, hread, hfile⟩ := h.read_of_mem he
    rw [Heap.field_eq_of_read hread, hfile]
  rw [HTable.linkedFiles, h.linkedItems_eq, List.filterMap_map]
  generalize L.flatten = l at hfile
  induction l with
  | nil => rfl
  | cons e l ih =>
    have hhead : (t.items.field HTableItem.file ∘ Prod.fst) e = some e.2 :=
      hfile e List.mem_cons_self
    rw [List.filterMap_cons_some hhead, List.map_cons,
      ih fun x hx => hfile x (List.mem_cons_of_mem _ hx)]

theorem linkedBytes_eq (h : Linked P t L) : t.linkedBytes = bytesOf L.flatten := by
  rw [HTable.linkedBytes, h.linkedFiles_eq, List.map_map]
  rfl

theorem linkedFiles_length (h : Linked P t L) : t.linkedFiles.length = L.flatten.length := by
  rw [h.linkedFiles_eq, List.length_map]

end Linked

/-! ## 2. The invariant -/

namespace HTableStats

variable (s : HTableStats) (n : Nat)

@[simp] theorem incItems_counts : s.incItems.itemsCount = wadd s.itemsCount 1 ∧
    s.incItems.totalSpaceInBytes = s.totalSpaceInBytes ∧ s.incItems.wrapped = s.wrapped :=
  ⟨rfl, rfl, rfl⟩

@[simp] theorem decItems_counts : s.decItems.itemsCount = wsub s.itemsCount 1 ∧
    s.decItems.totalSpaceInBytes = s.totalSpaceInBytes ∧
    s.decItems.wrapped = (s.wrapped || decide (s.itemsCount < 1)) := ⟨rfl, rfl, rfl⟩

@[simp] theorem addSpace_counts : (s.addSpace n).itemsCount = s.itemsCount ∧
    (s.addSpace n).totalSpaceInBytes = wadd s.totalSpaceInBytes n ∧
    (s.addSpace n).wrapped = s.wrapped := ⟨rfl, rfl, rfl⟩

@[simp] theorem subSpace_counts : (s.subSpace n).itemsCount = s.itemsCount ∧
    (s.subSpace n).totalSpaceInBytes = wsub s.totalSpaceInBytes n ∧
    (s.subSpace n).wrapped = (s.wrapped || decide (s.totalSpaceInBytes < n)) := ⟨rfl, rfl, rfl⟩

@[simp] theorem incOpen_counts : s.incOpen.itemsCount = s.itemsCount ∧
    s.incOpen.totalSpaceInBytes = s.totalSpaceInBytes ∧ s.incOpen.wrapped = s.wrapped :=
  ⟨rfl, rfl, rfl⟩

@[simp] theorem decOpen_counts : s.decOpen.itemsCount = s.itemsCount ∧
    s.decOpen.totalSpaceInBytes = s.totalSpaceInBytes ∧ s.decOpen.wrapped = s.wrapped :=
  ⟨rfl, rfl, rfl⟩

@[simp] theorem incEvictions_counts : s.incEvictions.itemsCount = s.itemsCount ∧
    s.incEvictions.totalSpaceInBytes = s.totalSpaceInBytes ∧
    s.incEvictions.wrapped = s.wrapped := ⟨rfl, rfl, rfl⟩

@[simp] theorem raiseMaxItems_counts : s.raiseMaxItems.itemsCount = s.itemsCount ∧
    s.raiseMaxItems.totalSpaceInBytes = s.totalSpaceInBytes ∧
    s.raiseMaxItems.wrapped = s.wrapped := by
  unfold raiseMaxItems
  split <;> exact ⟨rfl, rfl, rfl⟩

@[simp] theorem raiseMaxSpace_counts : s.raiseMaxSpace.itemsCount = s.itemsCount ∧
    s.raiseMaxSpace.totalSpaceInBytes = s.totalSpaceInBytes ∧
    s.raiseMaxSpace.wrapped = s.wrapped := by
  unfold raiseMaxSpace
  split <;> exact ⟨rfl, rfl, rfl⟩

end HTableStats

/-- The counters are `n` and `b` modulo 2^64. -/
structure Tally (s : HTableStats) (n b : Int) : Prop where
  items : (s.itemsCount : Int) = n % wordSize
  space : (s.totalSpaceInBytes : Int) = b % wordSize

namespace Tally

variable {s s' : HTableStats} {n b : Int}

theorem congr (h : Tally s n b) (hitems : s'.itemsCount = s.itemsCount)
    (hspace : s'.totalSpaceInBytes = s.totalSpaceInBytes) : Tally s' n b :=
  ⟨by rw [hitems]; exact h.items, by rw [hspace]; exact h.space⟩

theorem incItems (h : Tally s n b) : Tally s.incItems (n + 1) b :=
  ⟨by simpa using wadd_emod (b := 1) h.items, by simpa using h.space⟩

theorem decItems (h : Tally s n b) : Tally s.decItems (n - 1) b :=
  ⟨by simpa using wsub_emod (b := 1) h.items (by decide), by simpa using h.space⟩

theorem addSpace (h : Tally s n b) (k : Nat) : Tally (s.addSpace k) n (b + k) :=
  ⟨by simpa using h.items, by simpa using wadd_emod (b := k) h.space⟩

theorem subSpace (h : Tally s n b) {k : Nat} (hk : k < wordSize) :
    Tally (s.subSpace k) n (b - k) :=
  ⟨by simpa using h.items, by simpa using wsub_emod h.space hk⟩

theorem evictStats (h : Tally s n b) {f : File} (hf : f.lengthInBytes < wordSize) :
    Tally (evictStats s f) (n - 1) (b - f.lengthInBytes) := by
  have hs : Tally (if f.isOpen then s.decOpen else s) n b := by
    split
    · exact h.congr (by simp) (by simp)
    · exact h
  exact (hs.decItems.subSpace hf).congr (by simp [Server.evictStats])
    (by simp [Server.evictStats])

end Tally

/-- The counters count the entries `l`.  `clean` is the condition under which none of their
decrements has gone below zero. -/
structure Counted (clean : Prop) (s : HTableStats) (l : List Entry) : Prop where
  tally : Tally s l.length (bytesOf l)
  room : l.length < wordSize
  unwrapped : clean → bytesOf l < wordSize ∧ s.wrapped = false

namespace Counted

variable {clean : Prop} {s s' : HTableStats} {l l' : List Entry} {e : Entry}

theorem items (h : Counted clean s l) : s.itemsCount = l.length := by
  have hitems := h.tally.items
  have hroom := h.room
  rw [Int.emod_eq_of_lt (by omega) (by omega)] at hitems
  omega

theorem space (h : Counted clean s l) : s.totalSpaceInBytes = bytesOf l % wordSize := by
  have hspace := h.tally.space
  omega

theorem congr (h : Counted clean s l) (hitems : s'.itemsCount = s.itemsCount)
    (hspace : s'.totalSpaceInBytes = s.totalSpaceInBytes) (hwrapped : s'.wrapped = s.wrapped) :
    Counted clean s' l :=
  ⟨h.tally.congr hitems hspace, h.room, fun hclean => by
    rw [hwrapped]
    exact h.unwrapped hclean⟩

theorem perm (h : Counted clean s l) (hperm : l.Perm l') : Counted clean s l' := by
  refine ⟨?_, hperm.length_eq ▸ h.room, ?_⟩
  · rw [← hperm.length_eq, ← bytesOf_perm hperm]
    exact h.tally
  · rw [← bytesOf_perm hperm]
    exact h.unwrapped

/-- One item goes and its bytes with it. -/
theorem pop (h : Counted clean s (e :: l)) (he : e.2.lengthInBytes < wordSize) :
    Counted clean (s.decItems.subSpace e.2.lengthInBytes) l := by
  have hitems := h.items
  have hspace := h.space
  have hroom := h.room
  have htally := h.tally.decItems.subSpace he
  simp only [List.length_cons, bytesOf_cons] at hitems hspace hroom htally
  -- modulo 2^64 the counters always agree; that nothing wraps needs the sizes to fit
  refine ⟨?_, by omega, fun hclean => ?_⟩
  · convert htally using 1 <;> push_cast <;> omega
  · obtain ⟨hfits, hwrapped⟩ := h.unwrapped hclean
    rw [bytesOf_cons] at hfits
    rw [Nat.mod_eq_of_lt hfits] at hspace
    have hone : ¬s.itemsCount < 1 := by omega
    have hle : ¬s.totalSpaceInBytes < e.2.lengthInBytes := by omega
    exact ⟨by omega, by simp [hwrapped, hone, hle]⟩

theorem evictStats (h : Counted clean s (e :: l)) (he : e.2.lengthInBytes < wordSize) :
    Counted clean (evictStats s e.2) l := by
  have hs : Counted clean (if e.2.isOpen then s.decOpen else s) (e :: l) := by
    split
    · exact h.congr (by simp) (by simp) (by simp)
    · exact h
  exact (hs.pop he).congr (by simp [Server.evictStats]) (by simp [Server.evictStats])
    (by simp [Server.evictStats])

end Counted

/-! ## 3. One operation -/

theorem Evictions.counted {P : Platform} {t t' : HTable} {L L' : Contents} {evicted : List File}
    {clean : Prop} (h : Evictions P t L evicted t' L') (hs : Stored P t L)
    (hc : Counted clean t.stats L.flatten) : Counted clean t'.stats L'.flatten := by
  induction h with
  | done hlimits => exact hc
  | round hlimits hev rest ih =>
    have hperm := hs.drop_perm hev.mem
    refine ih (hs.drop hev.mem hev.linked hev.live) ?_
    rw [hev.stats]
    exact (hc.perm hperm).evictStats (hs.sized _ hev.mem).2

namespace Effect

variable {P : Platform} {t t' : HTable} {L L' : Contents} {op : Op} {out : Outcome} {clean : Prop}

/-- A replacement adds the new size before it takes the old one off, so it needs room for both. -/
theorem counted_written (hs : Stored P t L) (hc : Counted clean t.stats L.flatten)
    (hop : op.writes) {a : Addr} {f f' : File} (hlook : lookup L op.key = some (a, f))
    (hverdict : op.verdict (some f) = .put .ok (-1) f')
    (hsize : clean → bytesOf L.flatten + op.size < wordSize) :
    Counted clean (op.writeStats f t.stats) (L.setFile a f').flatten := by
  have hmem := mem_of_lookup hlook
  have hbytes := hs.setFile_bytes hmem f'
  have hdrop := hs.drop_bytes hmem
  have hspace := hc.space
  have hlength := Linked.setFile_length (L := L) (a := a) f'
  obtain ⟨hlen, hlt⟩ := hs.sized _ hmem
  simp only at hlen hlt
  cases op with
  | create | «open» | close | lock | unlock | remove => simp [Op.writes] at hop
  | replace key contents =>
    simp only [Op.size] at hsize
    simp only [Op.verdict, Verdict.put.injEq, true_and] at hverdict
    have hf' : f'.lengthInBytes = contents.length := by rw [← hverdict]; rfl
    have htally := (hc.tally.addSpace contents.length).subSpace hlt
    refine ⟨?_, hlength ▸ hc.room, fun hclean => ?_⟩
    · rw [hlength]
      refine Tally.congr ?_ (s := (t.stats.addSpace contents.length).subSpace f.lengthInBytes)
        (by simp [Op.writeStats]) (by simp [Op.writeStats])
      convert htally using 1
      omega
    · obtain ⟨-, hwrapped⟩ := hc.unwrapped hclean
      have hfits := hsize hclean
      rw [Nat.mod_eq_of_lt (by omega)] at hspace
      have hadd : wadd t.stats.totalSpaceInBytes contents.length =
          bytesOf L.flatten + contents.length := by rw [hspace, wadd_of_lt hfits]
      -- the old size is still part of the sum when it is taken off
      have hle : f.lengthInBytes ≤ bytesOf L.flatten + contents.length := by omega
      exact ⟨by omega, by simp [Op.writeStats, hwrapped, hadd, hle]⟩
  | append key contents =>
    simp only [Op.size] at hsize
    simp only [Op.verdict, Verdict.put.injEq, true_and] at hverdict
    have hf' : f'.lengthInBytes = f.lengthInBytes + contents.length := by
      rw [← hverdict, ← hlen]
      exact List.length_append
    have htally := hc.tally.addSpace contents.length
    refine ⟨?_, hlength ▸ hc.room, fun hclean => ?_⟩
    · rw [hlength]
      refine Tally.congr ?_ (s := t.stats.addSpace contents.length) (by simp [Op.writeStats])
        (by simp [Op.writeStats])
      convert htally using 1
      omega
    · have hfits := hsize hclean
      exact ⟨by omega, by simp [Op.writeStats, (hc.unwrapped hclean).2]⟩

theorem counted (h : Effect P t L op out t' L') (hs : Stored P t L)
    (hc : Counted clean t.stats L.flatten)
    (hsize : clean → bytesOf L.flatten + op.size < wordSize) :
    Counted clean t'.stats L'.flatten := by
  cases h with
  | refused hverdict => exact hc
  | touched hop hlook hverdict =>
    rename_i code newOwner a f f'
    have hmem := mem_of_lookup hlook
    have hlen := (Op.verdict_put_contents hop hverdict).2
    have hbytes := hs.setFile_bytes hmem f'
    -- a change in place counts the same bytes
    have hset : Counted clean t.stats (L.setFile a f').flatten := by
      have hsame : bytesOf (L.setFile a f').flatten = bytesOf L.flatten := by omega
      have hlength := Linked.setFile_length (L := L) (a := a) f'
      refine ⟨?_, hlength ▸ hc.room, by rw [hsame]; exact hc.unwrapped⟩
      rw [hlength, hsame]
      exact hc.tally
    cases op with
    | create | remove | replace | append => simp [Op.touches] at hop
    | «open» | close | lock | unlock =>
      exact hset.congr (by simp [Op.touchStats]) (by simp [Op.touchStats]) (by simp [Op.touchStats])
  | created hlook hlinked hsame hlive hroom hstats =>
    rename_i key fd withLock t₁
    obtain ⟨-, hstats', -, -⟩ := createStatsSection_ok hstats
    have hperm : (L.push (P.xxh64 key % L.length) (t.items.fresh, newFile key fd withLock)).flatten.Perm
        ((t.items.fresh, newFile key fd withLock) :: L.flatten) := hs.push_perm _
    have hcount := hlinked.length_le_live.trans_lt hroom
    rw [hperm.length_eq] at hcount
    -- the new file is empty, so only the number of items goes up
    have hcount' :
        Counted clean t'.stats ((t.items.fresh, newFile key fd withLock) :: L.flatten) := by
      rw [hstats', hsame.stats]
      refine ⟨?_, hcount, fun hclean => ?_⟩
      · have htally : Tally t.stats.incOpen.incItems (L.flatten.length + 1) (bytesOf L.flatten) :=
          (hc.tally.congr (by simp) (by simp)).incItems
        simpa [newFile] using htally.congr (by simp) (by simp)
      · obtain ⟨hfits, hwrapped⟩ := hc.unwrapped hclean
        exact ⟨by simpa [newFile] using hfits, by simpa using hwrapped⟩
    exact hcount'.perm hperm.symm
  | removed hlook hallowed hremoved =>
    have hmem := mem_of_lookup hlook
    have hopen : Counted clean t.stats.decOpen L.flatten :=
      hc.congr (by simp) (by simp) (by simp)
    simp only [removeStatsSection, hremoved.same.stats]
    exact (hopen.perm (hs.drop_perm hmem)).pop (hs.sized _ hmem).2
  | wrote hop hlook hverdict hsize' hev =>
    exact hev.counted (stored_written hs hop hlook hverdict hsize')
      (counted_written hs hc hop hlook hverdict hsize)

end Effect

/-! ## 4. Over a run -/

theorem counted_create {buckets : Nat} {config : Config} {t : HTable} (clean : Prop)
    (hx : htableCreate buckets config = .ok t) :
    Counted clean t.stats (List.replicate buckets ([] : List Entry)).flatten := by
  unfold htableCreate at hx
  split at hx
  · obtain rfl := Except.ok.inj hx
    have hflat : (List.replicate buckets ([] : List Entry)).flatten = [] := by simp
    rw [hflat]
    exact ⟨⟨rfl, rfl⟩, wordSize_pos, fun _ => ⟨wordSize_pos, rfl⟩⟩
  · cases hx

namespace SequentialRun

variable {P : Platform} {buckets : Nat} {config : Config} {tr : List (HTable × Call)} {t : HTable}

theorem counted (run : SequentialRun P buckets config tr t) (clean : Prop)
    (hsizes : clean → ∀ x ∈ tr, x.1.linkedBytes + x.2.op.size < wordSize) :
    ∃ L, Stored P t L ∧ Counted clean t.stats L.flatten := by
  obtain ⟨t₀, hcreate, run⟩ := run
  refine run.invariant (fun t => ∃ L, Stored P t L ∧ Counted clean t.stats L.flatten)
    (fun t c => clean → t.linkedBytes + c.op.size < wordSize)
    ⟨_, stored_create hcreate, counted_create clean hcreate⟩ ?_
    fun x hx hclean => hsizes hclean x hx
  rintro s c s' ⟨L, hs, hc⟩ hsize ⟨out, hexec⟩
  obtain ⟨L', heffect⟩ := effect_of_exec hs hexec
  rw [hs.linkedBytes_eq] at hsize
  exact ⟨L', heffect.stored hs, heffect.counted hs hc hsize⟩

end SequentialRun

/-- In every state of a sequential run the counters are exact and no decrement has wrapped.  The
bytes stored before a write and the bytes written stay below 2^64 together, as they do when all
sizes of the run add up to less. -/
theorem counters_exact {P : Platform} {buckets : Nat} {config : Config}
    {tr : List (HTable × Call)} {t : HTable} (run : SequentialRun P buckets config tr t)
    (hsizes : ∀ x ∈ tr, x.1.linkedBytes + x.2.op.size < wordSize) :
    t.stats.itemsCount = t.linkedFiles.length ∧
      t.stats.totalSpaceInBytes = (t.linkedFiles.map File.lengthInBytes).sum ∧
      t.stats.wrapped = false := by
  obtain ⟨L, hs, hc⟩ := run.counted True fun _ => hsizes
  obtain ⟨hfits, hwrapped⟩ := hc.unwrapped trivial
  refine ⟨hc.items.trans hs.linkedFiles_length.symm, ?_, hwrapped⟩
  rw [hc.space, Nat.mod_eq_of_lt hfits]
  exact hs.linkedBytes_eq.symm

/-- A replacement, an append, an eviction and a removal. -/
theorem counters_exact_after_eviction :
    ∃ tr t, SequentialRun samplePlatform 1 ⟨1, 10, .segmentedFifo⟩ tr t ∧ tr.length = 5 ∧
      t.stats.itemsCount = t.linkedFiles.length ∧
      t.stats.totalSpaceInBytes = (t.linkedFiles.map File.lengthInBytes).sum ∧
      t.stats.wrapped = false := by
  obtain ⟨tr, t, run, htest⟩ := SequentialRun.of_run_test samplePlatform 1 ⟨1, 10, .segmentedFifo⟩
    [⟨.create (bufToStr [97]) 3 false, []⟩, ⟨.replace (bufToStr [97]) [7, 8], []⟩,
      ⟨.create (bufToStr [98]) 4 true, []⟩, ⟨.append (bufToStr [98]) [9, 9, 9], [0]⟩,
      ⟨.remove (bufToStr [98]) 4, []⟩]
    (fun tr _ => decide (tr.length = 5 ∧ ∀ x ∈ tr, x.1.linkedBytes + x.2.op.size < wordSize))
    (by decide +kernel)
  obtain ⟨hlen, hsizes⟩ := of_decide_eq_true htest
  exact ⟨tr, t, run, hlen, counters_exact run hsizes⟩

end FileStorage.Server
