import FileStorage.Server.Threads

/-!
# ConcurrentCreates — several threads create files

`htable_create_file` looks a key up, reads the head of its bucket, and links the new item in front
of the head that it read.  As long as nothing came in between that matters to the link, the table is
sound, whatever else the threads do.
-/

namespace FileStorage.Server

open Memory

/-- How often the entries hold a file under `key`. -/
def Contents.count (L : Contents) (key : CStr) : Nat := (keysOf L.flatten).count key

section

variable {P : Platform} {t : HTable} {L : Contents} {a : Addr} {f f' : File} {key : CStr}

theorem Contents.count_of_perm {L' : Contents} {e : Entry} {l : List Entry}
    (h : L'.flatten.Perm (e :: l)) (key : CStr) :
    L'.count key = (keysOf l).count key + if e.2.key = key then 1 else 0 := by
  have hkeys : (keysOf L'.flatten).Perm (e.2.key :: keysOf l) := h.map fun e : Entry => e.2.key
  rw [Contents.count, hkeys.count_eq, List.count_cons]
  simp only [beq_iff_eq]

theorem Linked.count_drop (h : Linked P t L) (hmem : (a, f) ∈ L.flatten) (key : CStr) :
    L.count key = (L.drop a).count key + if f.key = key then 1 else 0 :=
  Contents.count_of_perm (h.drop_perm hmem) key

theorem Linked.count_setFile (h : Linked P t L) (hmem : (a, f) ∈ L.flatten)
    (hkey : f'.key = f.key) : (L.setFile a f').count key = L.count key := by
  rw [Contents.count_of_perm (h.setFile_perm hmem f'), h.count_drop hmem, hkey]
  rfl

end

namespace Threads

/-! ## 1. What the claim is about -/

/-- In this step a create of `key` returns `HTABLE_ERR_OK`. -/
def createsOk (key : CStr) (x : Threads × (Nat × Action)) : Bool :=
  x.2.2 = .count && x.1.phases[x.2.1]? = some (.linked key)

/-- In this step the file with the key is removed or evicted. -/
def takesOut (P : Platform) (key : CStr) (x : Threads × (Nat × Action)) : Bool :=
  match x.2.2 with
  | .start (.remove key' fd) =>
      key' = key && (removeSection P x.1.table key' fd).any fun r => r.1.isRight
  | .evict r =>
      match x.1.phases[x.2.1]? with
      | some (.evicting evicted) =>
          (evictRound P x.1.table evicted [r]).any fun x => x.2.1.getLast?.any (·.key = key)
      | _ => false
  | _ => false

/-- The creates of `key` that linked their item and have yet to return. -/
def returning (s : Threads) (key : CStr) : Nat := s.phases.count (.linked key)

/-- What the run `tr` to `s` must come to. -/
structure CreatesSound (P : Platform) (tr : List (Threads × (Nat × Action))) (s : Threads) : Prop where
  /-- Every key is linked at most once. -/
  unique : (s.table.linkedFiles.map File.key).Nodup
  /-- Of the creates of a key, at most one succeeds until its file is taken out. -/
  once : ∀ key, tr.countP (createsOk key) + s.returning key ≤ tr.countP (takesOut P key) + 1
  /-- Every item that was not freed is reached from the head of its bucket. -/
  reachable : ∀ a item, s.table.items.read a = some item → ∃ bucket,
    s.table.bucket (htableBucketPtr P s.table item.file.key) = .ok bucket ∧
      a ∈ walk (s.table.items.field HTableItem.next) s.table.items.fresh bucket.head

/-- The condition on a link: no file has the key by now, and the head is the one that was read. -/
def LinksFresh (P : Platform) (s : Threads) (e : Nat × Action) : Prop :=
  e.2 = .link → ∀ key fd withLock head, s.phases[e.1]? = some (.filled key fd withLock head) →
    htableFetchFile P s.table key = .ok none ∧
      ∀ bucket, s.table.bucket (htableBucketPtr P s.table key) = .ok bucket → bucket.head = head

/-! ## 2. The invariant -/

/-- All live items are linked, under different keys. -/
structure Kept (P : Platform) (s : Threads) (L : Contents) : Prop where
  stored : Stored P s.table L
  full : s.table.items.live = L.flatten.length

variable {P : Platform} {s s' : Threads} {L L' : Contents} {i : Nat} {p q : Phase} {t' : HTable}
  {action : Action} {key : CStr}

/-- The thread at `i` goes from `p` to `q`. -/
theorem returning_put (hp : s.phases[i]? = some p) (q : Phase) (t' : HTable) (key : CStr) :
    (s.put i q t').returning key + (if p = .linked key then 1 else 0) =
      s.returning key + if q = .linked key then 1 else 0 := by
  obtain ⟨hi, rfl⟩ := List.getElem?_eq_some_iff.mp hp
  show (s.phases.set i q).count (.linked key) + _ = _
  rw [returning, List.count_set hi]
  by_cases hlinked : s.phases[i] = .linked key
  · -- the thread was counted
    have hpos : 0 < s.phases.count (.linked key) :=
      List.count_pos_iff.mpr (hlinked ▸ List.getElem_mem hi)
    simp only [hlinked, beq_self_eq_true, if_true, beq_iff_eq]
    omega
  · simp only [beq_iff_eq, hlinked, if_false]
    omega

namespace Kept

/-- The step keeps the invariant, and its items are accounted for. -/
structure Goes (P : Platform) (s : Threads) (L : Contents) (e : Nat × Action) (s' : Threads)
    (L' : Contents) : Prop where
  kept : Kept P s' L'
  balance : ∀ key, (createsOk key (s, e)).toNat + s'.returning key + L.count key =
    (takesOut P key (s, e)).toNat + L'.count key + s.returning key

/-- Thread `i` goes from one phase to another. -/
theorem goes (h : Kept P s L) (hp : s.phases[i]? = some p) (hstored : Stored P t' L')
    (hfull : t'.items.live + L.flatten.length = s.table.items.live + L'.flatten.length)
    (hbalance : ∀ key, (createsOk key (s, (i, action))).toNat + (if q = .linked key then 1 else 0) +
      L.count key = (takesOut P key (s, (i, action))).toNat + L'.count key +
        if p = .linked key then 1 else 0) : Goes P s L (i, action) (s.put i q t') L' := by
  refine ⟨⟨hstored, ?_⟩, fun key => ?_⟩
  · have hfull₀ := h.full
    show t'.items.live = _
    omega
  · have hreturning := returning_put hp q t' key
    have hkey := hbalance key
    omega

/-- The thread does not touch the table. -/
theorem stay (h : Kept P s L) (hp : s.phases[i]? = some p) (hnot : ∀ key, p ≠ .linked key)
    (hnot' : ∀ key, q ≠ .linked key) (hreturns : ∀ key, createsOk key (s, (i, action)) = false)
    (htakes : ∀ key, takesOut P key (s, (i, action)) = false) :
    Goes P s L (i, action) (s.put i q s.table) L := by
  refine h.goes hp h.stored rfl fun key => ?_
  simp only [hreturns, htakes, if_neg (hnot key), if_neg (hnot' key), Nat.add_zero]

/-- The thread rewrites the file of a linked item. -/
theorem rewrite (h : Kept P s L) (hp : s.phases[i]? = some p) (hnot : ∀ key, p ≠ .linked key)
    (hnot' : ∀ key, q ≠ .linked key) (hreturns : ∀ key, createsOk key (s, (i, action)) = false)
    (htakes : ∀ key, takesOut P key (s, (i, action)) = false) {a : Addr} {f f' : File}
    (hmem : (a, f) ∈ L.flatten) (hkey : f'.key = f.key) (hsized : f'.Sized) :
    Goes P s L (i, action) (s.put i q (s.table.setFile a f')) (L.setFile a f') := by
  refine h.goes hp (h.stored.setFile hmem f' hkey hsized) ?_ fun key => ?_
  · rw [HTable.setFile, Heap.live_modify, Linked.setFile_length]
  · simp only [hreturns, htakes, if_neg (hnot key), if_neg (hnot' key),
      h.stored.count_setFile hmem hkey, Nat.add_zero]

theorem start (h : Kept P s L) {op : Op} (hp : s.phases[i]? = some .idle)
    (hx : op.start P s.table = .ok (some (q, t'))) :
    ∃ L', Goes P s L (i, .start op) (s.put i q t') L' := by
  have hreturns : ∀ key, createsOk key (s, (i, .start op)) = false := fun key => rfl
  have hnot : ∀ key, Phase.idle ≠ .linked key := fun key hq => Phase.noConfusion hq
  cases h.stored.started h.stored.sized hx with
  | returned hkept =>
    refine ⟨L, h.stay hp hnot hnot hreturns fun key => ?_⟩
    cases op with
    | remove key' fd => simp [takesOut, hkept key' fd rfl]
    | create | «open» | close | lock | unlock | replace | append => rfl
  | absent =>
    exact ⟨L, h.stay hp hnot (fun key hq => Phase.noConfusion hq) hreturns fun key => rfl⟩
  | removed hlook hremoved hexec =>
    rename_i key fd a f
    have hmem := mem_of_lookup hlook
    have hlength := h.stored.drop_length hmem
    have hlive := hremoved.live
    refine ⟨_, h.goes hp (h.stored.drop hmem hremoved.linked hlive) (by omega) fun key' => ?_⟩
    have htakes : takesOut P key' (s, (i, .start (.remove key fd))) = decide (key = key') := by
      simp [takesOut, hexec, Exec.any]
    have hcount := h.stored.count_drop hmem key'
    rw [key_of_lookup hlook] at hcount
    rw [hreturns, htakes, hcount]
    by_cases hkey : key = key' <;> simp [hkey, Nat.add_comm]
  | replaced hlook hsized =>
    refine ⟨_, h.rewrite hp hnot ?_ hreturns (fun key => rfl) (mem_of_lookup hlook) rfl hsized⟩
    exact fun key hq => Phase.noConfusion hq
  | appended hlook hsized =>
    refine ⟨_, h.rewrite hp hnot ?_ hreturns (fun key => rfl) (mem_of_lookup hlook) rfl hsized⟩
    exact fun key hq => Phase.noConfusion hq

/-- A fresh link adds the item in front of its bucket. -/
theorem link (h : Kept P s L) {key : CStr} {fd : Int} {withLock : Bool} {head : Ptr}
    (hp : s.phases[i]? = some (.filled key fd withLock head)) (hok : s.LinksFresh P (i, .link))
    (hx : linkSection s.table (htableBucketPtr P s.table key) (newItem key fd withLock head) =
      .ok t') : ∃ L', Goes P s L (i, .link) (s.put i (.linked key) t') L' := by
  obtain ⟨habsent, hhead⟩ := hok rfl key fd withLock head hp
  have hnone : lookup L key = none := by
    rw [h.stored.fetchFile, Except.ok.injEq] at habsent
    cases hlook : lookup L key with
    | none => rfl
    | some e => rw [fileAt_of_lookup (a := e.1) (f := e.2) hlook] at habsent; cases habsent
  obtain ⟨l, hl⟩ := h.stored.home_bucket key
  obtain ⟨b, hb, -⟩ := h.stored.bucket_of_contents hl
  have hbucket : s.table.bucket (htableBucketPtr P s.table key) = .ok b := by
    rw [h.stored.bucketPtr_eq, HTable.bucket, hb]
  have hroom : s.table.items.live + 1 < wordSize := by
    refine Nat.lt_of_not_le fun hfull => ?_
    rw [linkSection, if_pos hfull] at hx
    cases hx
  obtain ⟨t₁, hlink, hlinked, -, hlive⟩ := h.stored.link hl hb
    (newItem key fd withLock head) (hhead b hbucket).symm rfl rfl hroom
  rw [h.stored.bucketPtr_eq, hlink] at hx
  obtain rfl := Except.ok.inj hx
  have hperm := h.stored.push_perm (s.table.items.fresh, newFile key fd withLock)
  have hlength := hperm.length_eq
  rw [List.length_cons] at hlength
  refine ⟨_, h.goes hp (h.stored.push (s.table.items.fresh, newFile key fd withLock) hnone hlinked
    (newFile_sized key fd withLock) (by omega)) (by omega) fun key' => ?_⟩
  have hcount := Contents.count_of_perm hperm key'
  change Contents.count _ key' = L.count key' + if key = key' then 1 else 0 at hcount
  rw [hcount]
  by_cases hkey : key = key' <;> simp [createsOk, takesOut, hkey, Nat.add_comm]

theorem count (h : Kept P s L) (hp : s.phases[i]? = some p)
    (hx : p.count s.table = .ok (some (q, t'))) : Goes P s L (i, .count) (s.put i q t') L := by
  have htakes : ∀ key, takesOut P key (s, (i, .count)) = false := fun key => rfl
  cases p with
  | linked key =>
    obtain ⟨t₁, hstats, hx⟩ := Exec.bind_eq_ok.mp hx
    cases hx
    obtain ⟨-, -, hbuckets, hitems⟩ := createStatsSection_ok hstats
    refine h.goes hp (h.stored.of_same hbuckets hitems) (by rw [hitems]) fun key' => ?_
    -- the create returns
    have hreturns : createsOk key' (s, (i, .count)) = decide (key = key') := by
      simp [createsOk, hp]
    rw [hreturns, htakes]
    by_cases hkey : key = key' <;> simp [hkey, Nat.add_comm]
  | removed size | replaced size oldSize | appended size =>
    cases hx
    refine h.goes hp (h.stored.of_same rfl rfl) rfl fun key' => ?_
    have hreturns : createsOk key' (s, (i, .count)) = false := by simp [createsOk, hp]
    rw [hreturns, htakes]
    simp
  | idle | absent | filled | written | evicting => cases hx

theorem evict (h : Kept P s L) {evicted evicted' : List File} {r : Nat} {rands' : List Nat}
    (hp : s.phases[i]? = some (.evicting evicted))
    (hx : evictRound P s.table evicted [r] = .ok (t', evicted', rands')) :
    ∃ L', Goes P s L (i, .evict r) (s.put i (.evicting evicted') t') L' := by
  obtain ⟨a, f, hev, rfl, -, -⟩ := h.stored.evictRound_ok hx
  have hlength := h.stored.drop_length hev.mem
  have hlive := hev.live
  refine ⟨_, h.goes hp (h.stored.drop hev.mem hev.linked hlive) (by omega) fun key => ?_⟩
  have htakes : takesOut P key (s, (i, .evict r)) = decide (f.key = key) := by
    simp [takesOut, hp, hx, Exec.any]
  have hcount := h.stored.count_drop hev.mem key
  rw [htakes, hcount]
  by_cases hkey : f.key = key <;> simp [createsOk, hkey, Nat.add_comm]

/-- Whatever thread acts, the invariant holds afterwards and the items are accounted for. -/
theorem next (h : Kept P s L) {e : Nat × Action} (hok : s.LinksFresh P e)
    (hx : s.next P e = some s') : ∃ L', Goes P s L e s' L' := by
  obtain ⟨i, action⟩ := e
  have hstay : ∀ {p q : Phase} {action : Action}, s.phases[i]? = some p →
      (∀ key, p ≠ .linked key) → (∀ key, q ≠ .linked key) →
        (∀ key, createsOk key (s, (i, action)) = false) →
          (∀ key, takesOut P key (s, (i, action)) = false) →
            ∃ L', Goes P s L (i, action) (s.put i q s.table) L' :=
    fun hp hnot hnot' hreturns htakes => ⟨L, h.stay hp hnot hnot' hreturns htakes⟩
  cases step_of_next hx with
  | start hp hstart => exact h.start hp hstart
  | fill hp hbucket =>
    exact hstay hp (fun key hq => Phase.noConfusion hq) (fun key hq => Phase.noConfusion hq)
      (fun key => rfl) fun key => rfl
  | link hp hlink => exact h.link hp hok hlink
  | count hp hfree hcount => exact ⟨L, h.count hp hcount⟩
  | enter hp hfree =>
    exact hstay hp (fun key hq => Phase.noConfusion hq) (fun key hq => Phase.noConfusion hq)
      (fun key => rfl) fun key => rfl
  | evict hp hexceeds hround => exact h.evict hp hround
  | miss hp hexceeds hround =>
    refine ⟨L, h, fun key => ?_⟩
    simp [createsOk, takesOut, hp, hround, Exec.any, Nat.add_comm]
  | leave hp hlimits =>
    exact hstay hp (fun key hq => Phase.noConfusion hq) (fun key hq => Phase.noConfusion hq)
      (fun key => rfl) fun key => rfl

/-- A live item is linked. -/
theorem mem_of_read (h : Kept P s L) {a : Addr} {item : HTableItem}
    (hread : s.table.items.read a = some item) : (a, item.file) ∈ L.flatten := by
  have hmem : a ∈ L.flatten.map Prod.fst := by
    refine Heap.mem_of_live_le s.table.items h.stored.addrs_nodup (fun b hb => ?_) ?_
      (Option.isSome_of_eq_some hread)
    · obtain ⟨e, he, rfl⟩ := List.mem_map.mp hb
      obtain ⟨item', hread', -⟩ := h.stored.read_of_mem he
      exact Option.isSome_of_eq_some hread'
    · rw [List.length_map]
      exact Nat.le_of_eq h.full
  obtain ⟨⟨b, f⟩, he, rfl⟩ := List.mem_map.mp hmem
  obtain ⟨item', hread', hfile⟩ := h.stored.read_of_mem he
  obtain rfl := Option.some.inj (hread.symm.trans hread')
  rw [hfile]
  exact he

/-- The items of a bucket are met from its head. -/
theorem reachable (h : Kept P s L) {a : Addr} {item : HTableItem}
    (hread : s.table.items.read a = some item) : ∃ bucket,
      s.table.bucket (htableBucketPtr P s.table item.file.key) = .ok bucket ∧
        a ∈ walk (s.table.items.field HTableItem.next) s.table.items.fresh bucket.head := by
  obtain ⟨l, hl, hel⟩ := List.mem_flatten.mp (h.mem_of_read hread)
  obtain ⟨i, hi⟩ := List.mem_iff_getElem?.mp hl
  obtain ⟨b, hb, hlinks⟩ := h.stored.bucket_of_contents hi
  have hhome := h.stored.home i l hi _ hel
  refine ⟨b, ?_, ?_⟩
  · rw [h.stored.bucketPtr_eq, hhome, HTable.bucket, hb]
  · have hfuel := s.table.items.length_le_fresh (l.map Prod.fst) hlinks.dlist.nodup fun c hc => by
      obtain ⟨x, hx⟩ := hlinks.live c hc
      exact Option.isSome_of_eq_some hx
    rw [hlinks.dlist.fwd.walk_eq hfuel]
    exact List.mem_map_of_mem hel

end Kept

/-! ## 3. Over a run -/

/-- Every create that succeeded, or is about to, is accounted for by a file that was taken out or is
still there. -/
theorem kept_of_run {t₀ : HTable} {buckets : Nat} {config : Config} {workers : Nat}
    {tr : List (Threads × (Nat × Action))} (hcreate : htableCreate buckets config = .ok t₀)
    (run : Run (fun s e s' => s.next P e = some s') (Threads.start t₀ workers) tr s)
    (hok : ∀ x ∈ tr, x.1.LinksFresh P x.2) :
    ∃ L, Kept P s L ∧ ∀ key, tr.countP (createsOk key) + s.returning key =
      tr.countP (takesOut P key) + L.count key := by
  induction run with
  | nil =>
    have hflat : (List.replicate buckets ([] : List Entry)).flatten = [] := by simp
    refine ⟨List.replicate buckets [], ⟨stored_create hcreate, ?_⟩, fun key => ?_⟩
    · rw [hflat]
      unfold htableCreate at hcreate
      split at hcreate
      · cases hcreate
        rfl
      · cases hcreate
    · have hidle : (Threads.start t₀ workers).returning key = 0 :=
        List.count_eq_zero.mpr fun hmem => by cases List.eq_of_mem_replicate hmem
      rw [hidle, Contents.count, hflat]
      rfl
  | snoc run hnext ih =>
    rename_i tr s s' e
    obtain ⟨L, hkept, hbalance⟩ := ih fun x hx => hok x (List.mem_append_left _ hx)
    have hlast : s.LinksFresh P e := hok (s, e) (List.mem_append_right _ (List.mem_singleton.mpr rfl))
    obtain ⟨L', hgoes⟩ := hkept.next hlast hnext
    refine ⟨L', hgoes.kept, fun key => ?_⟩
    have hbefore := hbalance key
    have hstep := hgoes.balance key
    have hsingle : ∀ (p : Threads × (Nat × Action) → Bool) x, [x].countP p = (p x).toNat := by
      intro p x
      cases hx : p x <;> simp [hx]
    rw [List.countP_append, List.countP_append, hsingle, hsingle]
    omega

/-- In every run in which an item is linked only in front of the head that was read for it, and only
when no file has its key, no key is linked twice, no two of several creates of a key succeed, and no
item is lost. -/
theorem creates_sound {buckets : Nat} {config : Config} {workers : Nat}
    {tr : List (Threads × (Nat × Action))} (run : Runs P buckets config workers tr s)
    (hok : ∀ x ∈ tr, x.1.LinksFresh P x.2) : CreatesSound P tr s := by
  obtain ⟨t₀, hcreate, run⟩ := run
  obtain ⟨L, hkept, hbalance⟩ := kept_of_run hcreate run hok
  refine ⟨?_, fun key => ?_, fun a item hread => hkept.reachable hread⟩
  · rw [hkept.stored.linkedFiles_eq, List.map_map]
    exact hkept.stored.keys
  · have hle := List.nodup_iff_count_le_one.mp hkept.stored.keys key
    have hkey := hbalance key
    rw [Contents.count] at hkey
    omega

/-- `LinksFresh` as a test. -/
def linksFresh (P : Platform) (s : Threads) (e : Nat × Action) : Bool :=
  match e.2, s.phases[e.1]? with
  | .link, some (.filled key _ _ head) => (htableFetchFile P s.table key).any Option.isNone &&
      (s.table.bucket (htableBucketPtr P s.table key)).any fun bucket => bucket.head = head
  | _, _ => true

theorem linksFresh_of_test {e : Nat × Action} (h : s.linksFresh P e = true) : s.LinksFresh P e := by
  obtain ⟨i, action⟩ := e
  rintro rfl key fd withLock head hp
  simp only [linksFresh, hp, Bool.and_eq_true] at h
  obtain ⟨file, hfile, hnone⟩ := Exec.any_eq_true.mp h.1
  rw [Option.isNone_iff_eq_none] at hnone
  obtain ⟨bucket, hbucket, hhead⟩ := Exec.any_eq_true.mp h.2
  refine ⟨hnone ▸ hfile, fun bucket' hbucket' => ?_⟩
  rw [hbucket] at hbucket'
  obtain rfl := Except.ok.inj hbucket'
  exact of_decide_eq_true hhead

/-- What a thread does to create `a`. -/
def createA (i : Nat) : List (Nat × Action) :=
  [(i, .start (.create (bufToStr [97]) 3 false)), (i, .fill), (i, .link), (i, .count)]

/-- One thread creates `a`, another removes it, and a third creates it again. -/
theorem creates_sound_again :
    ∃ tr s, Runs samplePlatform 1 ⟨10, 10, .segmentedFifo⟩ 3 tr s ∧
      tr.countP (createsOk (bufToStr [97])) = 2 ∧ CreatesSound samplePlatform tr s := by
  obtain ⟨tr, s, run, htest⟩ := runs_of_actions samplePlatform 1 ⟨10, 10, .segmentedFifo⟩ 3
    (createA 0 ++ [(1, .start (.remove (bufToStr [97]) 3)), (1, .count)] ++ createA 2)
    (fun tr _ => tr.countP (createsOk (bufToStr [97])) == 2 &&
      tr.all fun x => x.1.linksFresh samplePlatform x.2) (by decide +kernel)
  rw [Bool.and_eq_true, beq_iff_eq, List.all_eq_true] at htest
  exact ⟨tr, s, run, htest.1, creates_sound run fun x hx => linksFresh_of_test (htest.2 x hx)⟩

/-- Two threads look `a` up, both find no such file, and both create it. -/
theorem both_create :
    ¬∀ (P : Platform) (buckets : Nat) (config : Config) (workers : Nat)
      (tr : List (Threads × (Nat × Action))) (s : Threads),
      Runs P buckets config workers tr s → CreatesSound P tr s := by
  intro hclaim
  obtain ⟨tr, s, run, htest⟩ := runs_of_actions samplePlatform 1 ⟨10, 10, .segmentedFifo⟩ 2
    [(0, .start (.create (bufToStr [97]) 3 false)), (1, .start (.create (bufToStr [97]) 4 false)),
      (0, .fill), (1, .fill), (0, .link), (1, .link), (0, .count), (1, .count)]
    (fun tr _ => tr.countP (createsOk (bufToStr [97])) == 2 &&
      tr.countP (takesOut samplePlatform (bufToStr [97])) == 0) (by decide +kernel)
  rw [Bool.and_eq_true, beq_iff_eq, beq_iff_eq] at htest
  have honce := (hclaim _ _ _ _ _ _ run).once (bufToStr [97])
  rw [htest.1, htest.2] at honce
  omega

end Threads

end FileStorage.Server
