import FileStorage.Server.BucketLists
import FileStorage.Server.GuardRelease

/-!
# Visitor — what a visit of the table returns

The visitor moves on before it returns a file and gives up at the end of the bucket it is in.  The
first item of bucket 0 is skipped, and no bucket is visited behind the first that holds an item.
-/

namespace FileStorage.Server

open Memory

/-! ## 1. What the claim is about -/

/-- The values that calls of `next` return, up to the first `NULL`. -/
inductive Yields {σ α : Type} (next : σ → Exec (Option α × σ)) : σ → List α → Prop
  | nil {s s' : σ} (hnext : next s = .ok (none, s')) : Yields next s []
  | cons {s s' : σ} {x : α} {xs : List α} (hnext : next s = .ok (some x, s'))
      (rest : Yields next s' xs) : Yields next s (x :: xs)

/-- Nothing else is returned. -/
theorem Yields.unique {σ α : Type} {next : σ → Exec (Option α × σ)} {s : σ} {xs ys : List α}
    (h : Yields next s xs) (h' : Yields next s ys) : xs = ys := by
  induction h generalizing ys with
  | nil hnext =>
    cases h' with
    | nil hnext' => rfl
    | cons hnext' rest =>
      rw [hnext] at hnext'
      cases hnext'
  | cons hnext rest ih =>
    cases h' with
    | nil hnext' =>
      rw [hnext] at hnext'
      cases hnext'
    | cons hnext' rest' =>
      rw [hnext] at hnext'
      cases hnext'
      rw [ih rest']

/-- A visit of at most `n` files, of all files when `n` is zero. -/
structure Visited (t : HTable) (n : Nat) (files : List File) : Prop where
  distinct : files.Nodup
  stored : ∀ f ∈ files, f ∈ t.linkedFiles
  number : files.length = if n = 0 then t.linkedFiles.length else min n t.linkedFiles.length

/-! ## 2. The visitor in a bucket -/

/-- What is left of `files` for a visitor that has made this many visits. -/
def budget (maxVisits visits : Nat) (files : List File) : List File :=
  if maxVisits = 0 then files else files.take (maxVisits - visits)

theorem budget_nil (maxVisits visits : Nat) : budget maxVisits visits [] = [] := by
  rw [budget, List.take_nil, ite_self]

variable {P : Platform} {t : HTable} {L : Contents} {v : HTableVisitor} {i : Nat}

theorem budget_done (h : v.done) (files : List File) : budget v.maxVisits v.visits files = [] := by
  rw [budget, if_neg h.2, Nat.sub_eq_zero_of_le h.1, List.take_zero]

/-- A file more was returned.  Without a limit it does not matter that the number of visits may
wrap. -/
theorem budget_cons (h : ¬v.done) (hmax : v.maxVisits < unsignedSize) (file : File)
    (files : List File) : budget v.maxVisits v.visits (file :: files) =
      file :: budget v.maxVisits ((v.visits + 1) % unsignedSize) files := by
  by_cases hzero : v.maxVisits = 0
  · rw [budget, budget, if_pos hzero, if_pos hzero]
  · have hlt : v.visits < v.maxVisits := Nat.lt_of_not_le fun hle => h ⟨hle, hzero⟩
    have hone : v.maxVisits - v.visits = v.maxVisits - (v.visits + 1) + 1 := by omega
    rw [budget, budget, if_neg hzero, if_neg hzero, Nat.mod_eq_of_lt (by omega), hone,
      List.take_succ_cons]

/-- Every one of these steps is made. -/
theorem VisitorStep.next_eq {file : Option File} {v' : HTableVisitor} (h : VisitorStep t v file v') :
    htableVisitorNext t v = .ok (file, v') := by
  cases h with
  | finished hdone => exact if_pos hdone
  | within hmore hnext hread hbehind hread' =>
    have hmore' : ¬(v.visits ≥ v.maxVisits ∧ v.maxVisits ≠ 0) := hmore
    rw [htableVisitorNext, if_neg hmore']
    simp only [hnext, Heap.load_of_read hread, hbehind, Heap.load_of_read hread', Exec.ok_bind]
    rfl
  | behindLast hmore hnext hread hbehind =>
    have hmore' : ¬(v.visits ≥ v.maxVisits ∧ v.maxVisits ≠ 0) := hmore
    rw [htableVisitorNext, if_neg hmore']
    simp only [hnext, Heap.load_of_read hread, hbehind, Exec.ok_bind]
    rfl
  | nextBucket hmore hnext hbuckets hread =>
    have hmore' : ¬(v.visits ≥ v.maxVisits ∧ v.maxVisits ≠ 0) := hmore
    rw [htableVisitorNext, if_neg hmore']
    simp only [hnext, hbuckets, Heap.load_of_read hread, Exec.ok_bind]
    rfl
  | noBucket hmore hnext hbuckets =>
    have hmore' : ¬(v.visits ≥ v.maxVisits ∧ v.maxVisits ≠ 0) := hmore
    rw [htableVisitorNext, if_neg hmore']
    simp only [hnext, hbuckets, Exec.ok_bind]
    rfl

/-- Standing at the first of these items, the visitor returns the files of the others. -/
theorem yields_within (l : List Entry) : ∀ (v : HTableVisitor) (e : Entry), v.next = some e.1 →
    Path (t.items.field HTableItem.next) (some e.1) ((e :: l).map Prod.fst) none →
      (∀ x ∈ e :: l, t.items.field HTableItem.file x.1 = some x.2) → v.maxVisits < unsignedSize →
        Yields (htableVisitorNext t) v (budget v.maxVisits v.visits (l.map Prod.snd)) := by
  induction l with
  | nil =>
    intro v e hnext hpath hfiles hmax
    rw [List.map_nil, budget_nil]
    by_cases hdone : v.done
    · exact .nil (VisitorStep.finished hdone).next_eq
    · obtain ⟨item, hread, -⟩ := Heap.field_eq_some (hfiles e List.mem_cons_self)
      have hlink := hpath.link_head
      rw [Heap.field_eq_of_read hread] at hlink
      have hbehind : item.next = none := Option.some.inj hlink
      exact .nil (VisitorStep.behindLast hdone hnext hread hbehind).next_eq
  | cons e' l ih =>
    intro v e hnext hpath hfiles hmax
    by_cases hdone : v.done
    · rw [budget_done hdone]
      exact .nil (VisitorStep.finished hdone).next_eq
    · obtain ⟨item, hread, -⟩ := Heap.field_eq_some (hfiles e List.mem_cons_self)
      obtain ⟨item', hread', hfile⟩ := Heap.field_eq_some
        (hfiles e' (List.mem_cons_of_mem _ List.mem_cons_self))
      have hlink := hpath.link_head
      rw [Heap.field_eq_of_read hread] at hlink
      have hbehind : item.next = some e'.1 := Option.some.inj hlink
      obtain ⟨-, n, hn, hrest⟩ := hpath
      obtain rfl : n = some e'.1 := hrest.1
      rw [List.map_cons, budget_cons hdone hmax, ← hfile]
      refine .cons (VisitorStep.within hdone hnext hread hbehind hread').next_eq ?_
      exact ih (v.moveTo v.bucketI (some e'.1)) e' rfl hrest
        (fun x hx => hfiles x (List.mem_cons_of_mem _ hx)) hmax

/-! ## 3. The whole visit -/

/-- The search for a bucket ends. -/
theorem visitorBuckets_returns {fuel : Nat} (hi : i < t.buckets.length)
    (hfuel : t.buckets.length ≤ fuel + i) : ∃ p, visitorBuckets t fuel i = .ok p := by
  induction fuel generalizing i with
  | zero => omega
  | succ fuel ih =>
    unfold visitorBuckets
    split
    · exact ⟨_, rfl⟩
    · have hlt : i + 1 < t.buckets.length := by omega
      rw [HTable.bucket, List.getElem?_eq_getElem hlt, Exec.ok_bind]
      cases t.buckets[i + 1].head with
      | none => exact ih hlt (by omega)
      | some a => exact ⟨_, rfl⟩

/-- A bucket that is not empty, seen from its head. -/
theorem Linked.bucket_cons (h : Linked P t L) {b : HTableBucket} (hb : t.buckets[i]? = some b)
    {a : Addr} (ha : b.head = some a) : ∃ e l, L[i]? = some (e :: l) ∧ e.1 = a ∧
      t.bucketFiles b = e.2 :: l.map Prod.snd ∧
      Path (t.items.field HTableItem.next) (some e.1) ((e :: l).map Prod.fst) none ∧
      ∀ x ∈ e :: l, t.items.field HTableItem.file x.1 = some x.2 := by
  obtain ⟨l, hl, hlinks⟩ := h.contents_of_bucket hb
  have hfiles := h.bucketFiles_eq hb hl
  have hpath := hlinks.dlist.fwd
  rw [ha] at hpath
  cases l with
  | nil => cases hpath
  | cons e l =>
    obtain rfl : a = e.1 := Option.some.inj hpath.1
    exact ⟨e, l, hl, rfl, hfiles, hpath, hlinks.files⟩

/-- The visitor returns what its budget allows of the files that it comes to. -/
theorem Linked.visit (h : Linked P t L) (n : UInt32) : ∃ visitor, htableVisit t n.toNat = .ok visitor ∧
    Yields (htableVisitorNext t) visitor (budget n.toNat 0 t.reachedFiles) := by
  have hn : n.toNat < unsignedSize := n.toNat_lt
  obtain ⟨b, bs, hbuckets⟩ : ∃ b bs, t.buckets = b :: bs :=
    List.exists_cons_of_length_pos (h.length ▸ h.pos)
  have hzero : t.buckets[0]? = some b := by rw [hbuckets]; rfl
  have hvisit : htableVisit t n.toNat = .ok ⟨n.toNat, 0, 0, b.head⟩ := by
    rw [htableVisit, HTable.bucket, hzero, Exec.ok_bind, Nat.mod_eq_of_lt hn]
    rfl
  refine ⟨_, hvisit, ?_⟩
  cases hhead : b.head with
  | some a =>
    -- bucket 0 is not empty
    obtain ⟨e, l, -, rfl, hfiles, hpath, hread⟩ := h.bucket_cons hzero hhead
    have hreached : t.reachedFiles = l.map Prod.snd := by
      simp only [HTable.reachedFiles, hbuckets, hhead, Option.isSome_some, if_true, hfiles,
        List.tail_cons]
    rw [hreached]
    exact yields_within l ⟨n.toNat, 0, 0, some e.1⟩ e rfl hpath hread hn
  | none =>
    have hmore : ¬HTableVisitor.done ⟨n.toNat, 0, 0, none⟩ := fun hdone =>
      hdone.2 (Nat.le_zero.mp hdone.1)
    obtain ⟨p, hp⟩ : ∃ p, visitorBuckets t t.buckets.length 0 = .ok p :=
      visitorBuckets_returns (List.getElem?_eq_some_iff.mp hzero).1 (Nat.le_refl _)
    have hfind := visitorBuckets_ok hp
    rw [hbuckets, List.drop_one, List.tail_cons] at hfind
    cases p with
    | none =>
      -- no bucket holds an item
      have hreached : t.reachedFiles = [] := by
        simp only [HTable.reachedFiles, hbuckets, hhead, Option.map_eq_none_iff.mp hfind.symm,
          Option.map_none, Option.getD_none]
        rfl
      rw [hreached, budget_nil]
      exact .nil (VisitorStep.noBucket hmore rfl hp).next_eq
    | some p =>
      obtain ⟨j, a⟩ := p
      obtain ⟨b', hb', ha⟩ := Option.map_eq_some_iff.mp hfind.symm
      have hmem : b' ∈ t.buckets := by
        rw [hbuckets]
        exact List.mem_cons_of_mem _ (List.mem_of_find?_eq_some hb')
      obtain ⟨k, hk⟩ := List.mem_iff_getElem?.mp hmem
      obtain ⟨e, l, -, rfl, hfiles, hpath, hread⟩ := h.bucket_cons hk ha
      have hreached : t.reachedFiles = e.2 :: l.map Prod.snd := by
        simp only [HTable.reachedFiles, hbuckets, hhead, hb', Option.map_some, Option.getD_some, hfiles]
        rfl
      obtain ⟨item, hitem, hfile⟩ := Heap.field_eq_some (hread e List.mem_cons_self)
      rw [hreached, ← hfile, budget_cons (v := ⟨n.toNat, 0, 0, none⟩) hmore hn]
      refine .cons (VisitorStep.nextBucket hmore rfl hp hitem).next_eq ?_
      exact yields_within l (HTableVisitor.moveTo ⟨n.toNat, 0, 0, none⟩ j (some e.1)) e rfl hpath hread hn

/-- No file is reached twice. -/
theorem Linked.reachedFiles_sublist (h : Linked P t L) : t.reachedFiles.Sublist t.linkedFiles := by
  obtain ⟨b, bs, hbuckets⟩ : ∃ b bs, t.buckets = b :: bs :=
    List.exists_cons_of_length_pos (h.length ▸ h.pos)
  have hbucket : ∀ b' ∈ t.buckets, (t.bucketFiles b').Sublist t.linkedFiles := by
    intro b' hb'
    obtain ⟨i, hi⟩ := List.mem_iff_getElem?.mp hb'
    obtain ⟨l, hl, -⟩ := h.contents_of_bucket hi
    rw [h.bucketFiles_eq hi hl, h.linkedFiles_eq]
    exact (List.sublist_flatten_of_mem (List.mem_of_getElem? hl)).map _
  simp only [HTable.reachedFiles, hbuckets]
  split
  · exact (List.tail_sublist _).trans (hbucket b (by rw [hbuckets]; exact List.mem_cons_self))
  · cases hfind : bs.find? (·.head.isSome) with
    | none => exact List.nil_sublist _
    | some b' =>
      refine hbucket b' ?_
      rw [hbuckets]
      exact List.mem_cons_of_mem _ (List.mem_of_find?_eq_some hfind)

/-- The visit returns what it should exactly when it comes to all files of the table, or to as many
as it was asked for. -/
theorem visit_complete_iff (h : Stored P t L) (n : UInt32) :
    ∃ visitor files, htableVisit t n.toNat = .ok visitor ∧
      Yields (htableVisitorNext t) visitor files ∧
      (Visited t n.toNat files ↔ t.reachedFiles.length = t.linkedFiles.length ∨
        n ≠ 0 ∧ n.toNat ≤ t.reachedFiles.length) := by
  obtain ⟨visitor, hvisit, hyields⟩ := h.toLinked.visit n
  refine ⟨visitor, _, hvisit, hyields, ?_⟩
  have hsub := h.toLinked.reachedFiles_sublist
  have hle := hsub.length_le
  have hzero : n = 0 ↔ n.toNat = 0 := UInt32.toNat_inj.symm
  have hbudget : (budget n.toNat 0 t.reachedFiles).Sublist t.linkedFiles := by
    unfold budget
    split
    · exact hsub
    · exact (List.take_sublist _ _).trans hsub
  have hlength : (budget n.toNat 0 t.reachedFiles).length =
      if n.toNat = 0 then t.reachedFiles.length else min n.toNat t.reachedFiles.length := by
    unfold budget
    split
    · rfl
    · rw [List.length_take, Nat.sub_zero]
  have hnumber : (budget n.toNat 0 t.reachedFiles).length =
      (if n.toNat = 0 then t.linkedFiles.length else min n.toNat t.linkedFiles.length) ↔
        t.reachedFiles.length = t.linkedFiles.length ∨ n ≠ 0 ∧ n.toNat ≤ t.reachedFiles.length := by
    rw [hlength, ne_eq, hzero]
    split <;> omega
  rw [← hnumber]
  constructor
  · intro hvisited
    exact hvisited.number
  · intro hnumber
    exact ⟨(h.linkedKeys_nodup.of_map _).sublist hbudget, fun f hf => hbudget.subset hf, hnumber⟩

/-- Both files of a table are in bucket 1, and bucket 0 is empty. -/
theorem visit_complete_of_one_bucket :
    ∃ tr t visitor files, SequentialRun samplePlatform 2 ⟨10, 10, .fifo⟩ tr t ∧
      t.linkedFiles.length = 2 ∧ htableVisit t 0 = .ok visitor ∧
      Yields (htableVisitorNext t) visitor files ∧ Visited t 0 files := by
  obtain ⟨tr, t, run, htest⟩ := SequentialRun.of_run_test samplePlatform 2 ⟨10, 10, .fifo⟩
    [⟨.create (bufToStr [97]) 3 false, []⟩, ⟨.create (bufToStr [98]) 3 false, []⟩]
    (fun _ t => t.linkedFiles.length == 2 && t.reachedFiles.length == 2) (by decide +kernel)
  rw [Bool.and_eq_true, beq_iff_eq, beq_iff_eq] at htest
  obtain ⟨L, h⟩ := run.stored
  obtain ⟨visitor, files, hvisit, hyields, hiff⟩ := visit_complete_iff h 0
  exact ⟨tr, t, visitor, files, run, htest.1, hvisit, hyields,
    hiff.mpr (Or.inl (htest.2.trans htest.1.symm))⟩

/-- The only file is the first item of bucket 0, which is skipped. -/
theorem visit_skips_file :
    ¬∀ (P : Platform) (buckets : Nat) (config : Config) (tr : List (HTable × Call)) (t : HTable),
      SequentialRun P buckets config tr t → ∀ (n : UInt32) (visitor : HTableVisitor)
        (files : List File), htableVisit t n.toNat = .ok visitor →
          Yields (htableVisitorNext t) visitor files → Visited t n.toNat files := by
  intro hclaim
  obtain ⟨tr, t, run, htest⟩ := SequentialRun.of_run_test samplePlatform 1 ⟨10, 10, .fifo⟩
    [⟨.create (bufToStr [97]) 3 false, []⟩]
    (fun _ t => t.linkedFiles.length == 1 && t.reachedFiles.length == 0) (by decide +kernel)
  rw [Bool.and_eq_true, beq_iff_eq, beq_iff_eq] at htest
  obtain ⟨L, h⟩ := run.stored
  obtain ⟨visitor, hvisit, hyields⟩ := h.toLinked.visit 0
  have hnumber : t.reachedFiles.length = t.linkedFiles.length :=
    (hclaim _ _ _ _ _ run 0 visitor _ hvisit hyields).number
  rw [htest.1, htest.2] at hnumber
  cases hnumber

end FileStorage.Server
