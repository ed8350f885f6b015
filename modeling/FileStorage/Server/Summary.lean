import FileStorage.Server.Visitor

/-!
# Summary — what the server prints when it ends

The largest numbers of files and of bytes and the number of evictions are kept in the table while it
is used; `print_summary` prints them and then the files that a visit of the table comes to.  The
visit takes the guards of the buckets that it looks at, and waits for ever at one that a finished
request has left locked.
-/

namespace FileStorage.Server

open Memory

/-! ## 1. The code -/

/-- The lines of `print_summary`, with what goes into their formats. -/
inductive SummaryLine where
  | maxFilesStored (n : Nat)      -- "Max. files stored: %lu\n"
  | maxSpaceInBytes (n : Nat)     -- "Max. space in bytes: %lu\n"
  | numOfEvictions (n : Nat)      -- "Num. of evictions: %lu\n"
  | currentSpace (n : Nat)        -- "Current space in bytes: %lu\n"
  | currentContents (n : Nat)     -- "Current contents of the file storage server: %lu\n"
  | separator                     -- "================\n"
  | size (i n : Nat)              -- "- %lu (size): %lu\n"
  | path (i : Nat) (key : CStr)   -- "  %lu (path): %s\n"
deriving DecidableEq

/-- What has been printed so far stands beside the mutexes. -/
abbrev Printing (α : Type) := Locking Guard (List SummaryLine) α

def printf (line : SummaryLine) : Printing Unit :=
  modify fun s => { s with rest := s.rest ++ [line] }

/-- Every round of the loop comes to another item, so `fuel` never runs out first. -/
def summaryLoop (t : HTable) : Nat → Nat → Option File → HTableVisitor → Printing Unit
  | _, _, none, _ => return ()
  | 0, _, some _, _ => throw .diverge
  | fuel + 1, i, some currentFile, visitor => do
      printf (.size i currentFile.lengthInBytes)
      printf (.path i currentFile.key)
      let (currentFile, visitor) ← Guarded.htableVisitorNext t visitor
      summaryLoop t fuel (i + 1) currentFile visitor

def printSummary (t : HTable) : Printing Unit := do
  printf (.maxFilesStored t.stats.historicalMaxItemsCount)
  printf (.maxSpaceInBytes t.stats.historicalMaxSpaceInBytes)
  printf (.numOfEvictions t.stats.historicalNumEvictions)
  printf (.currentSpace t.stats.totalSpaceInBytes)
  printf (.currentContents t.stats.itemsCount)
  -- a worker that ended in a visit may have left the guard of a bucket locked
  let visitor ← Guarded.htableVisit t 0
  let (currentFile, visitor) ← Guarded.htableVisitorNext t visitor
  printf .separator
  summaryLoop t (t.items.live + 1) 1 currentFile visitor

/-! ## 2. The history of a run -/

/-- The largest of these numbers. -/
def most (l : List Nat) : Nat := l.foldl max 0

/-- The files that a call evicted. -/
def evictedBy (P : Platform) (x : HTable × Call) : List File :=
  match x.2.op.exec P x.1 x.2.rands with
  | .ok (out, _) => out.evicted
  | .error _ => []

/-- The bytes in the table when a call has written and not yet evicted anything. -/
def peak (P : Platform) (x : HTable × Call) : Nat :=
  match x.2.op.exec P x.1 x.2.rands with
  | .ok (out, t) => t.linkedBytes + (out.evicted.map File.lengthInBytes).sum
  | .error _ => 0

def fileLines (i : Nat) : List File → List SummaryLine
  | [] => []
  | file :: files => .size i file.lengthInBytes :: .path i file.key :: fileLines (i + 1) files

theorem most_snoc (l : List Nat) (n : Nat) : most (l ++ [n]) = max (most l) n := by
  rw [most, List.foldl_append]
  rfl

/-- The three numbers that are kept. -/
def HTableStats.history (s : HTableStats) : Nat × Nat × Nat :=
  (s.historicalMaxItemsCount, s.historicalMaxSpaceInBytes, s.historicalNumEvictions)

namespace HTableStats

variable (s : HTableStats) (n : Nat)

@[simp] theorem incItems_history : s.incItems.history = s.history := rfl

@[simp] theorem decItems_history : s.decItems.history = s.history := rfl

@[simp] theorem addSpace_history : (s.addSpace n).history = s.history := rfl

@[simp] theorem subSpace_history : (s.subSpace n).history = s.history := rfl

@[simp] theorem incOpen_history : s.incOpen.history = s.history := rfl

@[simp] theorem decOpen_history : s.decOpen.history = s.history := rfl

@[simp] theorem incEvictions_history : s.incEvictions.history =
    (s.historicalMaxItemsCount, s.historicalMaxSpaceInBytes, wadd s.historicalNumEvictions 1) := rfl

theorem raiseMaxItems_history : s.raiseMaxItems.history =
    (max s.historicalMaxItemsCount s.itemsCount, s.historicalMaxSpaceInBytes,
      s.historicalNumEvictions) := by
  unfold raiseMaxItems
  by_cases hmore : s.itemsCount > s.historicalMaxItemsCount
  · rw [if_pos hmore, Nat.max_eq_right (Nat.le_of_lt hmore)]
    rfl
  · rw [if_neg hmore, Nat.max_eq_left (Nat.le_of_not_lt hmore)]
    rfl

theorem raiseMaxSpace_history : s.raiseMaxSpace.history =
    (s.historicalMaxItemsCount, max s.historicalMaxSpaceInBytes s.totalSpaceInBytes,
      s.historicalNumEvictions) := by
  unfold raiseMaxSpace
  by_cases hmore : s.totalSpaceInBytes > s.historicalMaxSpaceInBytes
  · rw [if_pos hmore, Nat.max_eq_right (Nat.le_of_lt hmore)]
    rfl
  · rw [if_neg hmore, Nat.max_eq_left (Nat.le_of_not_lt hmore)]
    rfl

end HTableStats

theorem evictStats_history (s : HTableStats) (f : File) : (evictStats s f).history =
    (s.historicalMaxItemsCount, s.historicalMaxSpaceInBytes, wadd s.historicalNumEvictions 1) := by
  unfold evictStats
  cases f.isOpen <;> rfl

/-- What is kept while the table holds the entries `l`, after `n` evictions. -/
structure Remembered (s : HTableStats) (l : List Entry) (items space n : Nat) : Prop where
  history : s.history = (items, space, n % wordSize)
  length_le : l.length ≤ items
  bytes_le : bytesOf l ≤ space

theorem Remembered.congr {s s' : HTableStats} {l l' : List Entry} {items space n : Nat}
    (h : Remembered s l items space n) (hhistory : s'.history = s.history)
    (hlength : l'.length ≤ l.length) (hbytes : bytesOf l' ≤ bytesOf l) :
    Remembered s' l' items space n :=
  ⟨hhistory.trans h.history, hlength.trans h.length_le, hbytes.trans h.bytes_le⟩

/-! ## 3. One operation -/

/-- An eviction is counted, and lowers what is stored. -/
theorem Evictions.remembered {P : Platform} {t t' : HTable} {L L' : Contents} {evicted : List File}
    (h : Evictions P t L evicted t' L') (hs : Stored P t L) {items space n : Nat}
    (hr : Remembered t.stats L.flatten items space n) :
    Remembered t'.stats L'.flatten items space (n + evicted.length) ∧
      bytesOf L'.flatten + (evicted.map File.lengthInBytes).sum = bytesOf L.flatten := by
  induction h generalizing n with
  | done hlimits => exact ⟨hr, rfl⟩
  | @round t t₁ t' L L' a f evicted hlimits hev rest ih =>
    have hlength := hs.drop_length hev.mem
    have hbytes := hs.drop_bytes hev.mem
    have hbefore := hr.history
    have hround : Remembered t₁.stats (L.drop a).flatten items space (n + 1) := by
      have hlengthLe := hr.length_le
      have hbytesLe := hr.bytes_le
      refine ⟨?_, by omega, by omega⟩
      simp only [HTableStats.history, Prod.mk.injEq] at hbefore
      rw [hev.stats, evictStats_history, hbefore.1, hbefore.2.1, hbefore.2.2, wadd,
        Nat.mod_add_mod]
    obtain ⟨hrest, hsum⟩ := ih (hs.drop hev.mem hev.linked hev.live) hround
    have hcount : n + (f :: evicted).length = n + 1 + evicted.length := by
      rw [List.length_cons]
      omega
    rw [List.map_cons, List.sum_cons, hcount]
    exact ⟨hrest, by omega⟩

namespace Effect

variable {P : Platform} {t t' : HTable} {L L' : Contents} {op : Op} {out : Outcome}
  {items space n : Nat}

/-- The sections of a write look at the bytes before anything is evicted. -/
theorem remembered_written (hs : Stored P t L) (hc : Counted True t.stats L.flatten)
    (hr : Remembered t.stats L.flatten items space n) (hop : op.writes) {a : Addr} {f f' : File}
    (hlook : lookup L op.key = some (a, f)) (hverdict : op.verdict (some f) = .put .ok (-1) f')
    (hsize : bytesOf L.flatten + op.size < wordSize) :
    Remembered (op.writeStats f t.stats) (L.setFile a f').flatten items
      (max space (bytesOf (L.setFile a f').flatten)) n := by
  have hwritten := counted_written hs hc hop hlook hverdict fun _ => hsize
  have hspace := hwritten.space
  rw [Nat.mod_eq_of_lt (hwritten.unwrapped trivial).1] at hspace
  have hlength := Linked.setFile_length (L := L) (a := a) f'
  refine ⟨?_, by rw [hlength]; exact hr.length_le, Nat.le_max_right _ _⟩
  have hbefore := hr.history
  simp only [HTableStats.history, Prod.mk.injEq] at hbefore
  rw [← hspace]
  cases op with
  | create | «open» | close | lock | unlock | remove => cases hop
  | replace key contents | append key contents =>
    simp only [Op.writeStats, HTableStats.raiseMaxSpace_history,
      HTableStats.raiseMaxSpace_counts, Prod.mk.injEq]
    exact ⟨hbefore.1, by rw [← hbefore.2.1]; rfl, hbefore.2.2⟩

/-- The largest numbers so far take this operation in. -/
theorem remembered (h : Effect P t L op out t' L') (hs : Stored P t L)
    (hc : Counted True t.stats L.flatten) (hr : Remembered t.stats L.flatten items space n)
    (hsize : bytesOf L.flatten + op.size < wordSize) :
    Remembered t'.stats L'.flatten (max items L'.flatten.length)
      (max space (bytesOf L'.flatten + (out.evicted.map File.lengthInBytes).sum))
      (n + out.evicted.length) := by
  have hc' := h.counted hs hc fun _ => hsize
  have hlengthLe := hr.length_le
  have hbytesLe := hr.bytes_le
  -- where nothing grows, the largest numbers stay what they are
  have hkept : t'.stats.history = t.stats.history → L'.flatten.length ≤ L.flatten.length →
      bytesOf L'.flatten ≤ bytesOf L.flatten → out.evicted = [] →
        Remembered t'.stats L'.flatten (max items L'.flatten.length)
          (max space (bytesOf L'.flatten + (out.evicted.map File.lengthInBytes).sum))
          (n + out.evicted.length) := by
    intro hhistory hlength hbytes hnone
    rw [hnone, List.map_nil, List.sum_nil, Nat.add_zero, List.length_nil, Nat.add_zero,
      Nat.max_eq_left (hlength.trans hlengthLe), Nat.max_eq_left (hbytes.trans hbytesLe)]
    exact hr.congr hhistory hlength hbytes
  cases h with
  | refused hverdict => exact hkept rfl (Nat.le_refl _) (Nat.le_refl _) rfl
  | @touched op code newOwner a f f' hop hlook hverdict =>
    have hlen := (Op.verdict_put_contents hop hverdict).2
    have hbytes := hs.setFile_bytes (mem_of_lookup hlook) f'
    have hlength := Linked.setFile_length (L := L) (a := a) f'
    refine hkept ?_ (Nat.le_of_eq hlength) (by omega) rfl
    cases op with
    | create | remove | replace | append => cases hop
    | «open» | close | lock | unlock => rfl
  | @created key fd withLock t₁ t' hlook hlinked hsame hlive hroom hstats =>
    have hstats' := (createStatsSection_ok hstats).2.1
    -- the new file is empty
    have hbytes : bytesOf (L.push (P.xxh64 key % L.length)
        (t.items.fresh, newFile key fd withLock)).flatten = bytesOf L.flatten := by
      have hperm := bytesOf_perm (hs.push_perm (t.items.fresh, newFile key fd withLock))
      rw [bytesOf_cons] at hperm
      simpa [newFile] using hperm
    have hitems := hc'.items
    have hbefore := hr.history
    simp only [HTableStats.history, Prod.mk.injEq] at hbefore
    rw [hstats', hsame.stats, (HTableStats.raiseMaxItems_counts _).1] at hitems
    rw [hbytes, List.map_nil, List.sum_nil, Nat.add_zero, Nat.max_eq_left hbytesLe]
    refine ⟨?_, Nat.le_max_right _ _, hbytes ▸ hbytesLe⟩
    rw [hstats', hsame.stats, HTableStats.raiseMaxItems_history, hitems]
    exact Prod.ext (congrArg (max · _) hbefore.1) (Prod.ext hbefore.2.1 hbefore.2.2)
  | removed hlook hallowed hremoved =>
    have hmem := mem_of_lookup hlook
    have hlength := hs.drop_length hmem
    have hbytes := hs.drop_bytes hmem
    refine hkept ?_ (by omega) (by omega) rfl
    simp only [removeStatsSection, hremoved.same.stats]
    rfl
  | wrote hop hlook hverdict hsize' hev =>
    have hwritten := remembered_written hs hc hr hop hlook hverdict hsize
    obtain ⟨hend, hsum⟩ := hev.remembered (stored_written hs hop hlook hverdict hsize') hwritten
    rw [hsum]
    have hfewer : L'.flatten.length ≤ items := hend.length_le
    rw [Nat.max_eq_left hfewer]
    exact hend

end Effect

/-! ## 4. The mutexes -/

/-- The buckets from number `i` on, up to the first that holds a file. -/
def takenFrom (i : Nat) : List HTableBucket → List Nat
  | [] => []
  | b :: bs => i :: if b.head.isSome then [] else takenFrom (i + 1) bs

/-- The buckets whose guards a visit of all files takes. -/
def HTable.taken (t : HTable) : List Nat := takenFrom 0 t.buckets

/-- The search for a bucket comes through when no guard on its way is locked. -/
theorem visitorBuckets_emits {σ : Type} {t : HTable} {fuel i : Nat} {p : Option (Nat × Nat)}
    (hx : visitorBuckets t fuel i = .ok p) :
    ∃ events, Emits (Guarded.visitorBuckets t fuel i : Locking Guard σ _) events p ∧
      ∀ left, (heldAfter (.bucket i :: left) events).isSome ↔
        ∀ k ∈ takenFrom (i + 1) (t.buckets.drop (i + 1)), .bucket k ∉ left := by
  induction fuel generalizing i with
  | zero => cases hx
  | succ fuel ih =>
    unfold visitorBuckets at hx
    unfold Guarded.visitorBuckets
    split at hx
    · -- the last bucket was released
      rename_i hend
      cases hx
      refine ⟨[.unlock (.bucket i)] ++ [], Emits.bind (.unlock _) ?_, ?_⟩
      · rw [if_pos hend]
        exact .pure none
      · intro left
        rw [List.drop_eq_nil_of_le (by omega)]
        simp [heldAfter, takenFrom]
    · rename_i hmore
      obtain ⟨b, hb, hx⟩ := Exec.bind_eq_ok.mp hx
      have hget : t.buckets[i + 1]? = some b := by
        unfold HTable.bucket at hb
        split at hb
        · rename_i bucket hget
          cases hb
          exact hget
        · cases hb
      obtain ⟨hlt, hget⟩ := List.getElem?_eq_some_iff.mp hget
      rw [List.drop_eq_getElem_cons hlt, hget]
      cases hhead : b.head with
      | some a =>
        rw [hhead] at hx
        cases hx
        refine ⟨[.unlock (.bucket i)] ++ ([.lock (.bucket (i + 1))] ++ []), ?_, ?_⟩
        · refine Emits.bind (.unlock _) ?_
          rw [if_neg hmore]
          refine Emits.bind (.lock _) (Emits.lift_bind hb ?_)
          rw [hhead]
          exact .pure _
        · intro left
          rw [List.singleton_append, List.singleton_append, isSome_heldAfter_hop]
          simp [takenFrom, hhead, heldAfter]
      | none =>
        rw [hhead] at hx
        obtain ⟨events, hemits, hheld⟩ := ih hx
        refine ⟨[.unlock (.bucket i)] ++ ([.lock (.bucket (i + 1))] ++ events), ?_, ?_⟩
        · refine Emits.bind (.unlock _) ?_
          rw [if_neg hmore]
          refine Emits.bind (.lock _) (Emits.lift_bind hb ?_)
          rw [hhead]
          exact hemits
        · intro left
          rw [List.singleton_append, List.singleton_append, isSome_heldAfter_hop, hheld left]
          simp [takenFrom, hhead]

/-- Within a bucket nothing is taken or released. -/
theorem VisitorStep.emits {σ : Type} {t : HTable} {v v' : HTableVisitor} {file : Option File}
    (h : VisitorStep t v file v') (hat : v.next ≠ none) (hall : v.maxVisits = 0) :
    Emits (Guarded.htableVisitorNext t v : Locking Guard σ _) [] (file, v') := by
  have hmore' : ¬(v.visits ≥ v.maxVisits ∧ v.maxVisits ≠ 0) := fun hdone => hdone.2 hall
  unfold Guarded.htableVisitorNext
  rw [if_neg hmore']
  cases h with
  | finished hdone => exact absurd hall hdone.2
  | within hmore hnext hread hbehind hread' =>
    rw [hnext]
    refine Emits.lift_bind (Heap.load_of_read hread) ?_
    rw [hbehind]
    exact Emits.lift_bind (Heap.load_of_read hread') (.pure _)
  | behindLast hmore hnext hread hbehind =>
    rw [hnext]
    refine Emits.lift_bind (Heap.load_of_read hread) ?_
    rw [hbehind]
    exact .pure _
  | nextBucket hmore hnext hbuckets hread => exact absurd hnext hat
  | noBucket hmore hnext hbuckets => exact absurd hnext hat

theorem VisitorStep.maxVisits_eq {t : HTable} {v v' : HTableVisitor} {file : Option File}
    (h : VisitorStep t v file v') : v'.maxVisits = v.maxVisits := by
  cases h <;> rfl

/-- A visitor that has returned a file stands at its item. -/
theorem VisitorStep.next_ne_none {t : HTable} {v v' : HTableVisitor} {file : File}
    (h : VisitorStep t v (some file) v') : v'.next ≠ none := by
  cases h with
  | within hmore hnext hread hbehind hread' => exact Option.some_ne_none _
  | nextBucket hmore hnext hbuckets hread => exact Option.some_ne_none _

/-- The first file that a visit of all files returns, and the guards on the way to it. -/
theorem VisitorStep.emits_first {σ : Type} {t : HTable} {b : HTableBucket} {bs : List HTableBucket}
    {v' : HTableVisitor} {file : Option File} (hbuckets : t.buckets = b :: bs)
    (h : VisitorStep t ⟨0, 0, 0, b.head⟩ file v') :
    ∃ events, Emits (Guarded.htableVisitorNext t ⟨0, 0, 0, b.head⟩ : Locking Guard σ _) events
        (file, v') ∧
      ∀ left, (heldAfter left (.lock (.bucket 0) :: events)).isSome ↔
        ∀ i ∈ t.taken, .bucket i ∉ left := by
  -- from the lock on bucket 0 on
  have hlock : ∀ {events : List (MutexEvent Guard)} {ks : List Nat}, t.taken = 0 :: ks →
      (∀ left, (heldAfter (.bucket 0 :: left) events).isSome ↔ ∀ k ∈ ks, .bucket k ∉ left) →
        ∀ left, (heldAfter left (.lock (.bucket 0) :: events)).isSome ↔
          ∀ i ∈ t.taken, .bucket i ∉ left := by
    intro events ks htaken hrest left
    rw [htaken, List.forall_mem_cons, ← hrest left, heldAfter]
    by_cases hleft : Guard.bucket 0 ∈ left
    · simp [hleft]
    · simp [hleft]
  cases hhead : b.head with
  | some a =>
    rw [hhead] at h
    have htaken : t.taken = [0] := by
      rw [HTable.taken, hbuckets, takenFrom, hhead]
      rfl
    refine ⟨[], h.emits (Option.some_ne_none a) rfl, hlock htaken fun left => ?_⟩
    simp [heldAfter]
  | none =>
    rw [hhead] at h
    have htaken : t.taken = 0 :: takenFrom 1 (t.buckets.drop 1) := by
      rw [HTable.taken, hbuckets, takenFrom, hhead]
      rfl
    cases h with
    | finished hdone => exact absurd rfl hdone.2
    | within hmore hnext hread hbehind hread' => cases hnext
    | behindLast hmore hnext hread hbehind => cases hnext
    | nextBucket hmore hnext hfound hread =>
      obtain ⟨events, hemits, hheld⟩ := visitorBuckets_emits (σ := σ) hfound
      refine ⟨events ++ [], ?_, ?_⟩
      · exact Emits.bind hemits (Emits.lift_bind (Heap.load_of_read hread) (.pure _))
      · rw [List.append_nil]
        exact hlock htaken hheld
    | noBucket hmore hnext hnone =>
      obtain ⟨events, hemits, hheld⟩ := visitorBuckets_emits (σ := σ) hnone
      refine ⟨events ++ [], Emits.bind hemits (.pure _), ?_⟩
      rw [List.append_nil]
      exact hlock htaken hheld

/-! ## 5. What is printed -/

theorem summaryLoop_succ {t : HTable} {v v' : HTableVisitor} {file : File} {next : Option File}
    {fuel i : Nat}
    (hnext : Emits (Guarded.htableVisitorNext t v : Printing _) [] (next, v'))
    (s : Logged Guard (List SummaryLine)) : summaryLoop t (fuel + 1) i (some file) v s =
      summaryLoop t fuel (i + 1) next v'
        ⟨s.events, s.rest ++ [.size i file.lengthInBytes, .path i file.key]⟩ := by
  show (Guarded.htableVisitorNext t v ⟨s.events, s.rest ++ [_] ++ [_]⟩ >>= fun p =>
    summaryLoop t fuel (i + 1) p.1.1 p.1.2 p.2) = _
  rw [hnext, Exec.ok_bind, List.append_nil, List.append_assoc]
  rfl

/-- The loop prints the file that it has and those behind it. -/
theorem Yields.summaryLoop {t : HTable} {v : HTableVisitor} {files : List File}
    (h : Yields (htableVisitorNext t) v files) (hat : v.next ≠ none) (hall : v.maxVisits = 0)
    {file : File} {fuel i : Nat} (hfuel : files.length < fuel)
    (s : Logged Guard (List SummaryLine)) : summaryLoop t fuel i (some file) v s =
      .ok ((), ⟨s.events, s.rest ++ fileLines i (file :: files)⟩) := by
  induction h generalizing file fuel i s with
  | nil hnext =>
    obtain ⟨fuel, rfl⟩ : ∃ m, fuel = m + 1 := ⟨fuel - 1, by omega⟩
    rw [summaryLoop_succ ((visitorStep_of_ok hnext).emits hat hall)]
    cases fuel <;> rfl
  | cons hnext rest ih =>
    obtain ⟨fuel, rfl⟩ : ∃ m, fuel = m + 1 := ⟨fuel - 1, by omega⟩
    have hstep := visitorStep_of_ok hnext
    rw [summaryLoop_succ (hstep.emits hat hall),
      ih hstep.next_ne_none (hstep.maxVisits_eq.trans hall) (Nat.lt_of_succ_lt_succ hfuel),
      List.append_assoc]
    rfl

/-- The numbers, as they stand in the table. -/
def HTableStats.lines (s : HTableStats) : List SummaryLine :=
  [.maxFilesStored s.historicalMaxItemsCount, .maxSpaceInBytes s.historicalMaxSpaceInBytes,
    .numOfEvictions s.historicalNumEvictions, .currentSpace s.totalSpaceInBytes,
    .currentContents s.itemsCount]

theorem Stored.summary {P : Platform} {t : HTable} {L : Contents} (h : Stored P t L) :
    ∃ events, (∀ s, printSummary t s = .ok ((), ⟨s.events ++ events,
        s.rest ++ (t.stats.lines ++ .separator :: fileLines 1 t.reachedFiles)⟩)) ∧
      ∀ left, (heldAfter left events).isSome ↔ ∀ i ∈ t.taken, .bucket i ∉ left := by
  obtain ⟨visitor, hvisit, hyields⟩ := h.toLinked.visit 0
  obtain ⟨b, hb, rfl⟩ := Guarded.visit_eq_ok hvisit
  obtain ⟨bs, hbuckets⟩ := Guarded.bucket_zero hb
  have hlength : t.reachedFiles.length < t.items.live + 1 := by
    have hreached := h.toLinked.reachedFiles_sublist.length_le
    have hlive := h.length_le_live
    rw [h.linkedFiles_length] at hreached
    exact Nat.lt_succ_of_le (hreached.trans hlive)
  have hall : budget (UInt32.toNat 0) 0 t.reachedFiles = t.reachedFiles := if_pos rfl
  rw [hall] at hyields
  obtain ⟨file, v', hstep, hloop⟩ : ∃ file v', VisitorStep t ⟨0, 0, 0, b.head⟩ file v' ∧
      ∀ s, summaryLoop t (t.items.live + 1) 1 file v' s =
        .ok ((), ⟨s.events, s.rest ++ fileLines 1 t.reachedFiles⟩) := by
    generalize t.reachedFiles = files at hyields hlength
    cases hyields with
    | nil hnext =>
      refine ⟨none, _, visitorStep_of_ok hnext, fun s => ?_⟩
      rw [fileLines, List.append_nil]
      rfl
    | cons hnext rest =>
      have hstep := visitorStep_of_ok hnext
      refine ⟨some _, _, hstep, fun s => ?_⟩
      exact rest.summaryLoop hstep.next_ne_none hstep.maxVisits_eq (Nat.lt_of_succ_lt hlength) s
  obtain ⟨events, hemits, hheld⟩ := hstep.emits_first hbuckets
  have hlocked : Emits (Guarded.htableVisit t 0 : Printing _) [.lock (.bucket 0)]
      ⟨0, 0, 0, b.head⟩ :=
    Emits.lift_bind hvisit (Emits.bind (.lock _) (.pure _))
  refine ⟨.lock (.bucket 0) :: events, fun s => ?_, hheld⟩
  show (Guarded.htableVisit t 0 ⟨s.events, s.rest ++ [_] ++ [_] ++ [_] ++ [_] ++ [_]⟩ >>= fun p =>
    Guarded.htableVisitorNext t p.1 p.2 >>= fun q =>
      summaryLoop t (t.items.live + 1) 1 q.1.1 q.1.2 ⟨q.2.events, q.2.rest ++ [.separator]⟩) = _
  rw [hlocked, Exec.ok_bind, hemits, Exec.ok_bind, hloop]
  simp only [List.append_assoc, List.singleton_append]
  rfl

/-! ## 6. A run -/

namespace SequentialRun

variable {P : Platform} {buckets : Nat} {config : Config} {tr : List (HTable × Call)} {t : HTable}

theorem remembered (run : SequentialRun P buckets config tr t)
    (hsizes : ∀ x ∈ tr, x.1.linkedBytes + x.2.op.size < wordSize) :
    ∃ L, Stored P t L ∧ Counted True t.stats L.flatten ∧
      Remembered t.stats L.flatten
        (most ((statesOf tr t).map fun s => s.linkedFiles.length)) (most (tr.map (peak P)))
        (tr.flatMap (evictedBy P)).length := by
  obtain ⟨t₀, hcreate, run⟩ := run
  induction run with
  | nil =>
    have hs := stored_create (P := P) hcreate
    refine ⟨_, hs, counted_create True hcreate, ?_⟩
    have hflat : (List.replicate buckets ([] : List Entry)).flatten = [] := by simp
    have hnone : (statesOf ([] : List (HTable × Call)) t₀).map (fun s => s.linkedFiles.length) =
        [0] := by
      rw [statesOf, List.map_nil, List.nil_append, List.map_singleton, hs.linkedFiles_length, hflat]
      rfl
    rw [hnone, hflat]
    refine ⟨?_, Nat.zero_le _, Nat.zero_le _⟩
    unfold htableCreate at hcreate
    split at hcreate
    · obtain rfl := Except.ok.inj hcreate
      rfl
    · cases hcreate
  | snoc run next ih =>
    rename_i tr s s' c
    obtain ⟨L, hs, hc, hr⟩ := ih fun x hx => hsizes x (List.mem_append_left _ hx)
    have hsize := hsizes (s, c) (List.mem_append_right _ (List.mem_singleton.mpr rfl))
    rw [hs.linkedBytes_eq] at hsize
    obtain ⟨out, hexec⟩ := next
    obtain ⟨L', heffect⟩ := effect_of_exec hs hexec
    have hs' := heffect.stored hs
    refine ⟨L', hs', heffect.counted hs hc fun _ => hsize, ?_⟩
    have hstates : statesOf (tr ++ [(s, c)]) s' = statesOf tr s ++ [s'] := by simp [statesOf]
    have hpeak : peak P (s, c) =
        bytesOf L'.flatten + (out.evicted.map File.lengthInBytes).sum := by
      rw [peak, hexec, ← hs'.linkedBytes_eq]
    have hevicted : evictedBy P (s, c) = out.evicted := by rw [evictedBy, hexec]
    rw [hstates, List.map_append, List.map_append, List.map_singleton, List.map_singleton,
      most_snoc, most_snoc, List.flatMap_append, List.flatMap_singleton, List.length_append, hpeak,
      hevicted, hs'.linkedFiles_length]
    exact heffect.remembered hs hc hr hsize

end SequentialRun

/-- What the server prints when it ends, after any run: the largest number of files that it ever
stored, the largest number of bytes that it had before it evicted anything, how many files it
evicted, and what it stores now.  Of the files themselves it lists those of the first bucket that
holds one, and not the first file of bucket 0.  It comes to an end exactly when no request has left
the guard of a bucket up to that one locked. -/
theorem summary_tells {P : Platform} {buckets : Nat} {config : Config}
    {tr : List (HTable × Call)} {t : HTable} (run : SequentialRun P buckets config tr t)
    (hsizes : ∀ x ∈ tr, x.1.linkedBytes + x.2.op.size < wordSize)
    {s : Logged Guard (List SummaryLine)} {left : List Guard} (hs : s.held = some left) :
    ∃ s', printSummary t s = .ok ((), s') ∧
      (s'.held.isSome ↔ ∀ i ∈ t.taken, Guard.bucket i ∉ left) ∧
      s'.rest = s.rest ++ ([
        .maxFilesStored (most ((statesOf tr t).map fun s => s.linkedFiles.length)),
        .maxSpaceInBytes (most (tr.map (peak P))),
        .numOfEvictions ((tr.flatMap (evictedBy P)).length % wordSize),
        .currentSpace t.linkedBytes,
        .currentContents t.linkedFiles.length,
        .separator] ++ fileLines 1 t.reachedFiles) := by
  obtain ⟨L, hstored, hc, hr⟩ := run.remembered hsizes
  obtain ⟨events, hprint, hheld⟩ := hstored.summary
  refine ⟨_, hprint s, ?_, ?_⟩
  · rw [← hheld left, Logged.held, heldAfter_append, show heldAfter [] s.events = some left from hs]
    rfl
  · have hhistory := hr.history
    simp only [HTableStats.history, Prod.mk.injEq] at hhistory
    have hspace := hc.space
    rw [Nat.mod_eq_of_lt (hc.unwrapped trivial).1, ← hstored.linkedBytes_eq] at hspace
    have hitems := hc.items
    rw [← hstored.linkedFiles_length] at hitems
    rw [HTableStats.lines, hhistory.1, hhistory.2.1, hhistory.2.2, hspace, hitems]
    rfl

/-- Two files, of which the larger one makes the other one go.  With the guard of the only bucket
left locked the server never gets that far. -/
theorem summary_tells_two : ∃ tr t, SequentialRun samplePlatform 1 ⟨10, 3, .segmentedFifo⟩ tr t ∧
    (∃ s', printSummary t ⟨[], []⟩ = .ok ((), s') ∧ s'.held.isSome ∧
      s'.rest = [.maxFilesStored 2, .maxSpaceInBytes 5, .numOfEvictions 1, .currentSpace 3,
        .currentContents 1, .separator]) ∧
    ∃ s', printSummary t ⟨[.lock (.bucket 0)], []⟩ = .ok ((), s') ∧ ¬s'.held.isSome := by
  obtain ⟨tr, t, run, htest⟩ := SequentialRun.of_run_test samplePlatform 1
    ⟨10, 3, .segmentedFifo⟩
    [⟨.create (bufToStr [97]) 3 false, []⟩, ⟨.replace (bufToStr [97]) [7, 8], []⟩,
      ⟨.create (bufToStr [98]) 4 false, []⟩, ⟨.replace (bufToStr [98]) [7, 8, 9], [0]⟩]
    (fun tr t => decide ((∀ x ∈ tr, x.1.linkedBytes + x.2.op.size < wordSize) ∧
      most ((statesOf tr t).map fun s => s.linkedFiles.length) = 2 ∧
      most (tr.map (peak samplePlatform)) = 5 ∧
      (tr.flatMap (evictedBy samplePlatform)).length % wordSize = 1 ∧ t.linkedBytes = 3 ∧
      t.linkedFiles.length = 1 ∧ t.reachedFiles = [] ∧ t.taken = [0])) (by decide +kernel)
  obtain ⟨hsizes, hitems, hspace, hevictions, hbytes, hlength, hreached, htaken⟩ :=
    of_decide_eq_true htest
  refine ⟨tr, t, run, ?_, ?_⟩
  · obtain ⟨s', hprint, hends, hlines⟩ := summary_tells run hsizes (s := ⟨[], []⟩) rfl
    rw [hitems, hspace, hevictions, hbytes, hlength, hreached] at hlines
    exact ⟨s', hprint, hends.mpr fun i _ => List.not_mem_nil, hlines⟩
  · have hleft : Logged.held (⟨[.lock (.bucket 0)], []⟩ : Logged Guard (List SummaryLine)) =
        some [.bucket 0] := rfl
    obtain ⟨s', hprint, hends, -⟩ := summary_tells run hsizes hleft
    refine ⟨s', hprint, fun h => ?_⟩
    exact hends.mp h 0 (htaken ▸ List.mem_singleton_self 0) (List.mem_singleton_self _)

end FileStorage.Server
