import FileStorage.Server.RequestGuards
import FileStorage.Server.Requests
import FileStorage.Server.Counters

/-!
# GuardRelease — which mutexes a worker still holds after a request

The visitor releases a bucket when it has made its visits and when it moves on to the next bucket,
and at no other moment.  It does not move on from a bucket in which it has found a file.
-/

namespace FileStorage.Server

open Memory

/-! ## 1. The requests that release what they take -/

namespace Guarded

variable {held : List Guard} {P : Platform} {t : HTable} {fd : Int} {buffer : List UInt8}
  {rands : List Nat}

theorem write_leaves {w : Write} : Leaves held (write w) fun _ => held :=
  fun _ _ _ hs hx => (held_of_events (write_ok hx).1).trans hs

theorem writeEach_leaves {err : Int} {ws : List Write} :
    Leaves held (writeEach err ws) fun _ => held :=
  fun _ _ _ hs hx => (held_of_events (writeEach_frame hx).1).trans hs

theorem respond_leaves {result : Int} :
    Leaves held (writeResponseByte fd result) fun _ => held := by
  apply Leaves.bind write_leaves
  intro r
  exact .pure _ rfl

/-- The release comes behind the writes, whatever these return. -/
theorem readFile_leaves : Leaves [] (workerHandleReadFile P t fd buffer) fun _ => [] := by
  apply Leaves.bind (fetchFile_implements List.not_mem_nil).leaves
  intro file
  cases file with
  | none => exact respond_leaves
  | some file =>
    apply Leaves.bind (.lift _)
    intro contents
    apply Leaves.bind writeEach_leaves
    intro err
    exact .unlock

theorem writeEvicted_leaves {err : Int} {evicted : List File} :
    Leaves held (writeEvicted fd err evicted) fun _ => held := by
  induction evicted generalizing err with
  | nil => exact .pure _ rfl
  | cons file evicted ih =>
    apply Leaves.bind (.lift _)
    intro writes
    apply Leaves.bind writeEach_leaves
    intro err'
    apply Leaves.ite
    · intro _
      exact .pure _ rfl
    · intro _
      exact ih

theorem writeFile_leaves : Leaves [] (workerHandleWriteFile P t fd buffer rands) fun _ => [] := by
  apply Leaves.bind (.lift _)
  intro args
  cases args with
  | none => exact .pure _ rfl
  | some args =>
    apply Leaves.bind replaceFileContents_implements.leaves
    intro r
    apply Leaves.bind writeEach_leaves
    intro err
    apply Leaves.ite
    · intro _
      exact .pure _ rfl
    · intro _
      apply Leaves.bind writeEvicted_leaves
      intro _
      exact .pure _ rfl

theorem openFile_leaves {create lock : Bool} :
    Leaves [] (workerHandleOpenFile P t fd buffer create lock) fun _ => [] := by
  apply Leaves.bind openOrCreateFile_implements.leaves
  intro r
  apply Leaves.bind respond_leaves
  intro _
  exact .pure _ rfl

theorem lockFile_leaves : Leaves [] (workerHandleLockFile P t fd buffer) fun _ => [] := by
  apply Leaves.bind lockFile_implements.leaves
  intro r
  apply Leaves.bind write_leaves
  intro _
  exact .pure _ rfl

theorem unlockFile_leaves : Leaves [] (workerHandleUnlockFile P t fd buffer) fun _ => [] := by
  apply Leaves.bind unlockFile_implements.leaves
  intro r
  apply Leaves.bind respond_leaves
  intro _
  apply Leaves.ite
  · intro _
    apply Leaves.bind write_leaves
    intro _
    exact .pure _ rfl
  · intro _
    exact .pure _ rfl

theorem closeFile_leaves : Leaves [] (workerHandleCloseFile P t fd buffer) fun _ => [] := by
  apply Leaves.bind closeFile_implements.leaves
  intro r
  apply Leaves.bind respond_leaves
  intro _
  exact .pure _ rfl

theorem removeFile_leaves : Leaves [] (workerHandleRemoveFile P t fd buffer) fun _ => [] := by
  apply Leaves.bind removeFile_implements.leaves
  intro r
  apply Leaves.bind respond_leaves
  intro _
  exact .pure _ rfl

/-- All requests but one leave nothing held, on every path through them. -/
theorem request_leaves {op : ApiOp} (hop : op ≠ .readNFiles) :
    Leaves [] (workerHandleRequest P t fd op buffer rands) fun _ => [] := by
  cases op with
  | openConnection | closeConnection | appendToFile => exact .pure _ rfl
  | readFile =>
    apply Leaves.bind readFile_leaves
    intro _
    exact .pure _ rfl
  | readNFiles => exact absurd rfl hop
  | openFile | openFileCreate | openFileLock | openFileCreateLock => exact openFile_leaves
  | writeFile => exact writeFile_leaves
  | lockFile => exact lockFile_leaves
  | unlockFile => exact unlockFile_leaves
  | closeFile => exact closeFile_leaves
  | removeFile => exact removeFile_leaves

end Guarded

/-! ## 2. The files that a visit comes to -/

/-- The files met from `p`, at most `fuel` of them. -/
def HTable.filesFrom (t : HTable) (fuel : Nat) (p : Ptr) : List File :=
  (walk (t.items.field HTableItem.next) fuel p).filterMap (t.items.field HTableItem.file)

/-- The files that a bucket links. -/
def HTable.bucketFiles (t : HTable) (b : HTableBucket) : List File :=
  t.filesFrom (t.items.live + 2) b.head

/-- The files of the first bucket that is not empty.  The visitor starts at the first item of bucket
0 and steps over it. -/
def HTable.reachedFiles (t : HTable) : List File :=
  match t.buckets with
  | [] => []
  | b :: bs =>
      if b.head.isSome then
        (t.bucketFiles b).tail
      else
        ((bs.find? (·.head.isSome)).map t.bucketFiles).getD []

/-- The sizes of the four writes for a file. -/
def recordSizes (file : File) : List Nat := [8, 8, file.key.strlen, file.lengthInBytes]

/-- From `visits` on, a visitor with this limit makes all its visits among `files`, and every file
goes out to the client. -/
def VisitsMade (maxVisits visits : Nat) (files : List File) (results : List WriteResult) : Prop :=
  maxVisits ≠ 0 ∧ maxVisits - visits ≤ files.length ∧
    (delivered ((files.take (maxVisits - visits)).flatMap recordSizes) results).isSome

/-- The condition under which a `readNFiles` request for `n` files releases all buckets. -/
def HTable.visitReleases (t : HTable) (n : Nat) (results : List WriteResult) : Prop :=
  (∀ b ∈ t.buckets, b.head = none) ∨
    VisitsMade (n % unsignedSize) 0 t.reachedFiles results

variable {t : HTable} {files : List File} {file : File} {results : List WriteResult}
  {maxVisits visits : Nat}

@[simp] theorem filesFrom_none (fuel : Nat) : t.filesFrom fuel none = [] := by
  cases fuel <;> rfl

theorem filesFrom_cons {fuel : Nat} {a : Addr} {item : HTableItem}
    (hread : t.items.read a = some item) :
    t.filesFrom (fuel + 1) (some a) = item.file :: t.filesFrom fuel item.next := by
  simp [HTable.filesFrom, walk, Heap.field, hread]

/-- In a store these are the files that the bucket holds. -/
theorem Linked.bucketFiles_eq {P : Platform} {L : Contents} (h : Linked P t L) {i : Nat}
    {b : HTableBucket} {l : List Entry} (hb : t.buckets[i]? = some b) (hl : L[i]? = some l) :
    t.bucketFiles b = l.map Prod.snd := by
  have hlinks := h.bucket i b l hb hl
  have hlength := t.items.length_le_live (l.map Prod.fst) hlinks.dlist.nodup hlinks.isSome_read
  rw [HTable.bucketFiles, HTable.filesFrom, hlinks.dlist.fwd.walk_eq (by omega)]
  have hfiles := hlinks.files
  clear hlinks hlength hb hl
  induction l with
  | nil => rfl
  | cons e l ih =>
    rw [List.map_cons, List.filterMap_cons_some (hfiles e List.mem_cons_self), List.map_cons,
      ih fun x hx => hfiles x (List.mem_cons_of_mem _ hx)]

theorem visitsMade_cons (hvisits : maxVisits ≠ 0 → visits < maxVisits) :
    VisitsMade maxVisits visits (file :: files) results ↔
      ∃ rest, delivered (recordSizes file) results = some rest ∧
        VisitsMade maxVisits (visits + 1) files rest := by
  by_cases hzero : maxVisits = 0
  · simp [VisitsMade, hzero]
  · have hlt := hvisits hzero
    have hone : maxVisits - visits = maxVisits - (visits + 1) + 1 := by omega
    unfold VisitsMade
    rw [hone, List.take_succ_cons, List.flatMap_cons, Guarded.delivered_append, List.length_cons]
    cases delivered (recordSizes file) results with
    | none => simp
    | some rest => simp [hzero]

/-- Without a limit it does not matter that the number of visits may wrap. -/
theorem visitsMade_mod (hvisits : maxVisits ≠ 0 → visits < maxVisits)
    (hmax : maxVisits < unsignedSize) :
    VisitsMade maxVisits ((visits + 1) % unsignedSize) files results ↔
      VisitsMade maxVisits (visits + 1) files results := by
  by_cases hzero : maxVisits = 0
  · simp [VisitsMade, hzero]
  · have hlt := hvisits hzero
    rw [Nat.mod_eq_of_lt (by omega)]

theorem sizesOf_fileBytes {fd : Int} {writes : List Write}
    (hx : writeFileBytes fd file = .ok writes) : sizesOf writes = recordSizes file := by
  obtain ⟨contents, hcontents, hx⟩ := Exec.bind_eq_ok.mp hx
  cases hx
  unfold fileContents at hcontents
  split at hcontents
  · rename_i hle
    cases hcontents
    simp [sizesOf, recordSizes, CStr.strlen, hle]
  · cases hcontents

/-! ## 3. The visit -/

/-- Whether `htable_visitor_next` has made all its visits. -/
def HTableVisitor.done (v : HTableVisitor) : Prop := v.visits ≥ v.maxVisits ∧ v.maxVisits ≠ 0

/-- The visitor on its way to the next file. -/
def HTableVisitor.moveTo (v : HTableVisitor) (bucketI : Nat) (next : Ptr) : HTableVisitor :=
  ⟨v.maxVisits, (v.visits + 1) % unsignedSize, bucketI, next⟩

/-- The ways in which `htable_visitor_next` returns. -/
inductive VisitorStep (t : HTable) (v : HTableVisitor) : Option File → HTableVisitor → Prop
  | finished (hdone : v.done) : VisitorStep t v none v
  | within {a b : Addr} {item item' : HTableItem} (hmore : ¬v.done) (hnext : v.next = some a)
      (hread : t.items.read a = some item) (hbehind : item.next = some b)
      (hread' : t.items.read b = some item') :
      VisitorStep t v (some item'.file) (v.moveTo v.bucketI (some b))
  | behindLast {a : Addr} {item : HTableItem} (hmore : ¬v.done) (hnext : v.next = some a)
      (hread : t.items.read a = some item) (hbehind : item.next = none) :
      VisitorStep t v none (v.moveTo v.bucketI none)
  | nextBucket {i : Nat} {a : Addr} {item : HTableItem} (hmore : ¬v.done) (hnext : v.next = none)
      (hbuckets : visitorBuckets t t.buckets.length v.bucketI = .ok (some (i, a)))
      (hread : t.items.read a = some item) :
      VisitorStep t v (some item.file) (v.moveTo i (some a))
  | noBucket (hmore : ¬v.done) (hnext : v.next = none)
      (hbuckets : visitorBuckets t t.buckets.length v.bucketI = .ok none) : VisitorStep t v none v

theorem visitorStep_of_ok {t : HTable} {v v' : HTableVisitor} {file : Option File}
    (hx : htableVisitorNext t v = .ok (file, v')) : VisitorStep t v file v' := by
  unfold htableVisitorNext at hx
  split at hx
  · rename_i hdone
    cases hx
    exact .finished hdone
  · rename_i hmore
    cases hnext : v.next with
    | some a =>
      rw [hnext] at hx
      obtain ⟨item, hload, hx⟩ := Exec.bind_eq_ok.mp hx
      have hread := Heap.load_eq_ok.mp hload
      cases hbehind : item.next with
      | none =>
        rw [hbehind] at hx
        cases hx
        exact .behindLast hmore hnext hread hbehind
      | some b =>
        rw [hbehind] at hx
        obtain ⟨item', hload', hx⟩ := Exec.bind_eq_ok.mp hx
        cases hx
        exact .within hmore hnext hread hbehind (Heap.load_eq_ok.mp hload')
    | none =>
      rw [hnext] at hx
      obtain ⟨p, hbuckets, hx⟩ := Exec.bind_eq_ok.mp hx
      cases p with
      | none =>
        cases hx
        exact .noBucket hmore hnext hbuckets
      | some p =>
        obtain ⟨item, hload, hx⟩ := Exec.bind_eq_ok.mp hx
        cases hx
        exact .nextBucket hmore hnext hbuckets (Heap.load_eq_ok.mp hload)

/-- The search for a bucket ends at the first one that is not empty. -/
theorem visitorBuckets_ok {t : HTable} {fuel i : Nat} {p : Option (Nat × Nat)}
    (hx : visitorBuckets t fuel i = .ok p) :
    p.map (some ∘ Prod.snd) = ((t.buckets.drop (i + 1)).find? (·.head.isSome)).map HTableBucket.head := by
  induction fuel generalizing i with
  | zero => cases hx
  | succ fuel ih =>
    unfold visitorBuckets at hx
    split at hx
    · rename_i hend
      cases hx
      rw [List.drop_eq_nil_of_le (by omega)]
      rfl
    · obtain ⟨b, hb, hx⟩ := Exec.bind_eq_ok.mp hx
      unfold HTable.bucket at hb
      split at hb
      · rename_i bucket hget
        cases hb
        obtain ⟨hlt, hget⟩ := List.getElem?_eq_some_iff.mp hget
        rw [List.drop_eq_getElem_cons hlt, hget, List.find?_cons]
        cases hhead : b.head with
        | some a =>
          rw [hhead] at hx
          cases hx
          simp [hhead]
        | none =>
          rw [hhead] at hx
          exact ih hx
      · cases hb

namespace Guarded

section

variable {t : HTable} {fd : Int} {fuel more : Nat} {v : HTableVisitor} {err err' : Int}
  {s s' : Logged Guard Connection} {file : File} {files : List File}

/-- What the loop does with a file that the visitor has returned. -/
def sendFile (t : HTable) (fd : Int) (fuel : Nat) (v : HTableVisitor) (err : Int) (file : File) :
    Handling Int := do
  let writes ← writeFileBytes fd file
  let err ← writeEach err writes
  if err < 0 then
    return err
  else
    readNFilesLoop t fd fuel v err

/-- A round of the loop. -/
theorem readNFilesLoop_succ (hs : s.held = some [.bucket v.bucketI])
    (hx : readNFilesLoop t fd (fuel + 1) v err s = .ok (err', s')) :
    ∃ file v' s₁, VisitorStep t v file v' ∧ s₁.rest = s.rest ∧
      s₁.held = some (heldByVisitor v (file, v')) ∧
      (file.elim (pure err) (sendFile t fd fuel v' err)) s₁ = .ok (err', s') := by
  obtain ⟨⟨file, v'⟩, s₁, hfirst, hx⟩ := Locking.bind_eq_ok.mp hx
  obtain ⟨hplain, hrest, hheld⟩ := (visitorNext_implements s hs).2 _ _ hfirst
  refine ⟨file, v', s₁, visitorStep_of_ok hplain, hrest, hheld, ?_⟩
  cases file with
  | none => exact hx
  | some file => exact hx

/-- A file on the way: its record goes out and the rest of the visit is made, or its bucket stays
locked. -/
theorem sendFile_held {i : Nat} {p : Ptr} (hvisits : ¬v.done)
    (hs : s.held = some [.bucket i]) (herr : 0 ≤ err) (hmax : v.maxVisits < unsignedSize)
    (hrest : ∀ {err₁ : Int} {s₁ : Logged Guard Connection}, s₁.held = some [.bucket i] →
      0 ≤ err₁ → readNFilesLoop t fd fuel (v.moveTo i p) err₁ s₁ = .ok (err', s') →
        (s'.held = some [] ↔
          VisitsMade v.maxVisits (v.moveTo i p).visits files s₁.rest.results))
    (hx : sendFile t fd fuel (v.moveTo i p) err file s = .ok (err', s')) :
    s'.held = some [] ↔ VisitsMade v.maxVisits v.visits (file :: files) s.rest.results := by
  have hlt : v.maxVisits ≠ 0 → v.visits < v.maxVisits := by
    intro hzero
    exact Nat.lt_of_not_le fun hle => hvisits ⟨hle, hzero⟩
  obtain ⟨writes, hwrites, hx⟩ := Locking.lift_bind_eq_ok.mp hx
  obtain ⟨err₁, s₁, heach, hx⟩ := Locking.bind_eq_ok.mp hx
  have hheld := (held_of_events (writeEach_frame heach).1).trans hs
  have hsent := writeEach_delivered heach herr
  rw [sizesOf_fileBytes hwrites] at hsent
  rw [visitsMade_cons hlt, hsent]
  by_cases herr₁ : err₁ < 0
  · -- the `break`
    rw [if_pos herr₁] at hx ⊢
    cases hx
    simp [hheld]
  · rw [if_neg herr₁] at hx ⊢
    rw [hrest hheld (Int.not_lt.mp herr₁) hx]
    simp only [HTableVisitor.moveTo, visitsMade_mod hlt hmax]
    simp

/-- The visitor stands at an item: only the files behind it in its bucket are still to come. -/
theorem readNFilesLoop_held (hat : v.next ≠ none) (hfuel : fuel ≤ more)
    (hmax : v.maxVisits < unsignedSize) (hvisits : v.maxVisits ≠ 0 → v.visits ≤ v.maxVisits)
    (hs : s.held = some [.bucket v.bucketI]) (herr : 0 ≤ err)
    (hx : readNFilesLoop t fd fuel v err s = .ok (err', s')) :
    s'.held = some [] ↔
      VisitsMade v.maxVisits v.visits (t.filesFrom (more + 1) v.next).tail s.rest.results := by
  induction fuel generalizing v more err s with
  | zero => cases hx
  | succ fuel ih =>
    obtain ⟨file, v', s₁, hstep, hrest, hheld, hx⟩ := readNFilesLoop_succ hs hx
    cases hstep with
    | finished hdone =>
      cases hx
      obtain ⟨hreached, hzero⟩ := hdone
      have hnone : v.maxVisits - v.visits = 0 := by omega
      rw [hheld]
      simp [heldByVisitor, VisitsMade, hreached, hzero, hnone, delivered]
    | behindLast hmore hnext hread hbehind =>
      -- the file is `NULL`, and the bucket is not released
      cases hx
      rw [hheld, hnext, filesFrom_cons hread, hbehind, filesFrom_none]
      have hkept : ¬(v.visits ≥ v.maxVisits ∧ v.maxVisits ≠ 0) := hmore
      simp only [heldByVisitor, VisitsMade]
      simp [hkept, hnext]
      omega
    | @within a b item item' hmore hnext hread hbehind hread' =>
      obtain ⟨more, rfl⟩ : ∃ k, more = k + 1 := ⟨more - 1, by omega⟩
      rw [hnext, filesFrom_cons hread, List.tail_cons, hbehind, filesFrom_cons hread', ← hrest]
      refine sendFile_held hmore hheld herr hmax ?_ hx
      intro err₁ s₂ hs₂ herr₁ hloop
      have hlimit : v.maxVisits ≠ 0 → (v.visits + 1) % unsignedSize ≤ v.maxVisits := by
        intro hzero
        have hlt : v.visits < v.maxVisits := Nat.lt_of_not_le fun hle => hmore ⟨hle, hzero⟩
        rw [Nat.mod_eq_of_lt (by omega)]
        exact hlt
      have htail : (t.filesFrom (more + 1) (some b)).tail = t.filesFrom more item'.next := by
        rw [filesFrom_cons hread', List.tail_cons]
      rw [← htail]
      exact ih (v := v.moveTo v.bucketI (some b)) (Option.some_ne_none b) (by omega) hmax hlimit
        hs₂ herr₁ hloop
    | nextBucket hmore hnext hbuckets hread => exact absurd hnext hat
    | noBucket hmore hnext hbuckets => exact absurd hnext hat

theorem bucket_zero {b : HTableBucket} (hb : t.bucket 0 = .ok b) : ∃ bs, t.buckets = b :: bs := by
  cases hbuckets : t.buckets with
  | nil => simp [HTable.bucket, hbuckets] at hb
  | cons b' bs =>
    obtain rfl : b' = b := by simpa [HTable.bucket, hbuckets] using hb
    exact ⟨bs, rfl⟩

/-- The whole visit, from the lock on bucket 0. -/
theorem visit_held {n : Nat} {b : HTableBucket} (hb : t.bucket 0 = .ok b)
    (hs : s.held = some [.bucket 0]) (hfuel : fuel ≤ t.items.live + 1)
    (hx : readNFilesLoop t fd fuel ⟨n % unsignedSize, 0, 0, b.head⟩ 0 s = .ok (err', s')) :
    s'.held = some [] ↔ t.visitReleases n s.rest.results := by
  have hmax : n % unsignedSize < unsignedSize := Nat.mod_lt _ (by decide)
  obtain ⟨bs, hbuckets⟩ := bucket_zero hb
  unfold HTable.visitReleases HTable.reachedFiles
  rw [hbuckets]
  cases hhead : b.head with
  | some a =>
    -- bucket 0 is not empty: the visitor stands at its first item
    have hfirst : ¬∀ b' ∈ b :: bs, b'.head = none := by
      intro hall
      have hnone := hall b List.mem_cons_self
      rw [hhead] at hnone
      cases hnone
    rw [hhead] at hx
    simp only [hfirst, false_or, hhead, Option.isSome_some, if_true, HTable.bucketFiles]
    exact readNFilesLoop_held (v := ⟨n % unsignedSize, 0, 0, some a⟩) (Option.some_ne_none a) hfuel
      hmax (fun _ => Nat.zero_le _) hs (Int.le_refl 0) hx
  | none =>
    rw [hhead] at hx
    cases fuel with
    | zero => cases hx
    | succ fuel =>
      obtain ⟨file, v', s₁, hstep, hrest, hheld, hx⟩ := readNFilesLoop_succ hs hx
      cases hstep with
      | finished hdone => exact absurd (Nat.le_zero.mp hdone.1) hdone.2
      | within hmore hnext hread hbehind hread' => cases hnext
      | behindLast hmore hnext hread hbehind => cases hnext
      | noBucket hmore hnext hnone =>
        -- it has come to the end of the table and released every bucket on the way
        cases hx
        have hfind := visitorBuckets_ok hnone
        rw [hbuckets, List.drop_one, List.tail_cons] at hfind
        have hempty : ∀ b' ∈ b :: bs, b'.head = none := by
          intro b' hb'
          rcases List.mem_cons.mp hb' with rfl | hb'
          · exact hhead
          · have hnot := List.find?_eq_none.mp (Option.map_eq_none_iff.mp hfind.symm) b' hb'
            simpa using hnot
        apply iff_of_true ?_ (Or.inl hempty)
        rw [hheld]
        simp [heldByVisitor]
      | @nextBucket i a item hmore hnext hfound hread =>
        have hfind := visitorBuckets_ok hfound
        rw [hbuckets, List.drop_one, List.tail_cons] at hfind
        obtain ⟨b', hb', ha⟩ := Option.map_eq_some_iff.mp hfind.symm
        have hfull : ¬∀ b' ∈ b :: bs, b'.head = none := by
          intro hall
          have hnone := hall b' (List.mem_cons_of_mem _ (List.mem_of_find?_eq_some hb'))
          rw [ha] at hnone
          cases hnone
        have hfiles : t.bucketFiles b' = item.file :: t.filesFrom (t.items.live + 1) item.next := by
          rw [HTable.bucketFiles, ha]
          exact filesFrom_cons hread
        simp only [hfull, false_or, hhead, Option.isSome_none, Bool.false_eq_true, if_false, hb',
          Option.map_some, Option.getD_some, hfiles]
        rw [← hrest]
        refine sendFile_held hmore hheld (Int.le_refl 0) hmax ?_ hx
        intro err₁ s₂ hs₂ herr₁ hloop
        have htail : (t.filesFrom (t.items.live + 2) (some a)).tail =
            t.filesFrom (t.items.live + 1) item.next := by
          rw [filesFrom_cons hread, List.tail_cons]
        rw [← htail]
        refine readNFilesLoop_held (Option.some_ne_none a) (by omega) hmax ?_ hs₂ herr₁ hloop
        intro hzero
        exact Nat.pos_of_ne_zero hzero

/-! ### The bound on the rounds

Every round moves the visitor to another item, so in a well-formed table the loop never runs out of
fuel. -/

theorem bind_congr_ok {σ α β : Type} {x : Locking Guard σ α} {f g : α → Locking Guard σ β}
    {s : Logged Guard σ} (h : ∀ a s', x s = .ok (a, s') → f a s' = g a s') :
    (x >>= f) s = (x >>= g) s := by
  show (x s >>= fun p => f p.1 p.2) = (x s >>= fun p => g p.1 p.2)
  cases hx : x s with
  | error stop => rfl
  | ok p => exact h p.1 p.2 hx

theorem sendFile_fuel {k : Nat} (hs : s.held = some [.bucket v.bucketI])
    (hrest : ∀ {err₁ : Int} {s₁ : Logged Guard Connection}, s₁.held = some [.bucket v.bucketI] →
      readNFilesLoop t fd (fuel + k) v err₁ s₁ = readNFilesLoop t fd fuel v err₁ s₁) :
    sendFile t fd (fuel + k) v err file s = sendFile t fd fuel v err file s := by
  apply bind_congr_ok
  intro writes s₁ hwrites
  obtain ⟨-, rfl⟩ := Locking.lift_eq_ok.mp hwrites
  apply bind_congr_ok
  intro err₁ s₂ heach
  split
  · rfl
  · exact hrest ((held_of_events (writeEach_frame heach).1).trans hs)

/-- A round more than there are items ahead is never made. -/
theorem readNFilesLoop_fuel {k : Nat} {as : List Addr}
    (hpath : Path (t.items.field HTableItem.next) v.next as none) (hat : v.next ≠ none)
    (hfuel : as.length ≤ fuel) (hs : s.held = some [.bucket v.bucketI]) :
    readNFilesLoop t fd (fuel + k) v err s = readNFilesLoop t fd fuel v err s := by
  -- on the items ahead: every round but the last takes one of them
  induction as generalizing v fuel err s with
  | nil => exact absurd hpath hat
  | cons a as ih =>
    obtain ⟨fuel, rfl⟩ : ∃ m, fuel = m + 1 := ⟨fuel - 1, by simp at hfuel; omega⟩
    rw [Nat.add_right_comm]
    apply bind_congr_ok
    rintro ⟨file, v'⟩ s₁ hfirst
    obtain ⟨hplain, -, hheld⟩ := (visitorNext_implements s hs).2 _ _ hfirst
    cases visitorStep_of_ok hplain with
    | finished hdone => rfl
    | behindLast hmore hnext hread hbehind => rfl
    | @within a' b item item' hmore hnext hread hbehind hread' =>
      refine sendFile_fuel hheld fun {err₁ s₂} hs₂ => ?_
      obtain ⟨hhead, n, hn, hrest⟩ := hpath
      obtain rfl : a' = a := Option.some.inj (hnext.symm.trans hhead)
      rw [Heap.field_eq_of_read hread, hbehind] at hn
      obtain rfl := Option.some.inj hn
      exact ih hrest (Option.some_ne_none b) (Nat.le_of_succ_le_succ hfuel) hs₂
    | nextBucket hmore hnext hbuckets hread => exact absurd hnext hat
    | noBucket hmore hnext hbuckets => exact absurd hnext hat

theorem bucket_path {P : Platform} {L : Contents} (h : Linked P t L) {b : HTableBucket}
    (hb : b ∈ t.buckets) : ∃ as, Path (t.items.field HTableItem.next) b.head as none ∧
      as.length ≤ t.items.live := by
  obtain ⟨i, hi⟩ := List.mem_iff_getElem?.mp hb
  obtain ⟨l, -, hlinks⟩ := h.contents_of_bucket hi
  exact ⟨l.map Prod.fst, hlinks.dlist.fwd,
    t.items.length_le_live (l.map Prod.fst) hlinks.dlist.nodup hlinks.isSome_read⟩

/-- More fuel than `worker_handle_read_n_files` is given here changes nothing. -/
theorem visit_fuel {P : Platform} {L : Contents} (h : Linked P t L) {n k : Nat} {b : HTableBucket}
    (hb : t.bucket 0 = .ok b) (hs : s.held = some [.bucket 0]) :
    readNFilesLoop t fd (t.items.live + 1 + k) ⟨n, 0, 0, b.head⟩ err s =
      readNFilesLoop t fd (t.items.live + 1) ⟨n, 0, 0, b.head⟩ err s := by
  cases hhead : b.head with
  | some a =>
    obtain ⟨bs, hbuckets⟩ := bucket_zero hb
    obtain ⟨as, hpath, hlength⟩ := bucket_path h (hbuckets ▸ List.mem_cons_self)
    rw [hhead] at hpath
    exact readNFilesLoop_fuel hpath (Option.some_ne_none a) (by omega) hs
  | none =>
    rw [Nat.add_right_comm]
    apply bind_congr_ok
    rintro ⟨file, v'⟩ s₁ hfirst
    obtain ⟨hplain, -, hheld⟩ := (visitorNext_implements s hs).2 _ _ hfirst
    cases visitorStep_of_ok hplain with
    | finished hdone => rfl
    | noBucket hmore hnext hnone => rfl
    | within hmore hnext hread hbehind hread' => cases hnext
    | behindLast hmore hnext hread hbehind => cases hnext
    | @nextBucket i a item hmore hnext hfound hread =>
      obtain ⟨b', hb', ha⟩ := Option.map_eq_some_iff.mp (visitorBuckets_ok hfound).symm
      obtain ⟨as, hpath, hlength⟩ :=
        bucket_path h (List.mem_of_mem_drop (List.mem_of_find?_eq_some hb'))
      rw [ha] at hpath
      refine sendFile_fuel hheld fun {err₁ s₂} hs₂ => ?_
      exact readNFilesLoop_fuel (v := HTableVisitor.moveTo ⟨n, 0, 0, none⟩ i (some a)) hpath
        (Option.some_ne_none a) hlength hs₂

theorem readNFiles_held {buffer : List UInt8} {n : Nat} (hlength : buffer.length = 8)
    (hn : bigEndianToU64 buffer = .ok n) (hs : s.held = some [])
    (hx : workerHandleReadNFiles t fd buffer s = .ok ((), s')) :
    s'.held = some [] ↔ t.visitReleases n s.rest.results := by
  unfold workerHandleReadNFiles at hx
  rw [if_neg (not_not_intro hlength), hn] at hx
  obtain ⟨n', hn', hx⟩ := Locking.lift_bind_eq_ok.mp hx
  cases hn'
  obtain ⟨v, s₁, hvisit, hx⟩ := Locking.bind_eq_ok.mp hx
  obtain ⟨hplain, hrest, hheld⟩ := (visit_implements s hs).2 _ _ hvisit
  obtain ⟨b, hb, rfl⟩ := visit_eq_ok hplain
  obtain ⟨err, s₂, hloop, hx⟩ := Locking.bind_eq_ok.mp hx
  obtain ⟨err', s₃, hlast, hx⟩ := Locking.bind_eq_ok.mp hx
  cases hx
  -- the eight zero bytes at the end change nothing
  rw [held_of_events (writeEach_frame hlast).1, ← hrest]
  exact visit_held hb hheld (Nat.le_refl _) hloop

end

end Guarded

/-! ## 4. Requests -/

instance (n : Nat) (results : List WriteResult) : Decidable (t.visitReleases n results) :=
  inferInstanceAs (Decidable (_ ∨ _ ∧ _ ∧ _))

/-- A worker before a request. -/
def idleWorker (results : List WriteResult) : Logged Guard Connection := ⟨[], [], results⟩

theorem ApiOp.request_readNFiles {op : ApiOp} {buffer : List UInt8} {n : Nat} :
    op.request buffer = .ok (some (.readNFiles n)) ↔
      op = .readNFiles ∧ buffer.length = 8 ∧ bigEndianToU64 buffer = .ok n := by
  cases op with
  | readNFiles =>
    simp only [ApiOp.request]
    split
    · rename_i hlength
      simp [hlength]
    · rename_i hlength
      cases bigEndianToU64 buffer with
      | error stop => simp
      | ok n' => simp [not_not.mp hlength]
  | writeFile =>
    simp only [ApiOp.request]
    cases writeFileArgs buffer with
    | error stop => simp
    | ok args => cases args <;> simp
  | openConnection | closeConnection | openFile | openFileCreate | openFileLock
  | openFileCreateLock | readFile | appendToFile | lockFile | unlockFile | closeFile
  | removeFile => simp [ApiOp.request]

/-- A worker that has handled a request, whatever the table and whatever its writes returned, has
released every mutex that it took exactly once, unless the request is a visit that ends before it
has made its visits or at the end of a bucket. -/
theorem guards_released_iff {P : Platform} {t t' : HTable} {fd : Int} {raw : List UInt8}
    {rands : List Nat} {results : List WriteResult} {s : Logged Guard Connection}
    (hx : Guarded.workerHandleMessage P t fd raw rands (idleWorker results) = .ok (t', s)) :
    s.held = some [] ↔
      ∀ n, requestOf raw = .ok (some (.readNFiles n)) → t.visitReleases n results := by
  have hidle : (idleWorker results).held = some [] := rfl
  obtain ⟨request, hrequest, hx⟩ := Locking.lift_bind_eq_ok.mp hx
  unfold requestOf
  rw [hrequest]
  cases request with
  | none =>
    cases hx
    simp [hidle]
  | some request =>
    obtain ⟨op, payload⟩ := request
    simp only [Exec.ok_bind] at hx ⊢
    cases hop : ApiOp.ofByte op with
    | none =>
      rw [hop] at hx
      cases hx
      simp [hidle]
    | some op =>
      rw [hop] at hx
      simp only [ApiOp.request_readNFiles]
      by_cases hread : op = .readNFiles
      · subst hread
        obtain ⟨u, s₁, hhandle, hx⟩ := Locking.bind_eq_ok.mp hx
        cases hx
        by_cases hlength : payload.length = 8
        · obtain ⟨n, -, hn⟩ := bigEndianToU64_of_length (Nat.le_of_eq hlength.symm)
          have hn := hn []
          rw [List.append_nil] at hn
          rw [Guarded.readNFiles_held hlength hn hidle hhandle]
          simp [hlength, hn, idleWorker]
        -- a payload of another size is ignored before anything is locked
        · unfold Guarded.workerHandleReadNFiles at hhandle
          rw [if_pos hlength] at hhandle
          cases hhandle
          simp [hidle, hlength]
      -- the other requests release everything on every path
      · have hnone := Guarded.request_leaves hread _ _ _ hidle hx
        simp [hnone, hread]

/-- A `readNFiles` request for `n` files. -/
def readNFilesMessage (n : Nat) : List UInt8 :=
  List.replicate 8 0 ++ u64ToBigEndian 9 ++ 7 :: u64ToBigEndian n

/-- Two files in one bucket and a visit of one file. -/
theorem guards_released_on_visit :
    ∃ tr t t' s, SequentialRun samplePlatform 1 ⟨10, 10, .fifo⟩ tr t ∧
      Guarded.workerHandleMessage samplePlatform t 3 (readNFilesMessage 1) []
        (idleWorker (List.replicate 5 (.wrote 8))) = .ok (t', s) ∧ s.held = some [] := by
  obtain ⟨tr, t, run, htest⟩ := SequentialRun.of_run_test samplePlatform 1 ⟨10, 10, .fifo⟩
    [⟨.create (bufToStr [97]) 3 false, []⟩, ⟨.create (bufToStr [98]) 3 false, []⟩]
    (fun _ t => (Guarded.workerHandleMessage samplePlatform t 3 (readNFilesMessage 1) []
        (idleWorker (List.replicate 5 (.wrote 8)))).any fun _ =>
      decide (t.visitReleases 1 (List.replicate 5 (.wrote 8))))
    (by decide +kernel)
  obtain ⟨⟨t', s⟩, hx, hcondition⟩ := Exec.any_eq_true.mp htest
  refine ⟨tr, t, t', s, run, hx, (guards_released_iff hx).mpr fun n hn => ?_⟩
  have hone : requestOf (readNFilesMessage 1) = .ok (some (.readNFiles 1)) := by decide +kernel
  rw [hone] at hn
  cases hn
  exact of_decide_eq_true hcondition

/-- One file in the only bucket and a visit of all files: every write succeeds, and the worker
keeps the bucket. -/
theorem visit_keeps_bucket :
    ¬∀ (P : Platform) (buckets : Nat) (config : Config) (tr : List (HTable × Call)) (t : HTable),
      SequentialRun P buckets config tr t → ∀ fd raw rands results t' s,
        Guarded.workerHandleMessage P t fd raw rands (idleWorker results) = .ok (t', s) →
          s.held = some [] := by
  intro hclaim
  obtain ⟨tr, t, run, htest⟩ := SequentialRun.of_run_test samplePlatform 1 ⟨10, 10, .fifo⟩
    [⟨.create (bufToStr [97]) 3 false, []⟩]
    (fun _ t => (Guarded.workerHandleMessage samplePlatform t 3 (readNFilesMessage 0) []
        (idleWorker [.wrote 8])).any fun r => decide (r.2.held = some [.bucket 0]))
    (by decide +kernel)
  obtain ⟨⟨t', s⟩, hx, hheld⟩ := Exec.any_eq_true.mp htest
  have hreleased := hclaim _ _ _ _ _ run _ _ _ _ _ _ hx
  rw [of_decide_eq_true hheld] at hreleased
  cases hreleased

end FileStorage.Server
