import FileStorage.Programs
import FileStorage.Server.SegmentedEviction
import FileStorage.Server.TableGuards
import Mathlib.Data.Stream.Defs

/-!
# TablePrograms — the table's operations step by step

The operations of `Htable` and their mutex calls once more, this time on a table that other threads
change between any two steps.  What a step reads is the table as it is then.
-/

namespace FileStorage.Server

open Memory Program

/-- The table and what `rand` has yet to draw. -/
structure SharedTable where
  table : HTable
  rands : Stream' Nat

abbrev TableProgram (α : Type) := Program Guard SharedTable α

namespace TableProgram

/-! ## 1. Steps -/

def readTable {α : Type} (f : HTable → Exec α) : TableProgram α := .query fun s => f s.table

def writeTable (f : HTable → Exec HTable) : TableProgram Unit :=
  .update fun s => do
    let table ← f s.table
    return { s with table }

def accessTable {α : Type} (f : HTable → Exec (α × HTable)) : TableProgram α :=
  .access fun s => do
    let (a, table) ← f s.table
    return (a, { s with table })

def rand : TableProgram Nat := .access fun s => .ok (s.rands.head, { s with rands := s.rands.tail })

/-! ## 2. Internal utilities -/

variable (P : Platform)

def htableBucketPtr (key : CStr) : TableProgram Nat :=
  readTable fun t => .ok (Server.htableBucketPtr P t key)

def htableFetchItem (key : CStr) : TableProgram (Option (Addr × HTableItem)) := do
  let bucket ← htableBucketPtr P key
  mutexLock (.bucket bucket)
  match ← readTable (Server.htableFetchItem P · key) with
  | some p => return some p
  | none => do
      mutexUnlock (.bucket bucket)
      return none

def htableReleaseFile (key : CStr) : TableProgram Unit := do
  let bucket ← htableBucketPtr P key
  mutexUnlock (.bucket bucket)

def htableStatsLock : TableProgram Unit := mutexLock .stats

def htableStatsUnlock : TableProgram Unit := mutexUnlock .stats

/-! ## 3. Locking, opening and closing -/

def htableLockFile (key : CStr) (fd : Int) : TableProgram HTableError := do
  match ← htableFetchItem P key with
  | none => return .fileNotFound
  | some (a, item) =>
      let file := item.file
      if file.isLocked then do
        writeTable fun t => .ok (t.setFile a { file with subs := fd :: file.subs })
        htableReleaseFile P key
        return .okWait
      else if file.subs ≠ [] then
        stop .assertion
      else do
        writeTable fun t => .ok (t.setFile a { file with isLocked := true, fdOwner := fd })
        htableReleaseFile P key
        return .ok

def htableUnlockFile (key : CStr) (fd : Int) : TableProgram (HTableError × Int) := do
  match ← htableFetchItem P key with
  | none => return (.fileNotFound, -1)
  | some (a, item) =>
      let file := item.file
      if !file.isLocked then do
        htableReleaseFile P key
        return (.alreadyUnlocked, -1)
      else if file.fdOwner ≠ fd then do
        htableReleaseFile P key
        return (.okWait, -1)
      else
        match file.subs with
        | [] => do
            writeTable fun t => .ok (t.setFile a { file with isLocked := false })
            htableReleaseFile P key
            return (.ok, -1)
        | sub :: rest => do
            let file := { file with subs := rest, isLocked := true, fdOwner := sub }
            writeTable fun t => .ok (t.setFile a file)
            htableReleaseFile P key
            return (.ok, sub)

def htableOpenFile (key : CStr) (fd : Int) (lock : Bool) : TableProgram HTableError := do
  match ← htableFetchItem P key with
  | none => return .fileNotFound
  | some (a, item) =>
      let file := item.file
      if file.isOpen then do
        htableReleaseFile P key
        return .alreadyOpen
      else if file.isLocked ∧ file.fdOwner ≠ fd then do
        htableReleaseFile P key
        return .cantOpen
      else do
        let file := { file with isOpen := true, isLocked := lock, fdOwner := fd }
        writeTable fun t => .ok (t.setFile a file)
        htableReleaseFile P key
        htableStatsLock
        writeTable fun t => .ok { t with stats := t.stats.incOpen }
        htableStatsUnlock
        return .ok

def htableCloseFile (key : CStr) (fd : Int) : TableProgram HTableError := do
  match ← htableFetchItem P key with
  | none => return .fileNotFound
  | some (a, item) =>
      let file := item.file
      if !file.isOpen then do
        htableReleaseFile P key
        return .alreadyClosed
      else if file.isLocked ∧ file.fdOwner ≠ fd then do
        htableReleaseFile P key
        return .cantClose
      else do
        writeTable fun t => .ok (t.setFile a { file with isOpen := false })
        htableReleaseFile P key
        htableStatsLock
        writeTable fun t => .ok { t with stats := t.stats.decOpen }
        htableStatsUnlock
        return .ok

/-! ## 4. Creating and removing -/

def htableCreateFile (key : CStr) (fd : Int) (lock : Bool) : TableProgram HTableError := do
  match ← htableFetchItem P key with
  | some _ => do
      htableReleaseFile P key
      return .alreadyCreated
  | none => do
      let i ← htableBucketPtr P key
      -- no mutex is held here
      let bucket ← readTable (·.bucket i)
      mutexLock (.bucket i)
      writeTable (linkSection · i (newItem key fd lock bucket.head))
      mutexUnlock (.bucket i)
      htableStatsLock
      writeTable (createStatsSection · key)
      htableStatsUnlock
      return .ok

def htableOpenOrCreateFile (key : CStr) (fd : Int) (create lock : Bool) :
    TableProgram HTableError :=
  if create then htableCreateFile P key fd lock else htableOpenFile P key fd lock

def removeSection (key : CStr) (fd : Int) : TableProgram (HTableError ⊕ Nat) := do
  match ← htableFetchItem P key with
  | none => return .inl .fileNotFound
  | some (a, node) =>
      if node.file.isLocked ∧ node.file.fdOwner ≠ fd ∧ fd ≠ -1 then do
        htableReleaseFile P key
        return .inl .ok
      else do
        let bucket ← htableBucketPtr P key
        writeTable (unlinkItem · bucket a)
        writeTable fun t => .ok { t with items := t.items.free a }
        htableReleaseFile P key
        return .inr node.file.lengthInBytes

def htableRemoveFile (key : CStr) (fd : Int) : TableProgram HTableError := do
  match ← removeSection P key fd with
  | .inl code => return code
  | .inr sizeInBytes => do
      htableStatsLock
      writeTable fun t => .ok (removeStatsSection t sizeInBytes)
      htableStatsUnlock
      return .ok

/-! ## 5. Eviction policies -/

def htableEvictSingleFileFifo : TableProgram Ptr := do
  match ← accessTable fifoEvict with
  | none => return none
  | some key => do
      let bucket ← htableBucketPtr P key
      match ← htableFetchItem P key with
      | none => return none
      | some (a, _) => do
          writeTable (unlinkItem · bucket a)
          mutexUnlock (.bucket bucket)
          return some a

/-- What a draw does to its bucket. -/
def evictLast (r : Nat) (t : HTable) : Exec (Ptr × HTable) := do
  match ← segmentedTurn t r with
  | none => return (none, t)
  | some (a, t) => return (some a, t)

def segmentedRound : TableProgram (Unit ⊕ Addr) := do
  let itemsCount ← readTable fun t => .ok t.stats.itemsCount
  if itemsCount > 0 then do
    let r ← rand
    let i ← readTable fun t => .ok (r % t.buckets.length)
    mutexLock (.bucket i)
    match ← accessTable (evictLast r) with
    | none => do
        mutexUnlock (.bucket i)
        return .inl ()
    | some a => do
        mutexUnlock (.bucket i)
        return .inr a
  else
    stop .exit

def htableEvictSingleFileSegmentedFifo : TableProgram Addr := do
  let itemsCount ← readTable fun t => .ok t.stats.itemsCount
  if itemsCount = 0 then stop .assertion else repeatLoop (fun _ => segmentedRound) ()

def htableEvictSingleFile : TableProgram Ptr := do
  match ← readTable fun t => .ok t.policy with
  | .segmentedFifo => do
      let a ← htableEvictSingleFileSegmentedFifo
      return some a
  | .fifo => htableEvictSingleFileFifo P

def evictRound (evicted : List File) : TableProgram (List File) := do
  let evictedCount := (evicted.length + 1) % unsignedSize
  if !P.grants evicted.isEmpty (sizeofFile * evictedCount) then
    stop .exit
  else do
    match ← htableEvictSingleFile P with
    | none => stop .fault
    | some a => do
        let item ← readTable (·.items.load a)
        if evictedCount = 0 then
          stop .fault
        else do
          writeTable fun t =>
            .ok { t with stats := evictStats t.stats item.file, items := t.items.free a }
          return evicted ++ [item.file]

def evictTurn (evicted : List File) : TableProgram (List File ⊕ List File) := do
  let exceeds ← readTable fun t => .ok (decide t.exceedsLimits)
  if exceeds then do
    let evicted ← evictRound P evicted
    return .inl evicted
  else
    return .inr evicted

/-- However often the loop runs, `stats_guard` is held all the time. -/
def htableEvictFiles : TableProgram (List File) := do
  htableStatsLock
  let evicted ← repeatLoop (evictTurn P) []
  htableStatsUnlock
  return evicted

/-! ## 6. Writing -/

def replaceSection (key : CStr) (contents : List UInt8) : TableProgram (Option Nat) := do
  match ← htableFetchItem P key with
  | none => return none
  | some (a, item) => do
      let block ← readTable fun _ => xrealloc P item.file.contents contents.length
      let block ← readTable fun _ => memcpy block 0 contents
      let file := { item.file with contents := some block, lengthInBytes := contents.length }
      writeTable fun t => .ok (t.setFile a file)
      htableReleaseFile P key
      return some item.file.lengthInBytes

def htableReplaceFileContents (key : CStr) (contents : List UInt8) :
    TableProgram (HTableError × List File) := do
  match ← replaceSection P key contents with
  | none => return (.fileNotFound, [])
  | some oldSizeInBytes => do
      htableStatsLock
      writeTable fun t => .ok (replaceStatsSection t contents.length oldSizeInBytes)
      htableStatsUnlock
      let evicted ← htableEvictFiles P
      return (.ok, evicted)

def appendSection (key : CStr) (contents : List UInt8) : TableProgram Bool := do
  match ← htableFetchItem P key with
  | none => return false
  | some (a, item) => do
      let lengthInBytes := wadd item.file.lengthInBytes contents.length
      let block ← readTable fun _ => xrealloc P item.file.contents lengthInBytes
      let offset := wsub lengthInBytes contents.length
      let block ← readTable fun _ => memcpy block offset contents
      let file := { item.file with contents := some block, lengthInBytes }
      writeTable fun t => .ok (t.setFile a file)
      htableReleaseFile P key
      return true

def htableAppendToFileContents (key : CStr) (contents : List UInt8) :
    TableProgram (HTableError × List File) := do
  if ← appendSection P key contents then do
    htableStatsLock
    writeTable fun t => .ok (appendStatsSection t contents.length)
    htableStatsUnlock
    let evicted ← htableEvictFiles P
    return (.ok, evicted)
  else
    return (.fileNotFound, [])

/-! ## 7. One operation -/

/-- An operation and what its caller sees. -/
def exec : Op → TableProgram Outcome
  | .create key fd withLock => do
      let code ← htableOpenOrCreateFile P key fd true withLock
      return ⟨code, -1, []⟩
  | .open key fd withLock => do
      let code ← htableOpenOrCreateFile P key fd false withLock
      return ⟨code, -1, []⟩
  | .close key fd => do
      let code ← htableCloseFile P key fd
      return ⟨code, -1, []⟩
  | .lock key fd => do
      let code ← htableLockFile P key fd
      return ⟨code, -1, []⟩
  | .unlock key fd => do
      let (code, newOwner) ← htableUnlockFile P key fd
      return ⟨code, newOwner, []⟩
  | .remove key fd => do
      let code ← htableRemoveFile P key fd
      return ⟨code, -1, []⟩
  | .replace key contents => do
      let (code, evicted) ← htableReplaceFileContents P key contents
      return ⟨code, -1, evicted⟩
  | .append key contents => do
      let (code, evicted) ← htableAppendToFileContents P key contents
      return ⟨code, -1, evicted⟩

/-- A thread that runs one operation after the other. -/
def execAll : List Op → TableProgram Unit
  | [] => return ()
  | op :: ops => do
      let _ ← exec P op
      execAll ops

/-! ## 8. Without other threads -/

section

variable {P} {α β ε : Type} {t : HTable} {r : Stream' Nat} {e : Exec ε} {key : CStr} {fd : Int}
  {view : ε → α × SharedTable}

theorem readTable_computes {f : HTable → Exec β} {k : β → TableProgram α} {g : β → Exec ε}
    (hk : ∀ b, f t = .ok b → Computes ⟨t, r⟩ (k b) (g b) view) :
    Computes ⟨t, r⟩ (readTable f >>= k) (f t >>= g) view :=
  .access (fun b => (b, ⟨t, r⟩)) (by cases hf : f t <;> simp [hf, Except.map]) hk

theorem writeTable_computes {f : HTable → Exec HTable} {k : Unit → TableProgram α}
    {g : HTable → Exec ε} (hk : ∀ t₁, f t = .ok t₁ → Computes ⟨t₁, r⟩ (k ()) (g t₁) view) :
    Computes ⟨t, r⟩ (writeTable f >>= k) (f t >>= g) view :=
  .access (fun t₁ => ((), ⟨t₁, r⟩)) (by cases hf : f t <;> simp [hf, Except.map]) hk

theorem accessTable_computes {f : HTable → Exec (β × HTable)} {k : β → TableProgram α}
    {g : β × HTable → Exec ε}
    (hk : ∀ p, f t = .ok p → Computes ⟨p.2, r⟩ (k p.1) (g p) view) :
    Computes ⟨t, r⟩ (accessTable f >>= k) (f t >>= g) view :=
  .access (fun p => (p.1, ⟨p.2, r⟩)) (by cases f t <;> rfl) hk

/-- A field of the table is read. -/
theorem field_computes {f : HTable → β} {k : β → TableProgram α}
    (hk : Computes ⟨t, r⟩ (k (f t)) e view) :
    Computes ⟨t, r⟩ (readTable (fun t => .ok (f t)) >>= k) e view := .step rfl hk

/-- Fields of the table are written. -/
theorem set_computes {f : HTable → HTable} {k : Unit → TableProgram α}
    (hk : Computes ⟨f t, r⟩ (k ()) e view) :
    Computes ⟨t, r⟩ (writeTable (fun t => .ok (f t)) >>= k) e view := .step rfl hk

theorem rand_computes {n : Nat} {k : Nat → TableProgram α} (hk : Computes ⟨t, r⟩ (k n) e view) :
    Computes ⟨t, Stream'.cons n r⟩ (rand >>= k) e view := .step rfl hk

theorem fetchItem_computes :
    Computes ⟨t, r⟩ (htableFetchItem P key) (Server.htableFetchItem P t key)
      fun node => (node, ⟨t, r⟩) := by
  rw [← bind_pure (Server.htableFetchItem P t key)]
  apply field_computes
  apply Computes.lock
  apply readTable_computes
  intro node _
  cases node with
  | some p => exact .pure rfl
  | none =>
    apply Computes.unlock
    exact .pure rfl

theorem releaseFile_computes {k : Unit → TableProgram α} (hk : Computes ⟨t, r⟩ (k ()) e view) :
    Computes ⟨t, r⟩ (htableReleaseFile P key >>= k) e view := fun d hd =>
  Returns.bind (.act rfl (.unlock .pure)) (hk d hd)

theorem stats_computes {f : HTable → HTable} {k : Unit → TableProgram α}
    (hk : Computes ⟨f t, r⟩ (k ()) e view) :
    Computes ⟨t, r⟩ (htableStatsLock >>= fun _ => writeTable (fun t => .ok (f t)) >>= fun _ =>
      htableStatsUnlock >>= k) e view := by
  apply Computes.lock
  apply set_computes
  exact .unlock hk

theorem lockFile_computes : Computes ⟨t, r⟩ (htableLockFile P key fd)
    (Server.htableLockFile P t key fd) fun p => (p.1, ⟨p.2, r⟩) := by
  apply fetchItem_computes.bind
  intro node _
  cases node with
  | none => exact .pure rfl
  | some p =>
    apply Computes.ite
    · intro _
      apply set_computes
      apply releaseFile_computes
      exact .pure rfl
    · intro _
      apply Computes.ite
      · intro _
        exact .throw _
      · intro _
        apply set_computes
        apply releaseFile_computes
        exact .pure rfl

theorem unlockFile_computes : Computes ⟨t, r⟩ (htableUnlockFile P key fd)
    (Server.htableUnlockFile P t key fd) fun p => ((p.1, p.2.1), ⟨p.2.2, r⟩) := by
  apply fetchItem_computes.bind
  intro node _
  cases node with
  | none => exact .pure rfl
  | some p =>
    apply Computes.ite
    · intro _
      apply releaseFile_computes
      exact .pure rfl
    · intro _
      apply Computes.ite
      · intro _
        apply releaseFile_computes
        exact .pure rfl
      · intro _
        cases p.2.file.subs with
        | nil =>
          apply set_computes
          apply releaseFile_computes
          exact .pure rfl
        | cons sub rest =>
          apply set_computes
          apply releaseFile_computes
          exact .pure rfl

theorem openFile_computes {lock : Bool} : Computes ⟨t, r⟩ (htableOpenFile P key fd lock)
    (Server.htableOpenFile P t key fd lock) fun p => (p.1, ⟨p.2, r⟩) := by
  apply fetchItem_computes.bind
  intro node _
  cases node with
  | none => exact .pure rfl
  | some p =>
    apply Computes.ite
    · intro _
      apply releaseFile_computes
      exact .pure rfl
    · intro _
      apply Computes.ite
      · intro _
        apply releaseFile_computes
        exact .pure rfl
      · intro _
        apply set_computes
        apply releaseFile_computes
        apply stats_computes
        exact .pure rfl

theorem closeFile_computes : Computes ⟨t, r⟩ (htableCloseFile P key fd)
    (Server.htableCloseFile P t key fd) fun p => (p.1, ⟨p.2, r⟩) := by
  apply fetchItem_computes.bind
  intro node _
  cases node with
  | none => exact .pure rfl
  | some p =>
    apply Computes.ite
    · intro _
      apply releaseFile_computes
      exact .pure rfl
    · intro _
      apply Computes.ite
      · intro _
        apply releaseFile_computes
        exact .pure rfl
      · intro _
        apply set_computes
        apply releaseFile_computes
        apply stats_computes
        exact .pure rfl

theorem createFile_computes {lock : Bool} : Computes ⟨t, r⟩ (htableCreateFile P key fd lock)
    (Server.htableCreateFile P t key fd lock) fun p => (p.1, ⟨p.2, r⟩) := by
  apply fetchItem_computes.bind
  intro node _
  cases node with
  | some p =>
    apply releaseFile_computes
    exact .pure rfl
  | none =>
    apply field_computes
    apply readTable_computes
    intro bucket _
    apply Computes.lock
    apply writeTable_computes
    intro t₁ _
    apply Computes.unlock
    apply Computes.lock
    apply writeTable_computes
    intro t₂ _
    apply Computes.unlock
    exact .pure rfl

theorem removeSection_computes : Computes ⟨t, r⟩ (removeSection P key fd)
    (Server.removeSection P t key fd) fun p => (p.1, ⟨p.2, r⟩) := by
  apply fetchItem_computes.bind
  intro node _
  cases node with
  | none => exact .pure rfl
  | some p =>
    apply Computes.ite
    · intro _
      apply releaseFile_computes
      exact .pure rfl
    · intro _
      apply field_computes
      apply writeTable_computes
      intro t₁ _
      apply set_computes
      apply releaseFile_computes
      exact .pure rfl

theorem removeFile_computes : Computes ⟨t, r⟩ (htableRemoveFile P key fd)
    (Server.htableRemoveFile P t key fd) fun p => (p.1, ⟨p.2, r⟩) := by
  apply removeSection_computes.bind
  rintro ⟨code | sizeInBytes, t₁⟩ _
  · exact .pure rfl
  · apply stats_computes
    exact .pure rfl

theorem replaceSection_computes {contents : List UInt8} :
    Computes ⟨t, r⟩ (replaceSection P key contents) (Server.replaceSection P t key contents)
      fun p => (p.map Prod.snd, ⟨p.elim t Prod.fst, r⟩) := by
  apply fetchItem_computes.bind
  intro node _
  cases node with
  | none => exact .pure rfl
  | some p =>
    apply readTable_computes
    intro block _
    apply readTable_computes
    intro block _
    apply set_computes
    apply releaseFile_computes
    exact .pure rfl

theorem appendSection_computes {contents : List UInt8} :
    Computes ⟨t, r⟩ (appendSection P key contents) (Server.appendSection P t key contents)
      fun p => (p.isSome, ⟨p.getD t, r⟩) := by
  apply fetchItem_computes.bind
  intro node _
  cases node with
  | none => exact .pure rfl
  | some p =>
    apply readTable_computes
    intro block _
    apply readTable_computes
    intro block _
    apply set_computes
    apply releaseFile_computes
    exact .pure rfl

/-! ## 9. The evictions without other threads -/

theorem evictSingleFifo_computes : Computes ⟨t, r⟩ (htableEvictSingleFileFifo P)
    (Server.htableEvictSingleFileFifo P t) fun p => (p.1, ⟨p.2, r⟩) := by
  apply accessTable_computes
  rintro ⟨key, t₁⟩ _
  cases key with
  | none => exact .pure rfl
  | some key =>
    apply field_computes
    apply fetchItem_computes.bind
    intro node _
    cases node with
    | none => exact .pure rfl
    | some p =>
      apply writeTable_computes
      intro t₂ _
      apply Computes.unlock
      exact .pure rfl

theorem segmentedRound_computes {n : Nat} (hitems : 0 < t.stats.itemsCount) :
    Computes ⟨t, Stream'.cons n r⟩ segmentedRound (segmentedTurn t n) fun turn =>
      turn.elim (.inl (), ⟨t, r⟩) fun p => (.inr p.1, ⟨p.2, r⟩) := by
  rw [← bind_pure (segmentedTurn t n)]
  apply field_computes
  show Computes _ (if t.stats.itemsCount > 0 then _ else _) _ _
  rw [if_pos hitems]
  apply rand_computes
  apply field_computes
  apply Computes.lock
  refine .access (fun turn => turn.elim (none, ⟨t, r⟩) fun p => (some p.1, ⟨p.2, r⟩)) ?_ ?_
  · cases hturn : segmentedTurn t n with
    | error e => simp [evictLast, hturn, Except.map]
    | ok turn => cases turn <;> simp [evictLast, hturn, Except.map]
  · intro turn _
    cases turn with
    | none =>
      apply Computes.unlock
      exact .pure rfl
    | some p =>
      apply Computes.unlock
      exact .pure rfl

variable {c : Stream' Nat}

/-- The table and the stream that are left when the rest of the draws is `rands`. -/
def after (t : HTable) (rands : List Nat) (c : Stream' Nat) : SharedTable :=
  ⟨t, Stream'.appendStream' rands c⟩

theorem segmentedLoop_computes {rands : List Nat} (hitems : 0 < t.stats.itemsCount) :
    Computes (after t rands c) (repeatLoop (fun _ => segmentedRound) ())
      (segmentedLoop t rands) fun p => (p.1, after p.2.1 p.2.2 c) := by
  induction rands with
  | nil => exact .throw _
  | cons n rands ih =>
    intro d hd
    rw [segmentedLoop_cons] at hd
    obtain ⟨turn, hturn, hd⟩ := Exec.bind_eq_ok.mp hd
    have hround := segmentedRound_computes (r := Stream'.appendStream' rands c) hitems turn hturn
    cases turn with
    | none => exact .again hround (ih d hd)
    | some p =>
      cases hd
      exact .done hround

theorem evictSingleSegmented_computes {rands : List Nat} :
    Computes (after t rands c) htableEvictSingleFileSegmentedFifo
      (Server.htableEvictSingleFileSegmentedFifo t rands) fun p => (p.1, after p.2.1 p.2.2 c) := by
  apply field_computes
  apply Computes.ite
  · intro _
    exact .throw _
  · intro hitems
    exact segmentedLoop_computes (Nat.pos_of_ne_zero hitems)

theorem evictSingle_computes {rands : List Nat} :
    Computes (after t rands c) (htableEvictSingleFile P) (Server.htableEvictSingleFile P t rands)
      fun p => (p.1, after p.2.1 p.2.2 c) := by
  apply field_computes
  unfold Server.htableEvictSingleFile
  cases t.policy with
  | segmentedFifo =>
    apply evictSingleSegmented_computes.bind
    intro p _
    exact .pure rfl
  | fifo =>
    intro d hd
    obtain ⟨p, hp, hd⟩ := Exec.bind_eq_ok.mp hd
    cases hd
    exact evictSingleFifo_computes p hp

theorem evictRound_computes {evicted : List File} {rands : List Nat} :
    Computes (after t rands c) (evictRound P evicted) (Server.evictRound P t evicted rands)
      fun p => (p.2.1, after p.1 p.2.2 c) := by
  apply Computes.ite
  · intro _
    exact .throw _
  · intro _
    apply evictSingle_computes.bind
    rintro ⟨p, t₁, rands₁⟩ _
    cases p with
    | none => exact .throw _
    | some a =>
      apply readTable_computes
      intro item _
      apply Computes.ite
      · intro _
        exact .throw _
      · intro _
        apply set_computes
        exact .pure rfl

theorem evictTurn_last {evicted : List File} {s : SharedTable} (hfits : ¬s.table.exceedsLimits) :
    (evictTurn P evicted).Returns s (.inr evicted) s := by
  refine .act rfl ?_
  show Returns (if decide s.table.exceedsLimits = true then _ else _) _ _ _
  rw [if_neg (by simpa using hfits)]
  exact .pure

theorem evictTurn_next {evicted evicted₁ : List File} {s s₁ : SharedTable}
    (hexceeds : s.table.exceedsLimits) (hround : (evictRound P evicted).Returns s evicted₁ s₁) :
    (evictTurn P evicted).Returns s (.inl evicted₁) s₁ := by
  refine .act rfl ?_
  show Returns (if decide s.table.exceedsLimits = true then _ else _) _ _ _
  rw [if_pos (by simpa using hexceeds)]
  exact hround.bind .pure

theorem evictLoop_computes {fuel : Nat} {evicted : List File} {rands : List Nat} :
    Computes (after t rands c) (repeatLoop (evictTurn P) evicted)
      (evictLoop P fuel t evicted rands) fun p => (p.2.1, after p.1 p.2.2 c) := by
  induction fuel generalizing t evicted rands with
  | zero =>
    intro d hd
    unfold evictLoop at hd
    split at hd
    · cases hd
    · cases hd
      exact .done (evictTurn_last ‹_›)
  | succ fuel ih =>
    intro d hd
    unfold evictLoop at hd
    split at hd
    · obtain ⟨⟨t₁, evicted₁, rands₁⟩, hround, hd⟩ := Exec.bind_eq_ok.mp hd
      exact .again (evictTurn_next ‹_› (evictRound_computes _ hround)) (ih d hd)
    · cases hd
      exact .done (evictTurn_last ‹_›)

theorem evictFiles_returns {rands : List Nat} {evicted : List File} {t' : HTable}
    (hx : Server.htableEvictFiles P t rands = .ok (evicted, t')) :
    ∃ rands', (htableEvictFiles P).Returns (after t rands c) evicted (after t' rands' c) := by
  obtain ⟨⟨t₁, evicted₁, rands'⟩, hloop, hx⟩ := Exec.bind_eq_ok.mp hx
  cases hx
  exact ⟨rands', .mutexLock ((evictLoop_computes _ hloop).bind (.mutexUnlock .pure))⟩

/-! ## 10. One operation without other threads -/

/-- What both writes end with: the statistics under their guard, and the eviction. -/
theorem evictBehindStats_returns (stats : HTable → HTable) {rands : List Nat} {evicted : List File}
    {t' : HTable} (hx : Server.htableEvictFiles P (stats t) rands = .ok (evicted, t')) :
    ∃ rands', ((do
      htableStatsLock
      writeTable fun t => .ok (stats t)
      htableStatsUnlock
      let evicted ← htableEvictFiles P
      return (.ok, evicted)) : TableProgram (HTableError × List File)).Returns
        (after t rands c) (.ok, evicted) (after t' rands' c) := by
  obtain ⟨rands', hlast⟩ := evictFiles_returns (c := c) hx
  exact ⟨rands', .mutexLock (.act rfl (.mutexUnlock (hlast.bind .pure)))⟩

theorem replaceFileContents_returns {contents : List UInt8} {rands : List Nat} {code : HTableError}
    {evicted : List File} {t' : HTable}
    (hx : Server.htableReplaceFileContents P t key contents rands = .ok (code, evicted, t')) :
    ∃ rands', (htableReplaceFileContents P key contents).Returns (after t rands c) (code, evicted)
      (after t' rands' c) := by
  obtain ⟨p, hsection, hx⟩ := Exec.bind_eq_ok.mp hx
  have hfirst := replaceSection_computes (r := Stream'.appendStream' rands c) p hsection
  cases p with
  | none =>
    cases hx
    exact ⟨rands, hfirst.bind .pure⟩
  | some p =>
    obtain ⟨⟨evicted₁, t₁⟩, hevict, hx⟩ := Exec.bind_eq_ok.mp hx
    cases hx
    obtain ⟨rands', hlast⟩ := evictBehindStats_returns
      (replaceStatsSection · contents.length p.2) hevict
    exact ⟨rands', hfirst.bind hlast⟩

theorem appendToFileContents_returns {contents : List UInt8} {rands : List Nat}
    {code : HTableError} {evicted : List File} {t' : HTable}
    (hx : Server.htableAppendToFileContents P t key contents rands = .ok (code, evicted, t')) :
    ∃ rands', (htableAppendToFileContents P key contents).Returns (after t rands c) (code, evicted)
      (after t' rands' c) := by
  obtain ⟨p, hsection, hx⟩ := Exec.bind_eq_ok.mp hx
  have hfirst := appendSection_computes (r := Stream'.appendStream' rands c) p hsection
  cases p with
  | none =>
    cases hx
    exact ⟨rands, hfirst.bind .pure⟩
  | some p =>
    obtain ⟨⟨evicted₁, t₁⟩, hevict, hx⟩ := Exec.bind_eq_ok.mp hx
    cases hx
    obtain ⟨rands', hlast⟩ := evictBehindStats_returns
      (appendStatsSection · contents.length) hevict
    exact ⟨rands', hfirst.bind hlast⟩

/-- Without other threads an operation does what `Op.exec` does, whatever is drawn later. -/
theorem exec_returns {op : Op} {rands : List Nat} {out : Outcome} {t' : HTable}
    (hx : op.exec P t rands = .ok (out, t')) :
    ∃ rands', (exec P op).Returns (after t rands c) out (after t' rands' c) := by
  cases op with
  | create key fd withLock =>
    obtain ⟨p, hp, hx⟩ := Exec.bind_eq_ok.mp hx
    cases hx
    exact ⟨rands, Returns.bind (createFile_computes p hp) .pure⟩
  | «open» key fd withLock =>
    obtain ⟨p, hp, hx⟩ := Exec.bind_eq_ok.mp hx
    cases hx
    exact ⟨rands, Returns.bind (openFile_computes p hp) .pure⟩
  | close key fd =>
    obtain ⟨p, hp, hx⟩ := Exec.bind_eq_ok.mp hx
    cases hx
    exact ⟨rands, Returns.bind (closeFile_computes p hp) .pure⟩
  | lock key fd =>
    obtain ⟨p, hp, hx⟩ := Exec.bind_eq_ok.mp hx
    cases hx
    exact ⟨rands, Returns.bind (lockFile_computes p hp) .pure⟩
  | unlock key fd =>
    obtain ⟨p, hp, hx⟩ := Exec.bind_eq_ok.mp hx
    cases hx
    exact ⟨rands, Returns.bind (unlockFile_computes p hp) .pure⟩
  | remove key fd =>
    obtain ⟨p, hp, hx⟩ := Exec.bind_eq_ok.mp hx
    cases hx
    exact ⟨rands, Returns.bind (removeFile_computes p hp) .pure⟩
  | replace key contents =>
    obtain ⟨⟨code, evicted, t₁⟩, hp, hx⟩ := Exec.bind_eq_ok.mp hx
    cases hx
    obtain ⟨rands', hreturns⟩ := replaceFileContents_returns (c := c) hp
    exact ⟨rands', hreturns.bind .pure⟩
  | append key contents =>
    obtain ⟨⟨code, evicted, t₁⟩, hp, hx⟩ := Exec.bind_eq_ok.mp hx
    cases hx
    obtain ⟨rands', hreturns⟩ := appendToFileContents_returns (c := c) hp
    exact ⟨rands', hreturns.bind .pure⟩

end

end TableProgram

end FileStorage.Server
