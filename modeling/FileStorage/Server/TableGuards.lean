import FileStorage.Mutexes
import FileStorage.Server.Htable

/-!
# TableGuards — the table's mutexes

The operations of `Htable`, now with the mutex calls that the source makes around and between their
sections.  Apart from these calls each of them is the operation of `Htable` with the same name.
-/

namespace FileStorage.Server

open Memory

/-- `guard` of a bucket and `stats_guard`. -/
inductive Guard where
  | bucket (i : Nat)
  | stats
deriving DecidableEq, Repr

namespace Guarded

variable {σ : Type}

/-! ## 1. Internal utilities -/

/-- The bucket stays locked when the item is found. -/
def htableFetchItem (P : Platform) (t : HTable) (key : CStr) :
    Locking Guard σ (Option (Addr × HTableItem)) := do
  let bucket := Guard.bucket (htableBucketPtr P t key)
  pthreadMutexLock bucket
  match ← Server.htableFetchItem P t key with
  | some p => return some p
  | none => do
      pthreadMutexUnlock bucket
      return none

def htableFetchFile (P : Platform) (t : HTable) (key : CStr) : Locking Guard σ (Option File) := do
  let node ← htableFetchItem P t key
  return node.map fun p => p.2.file

def htableReleaseFile (P : Platform) (t : HTable) (key : CStr) : Locking Guard σ Unit :=
  pthreadMutexUnlock (.bucket (htableBucketPtr P t key))

def htableStatsLock : Locking Guard σ Unit := pthreadMutexLock .stats

def htableStatsUnlock : Locking Guard σ Unit := pthreadMutexUnlock .stats

/-! ## 2. Locking, opening and closing -/

def htableLockFile (P : Platform) (t : HTable) (key : CStr) (fd : Int) :
    Locking Guard σ (HTableError × HTable) := do
  match ← htableFetchItem P t key with
  | none => return (.fileNotFound, t)
  | some (a, item) =>
      let file := item.file
      -- one more waiter
      if file.isLocked then do
        let t := t.setFile a { file with subs := fd :: file.subs }
        htableReleaseFile P t key
        return (.okWait, t)
      else if file.subs ≠ [] then
        throw .assertion
      else do
        let t := t.setFile a { file with isLocked := true, fdOwner := fd }
        htableReleaseFile P t key
        return (.ok, t)

def htableUnlockFile (P : Platform) (t : HTable) (key : CStr) (fd : Int) :
    Locking Guard σ (HTableError × Int × HTable) := do
  match ← htableFetchItem P t key with
  | none => return (.fileNotFound, -1, t)
  | some (a, item) =>
      let file := item.file
      if !file.isLocked then do
        htableReleaseFile P t key
        return (.alreadyUnlocked, -1, t)
      else if file.fdOwner ≠ fd then do
        htableReleaseFile P t key
        return (.okWait, -1, t)
      else
        match file.subs with
        | [] => do
            let t := t.setFile a { file with isLocked := false }
            htableReleaseFile P t key
            return (.ok, -1, t)
        | sub :: rest => do
            let file := { file with subs := rest, isLocked := true, fdOwner := sub }
            let t := t.setFile a file
            htableReleaseFile P t key
            return (.ok, sub, t)

def htableOpenFile (P : Platform) (t : HTable) (key : CStr) (fd : Int) (lock : Bool) :
    Locking Guard σ (HTableError × HTable) := do
  match ← htableFetchItem P t key with
  | none => return (.fileNotFound, t)
  | some (a, item) =>
      let file := item.file
      if file.isOpen then do
        htableReleaseFile P t key
        return (.alreadyOpen, t)
      else if file.isLocked ∧ file.fdOwner ≠ fd then do
        htableReleaseFile P t key
        return (.cantOpen, t)
      else do
        let t := t.setFile a { file with isOpen := true, isLocked := lock, fdOwner := fd }
        htableReleaseFile P t key
        htableStatsLock
        let t := { t with stats := t.stats.incOpen }
        htableStatsUnlock
        return (.ok, t)

def htableCloseFile (P : Platform) (t : HTable) (key : CStr) (fd : Int) :
    Locking Guard σ (HTableError × HTable) := do
  match ← htableFetchItem P t key with
  | none => return (.fileNotFound, t)
  | some (a, item) =>
      let file := item.file
      if !file.isOpen then do
        htableReleaseFile P t key
        return (.alreadyClosed, t)
      else if file.isLocked ∧ file.fdOwner ≠ fd then do
        htableReleaseFile P t key
        return (.cantClose, t)
      else do
        let t := t.setFile a { file with isOpen := false }
        htableReleaseFile P t key
        htableStatsLock
        let t := { t with stats := t.stats.decOpen }
        htableStatsUnlock
        return (.ok, t)

/-! ## 3. Creating and removing -/

/-- The bucket is locked once for the search and once more to link the item. -/
def htableCreateFile (P : Platform) (t : HTable) (key : CStr) (fd : Int) (lock : Bool) :
    Locking Guard σ (HTableError × HTable) := do
  match ← htableFetchItem P t key with
  | some _ => do
      htableReleaseFile P t key
      return (.alreadyCreated, t)
  | none => do
      let i := htableBucketPtr P t key
      -- `bucket->head` is read while no mutex is held
      let bucket ← t.bucket i
      pthreadMutexLock (.bucket i)
      let t ← linkSection t i (newItem key fd lock bucket.head)
      pthreadMutexUnlock (.bucket i)
      htableStatsLock
      let t ← createStatsSection t key
      htableStatsUnlock
      return (.ok, t)

def htableOpenOrCreateFile (P : Platform) (t : HTable) (key : CStr) (fd : Int)
    (create lock : Bool) : Locking Guard σ (HTableError × HTable) :=
  if create then htableCreateFile P t key fd lock else htableOpenFile P t key fd lock

def removeSection (P : Platform) (t : HTable) (key : CStr) (fd : Int) :
    Locking Guard σ ((HTableError ⊕ Nat) × HTable) := do
  match ← htableFetchItem P t key with
  | none => return (.inl .fileNotFound, t)
  | some (a, node) =>
      if node.file.isLocked ∧ node.file.fdOwner ≠ fd ∧ fd ≠ -1 then do
        htableReleaseFile P t key
        return (.inl .ok, t)
      else do
        let t ← unlinkItem t (htableBucketPtr P t key) a
        let t := { t with items := t.items.free a }
        htableReleaseFile P t key
        return (.inr node.file.lengthInBytes, t)

def htableRemoveFile (P : Platform) (t : HTable) (key : CStr) (fd : Int) :
    Locking Guard σ (HTableError × HTable) := do
  match ← removeSection P t key fd with
  | (.inl code, t) => return (code, t)
  | (.inr sizeInBytes, t) => do
      htableStatsLock
      let t := removeStatsSection t sizeInBytes
      htableStatsUnlock
      return (.ok, t)

/-! ## 4. Eviction policies -/

def htableEvictSingleFileFifo (P : Platform) (t : HTable) : Locking Guard σ (Ptr × HTable) := do
  match ← fifoEvict t with
  | (none, t) => return (none, t)
  | (some key, t) => do
      let bucket := htableBucketPtr P t key
      match ← htableFetchItem P t key with
      | none => return (none, t)
      | some (a, _) => do
          let t ← unlinkItem t bucket a
          pthreadMutexUnlock (.bucket bucket)
          return (some a, t)

def segmentedLoop (t : HTable) : List Nat → Locking Guard σ (Addr × HTable × List Nat)
  | [] => throw .diverge
  | r :: rands => do
      let i := r % t.buckets.length
      pthreadMutexLock (.bucket i)
      let bucket ← t.bucket i
      match bucket.last with
      | none =>
          if bucket.head.isSome then
            throw .assertion
          else do
            pthreadMutexUnlock (.bucket i)
            -- an empty bucket, another one is drawn
            segmentedLoop t rands
      | some a => do
          let item ← t.items.load a
          let t ←
            match item.prev with
            | some p => do
                let t := t.setBucket i fun bucket => { bucket with last := item.prev }
                t.storeItem p fun item => { item with next := none }
            | none => pure (t.setBucket i fun _ => ⟨none, none⟩)
          let t ← t.storeItem a fun item => { item with next := none, prev := none }
          pthreadMutexUnlock (.bucket i)
          return (a, t, rands)

def htableEvictSingleFileSegmentedFifo (t : HTable) (rands : List Nat) :
    Locking Guard σ (Addr × HTable × List Nat) :=
  if t.stats.itemsCount = 0 then throw .assertion else segmentedLoop t rands

def htableEvictSingleFile (P : Platform) (t : HTable) (rands : List Nat) :
    Locking Guard σ (Ptr × HTable × List Nat) :=
  match t.policy with
  | .segmentedFifo => do
      let (a, t, rands) ← htableEvictSingleFileSegmentedFifo t rands
      return (some a, t, rands)
  | .fifo => do
      let (p, t) ← htableEvictSingleFileFifo P t
      return (p, t, rands)

def evictRound (P : Platform) (t : HTable) (evicted : List File) (rands : List Nat) :
    Locking Guard σ (HTable × List File × List Nat) := do
  let evictedCount := (evicted.length + 1) % unsignedSize
  if !P.grants evicted.isEmpty (sizeofFile * evictedCount) then
    throw .exit
  else do
    let (evictedItem, t, rands) ← htableEvictSingleFile P t rands
    match evictedItem with
    | none => throw .fault
    | some a => do
        let item ← t.items.load a
        -- the counter has wrapped, and there is no room for the item
        if evictedCount = 0 then
          throw .fault
        else
          let t := { t with stats := evictStats t.stats item.file, items := t.items.free a }
          return (t, evicted ++ [item.file], rands)

def evictLoop (P : Platform) : Nat → HTable → List File → List Nat →
    Locking Guard σ (HTable × List File × List Nat)
  | 0, t, evicted, rands => if t.exceedsLimits then throw .diverge else pure (t, evicted, rands)
  | fuel + 1, t, evicted, rands =>
      if t.exceedsLimits then do
        let (t, evicted, rands) ← evictRound P t evicted rands
        evictLoop P fuel t evicted rands
      else
        pure (t, evicted, rands)

/-- `stats_guard` is held for the whole of the eviction loop. -/
def htableEvictFiles (P : Platform) (t : HTable) (rands : List Nat) :
    Locking Guard σ (List File × HTable) := do
  htableStatsLock
  let (t, evicted, _) ← evictLoop P (t.items.live + 1) t [] rands
  htableStatsUnlock
  return (evicted, t)

/-! ## 5. Writing -/

def replaceSection (P : Platform) (t : HTable) (key : CStr) (contents : List UInt8) :
    Locking Guard σ (Option (HTable × Nat)) := do
  match ← htableFetchItem P t key with
  | none => return none
  | some (a, item) => do
      let block ← xrealloc P item.file.contents contents.length
      let block ← memcpy block 0 contents
      let file := { item.file with contents := some block, lengthInBytes := contents.length }
      let t := t.setFile a file
      htableReleaseFile P t key
      return some (t, item.file.lengthInBytes)

def htableReplaceFileContents (P : Platform) (t : HTable) (key : CStr) (contents : List UInt8)
    (rands : List Nat) : Locking Guard σ (HTableError × List File × HTable) := do
  match ← replaceSection P t key contents with
  | none => return (.fileNotFound, [], t)
  | some (t, oldSizeInBytes) => do
      htableStatsLock
      let t := replaceStatsSection t contents.length oldSizeInBytes
      htableStatsUnlock
      let (evicted, t) ← htableEvictFiles P t rands
      return (.ok, evicted, t)

def appendSection (P : Platform) (t : HTable) (key : CStr) (contents : List UInt8) :
    Locking Guard σ (Option HTable) := do
  match ← htableFetchItem P t key with
  | none => return none
  | some (a, item) => do
      let lengthInBytes := wadd item.file.lengthInBytes contents.length
      let block ← xrealloc P item.file.contents lengthInBytes
      let block ← memcpy block (wsub lengthInBytes contents.length) contents
      let t := t.setFile a { item.file with contents := some block, lengthInBytes }
      htableReleaseFile P t key
      return some t

def htableAppendToFileContents (P : Platform) (t : HTable) (key : CStr) (contents : List UInt8)
    (rands : List Nat) : Locking Guard σ (HTableError × List File × HTable) := do
  match ← appendSection P t key contents with
  | none => return (.fileNotFound, [], t)
  | some t => do
      htableStatsLock
      let t := appendStatsSection t contents.length
      htableStatsUnlock
      let (evicted, t) ← htableEvictFiles P t rands
      return (.ok, evicted, t)

/-- `Op.exec` with the mutex calls of the operation. -/
def exec (P : Platform) (t : HTable) (rands : List Nat) : Op → Locking Guard σ (Outcome × HTable)
  | .create key fd withLock => do
      let (code, t) ← htableOpenOrCreateFile P t key fd true withLock
      return (⟨code, -1, []⟩, t)
  | .open key fd withLock => do
      let (code, t) ← htableOpenOrCreateFile P t key fd false withLock
      return (⟨code, -1, []⟩, t)
  | .close key fd => do
      let (code, t) ← htableCloseFile P t key fd
      return (⟨code, -1, []⟩, t)
  | .lock key fd => do
      let (code, t) ← htableLockFile P t key fd
      return (⟨code, -1, []⟩, t)
  | .unlock key fd => do
      let (code, newOwner, t) ← htableUnlockFile P t key fd
      return (⟨code, newOwner, []⟩, t)
  | .remove key fd => do
      let (code, t) ← htableRemoveFile P t key fd
      return (⟨code, -1, []⟩, t)
  | .replace key contents => do
      let (code, evicted, t) ← htableReplaceFileContents P t key contents rands
      return (⟨code, -1, evicted⟩, t)
  | .append key contents => do
      let (code, evicted, t) ← htableAppendToFileContents P t key contents rands
      return (⟨code, -1, evicted⟩, t)

/-! ## 6. What the operations compute -/

section

variable {P : Platform} {t : HTable} {held : List Guard} {key : CStr} {fd : Int}

theorem fetchItem_implements (hfree : .bucket (htableBucketPtr P t key) ∉ held) :
    Implements held (htableFetchItem P t key : Locking Guard σ _) (Server.htableFetchItem P t key)
      fun node => node.elim held fun _ => .bucket (htableBucketPtr P t key) :: held := by
  rw [← bind_pure (Server.htableFetchItem P t key)]
  apply Implements.lock hfree
  apply Implements.bind (.lift _)
  intro node _
  cases node with
  | none =>
    apply Implements.unlock
    exact .pure _ rfl
  | some p => exact .pure _ rfl

theorem fetchFile_implements (hfree : .bucket (htableBucketPtr P t key) ∉ held) :
    Implements held (htableFetchFile P t key : Locking Guard σ _) (Server.htableFetchFile P t key)
      fun file => file.elim held fun _ => .bucket (htableBucketPtr P t key) :: held := by
  apply Implements.bind (fetchItem_implements hfree)
  intro node _
  cases node with
  | none => exact .pure _ rfl
  | some p => exact .pure _ rfl

/-- Nothing is held when an operation starts, and nothing when it returns. -/
theorem lockFile_implements :
    Implements [] (htableLockFile P t key fd : Locking Guard σ _) (Server.htableLockFile P t key fd)
      fun _ => [] := by
  apply Implements.bind (fetchItem_implements List.not_mem_nil)
  intro node _
  cases node with
  | none => exact .pure _ rfl
  | some p =>
    apply Implements.ite
    · intro _
      apply Implements.unlock
      exact .pure _ rfl
    · intro _
      apply Implements.ite
      · intro _
        exact .throw _
      · intro _
        apply Implements.unlock
        exact .pure _ rfl

theorem unlockFile_implements :
    Implements [] (htableUnlockFile P t key fd : Locking Guard σ _)
      (Server.htableUnlockFile P t key fd) fun _ => [] := by
  apply Implements.bind (fetchItem_implements List.not_mem_nil)
  intro node _
  cases node with
  | none => exact .pure _ rfl
  | some p =>
    apply Implements.ite
    · intro _
      apply Implements.unlock
      exact .pure _ rfl
    · intro _
      apply Implements.ite
      · intro _
        apply Implements.unlock
        exact .pure _ rfl
      · intro _
        cases p.2.file.subs with
        | nil =>
          apply Implements.unlock
          exact .pure _ rfl
        | cons sub rest =>
          apply Implements.unlock
          exact .pure _ rfl

theorem openFile_implements {lock : Bool} :
    Implements [] (htableOpenFile P t key fd lock : Locking Guard σ _)
      (Server.htableOpenFile P t key fd lock) fun _ => [] := by
  apply Implements.bind (fetchItem_implements List.not_mem_nil)
  intro node _
  cases node with
  | none => exact .pure _ rfl
  | some p =>
    apply Implements.ite
    · intro _
      apply Implements.unlock
      exact .pure _ rfl
    · intro _
      apply Implements.ite
      · intro _
        apply Implements.unlock
        exact .pure _ rfl
      · intro _
        apply Implements.unlock
        apply Implements.lock List.not_mem_nil
        apply Implements.unlock
        exact .pure _ rfl

theorem closeFile_implements :
    Implements [] (htableCloseFile P t key fd : Locking Guard σ _)
      (Server.htableCloseFile P t key fd) fun _ => [] := by
  apply Implements.bind (fetchItem_implements List.not_mem_nil)
  intro node _
  cases node with
  | none => exact .pure _ rfl
  | some p =>
    apply Implements.ite
    · intro _
      apply Implements.unlock
      exact .pure _ rfl
    · intro _
      apply Implements.ite
      · intro _
        apply Implements.unlock
        exact .pure _ rfl
      · intro _
        apply Implements.unlock
        apply Implements.lock List.not_mem_nil
        apply Implements.unlock
        exact .pure _ rfl

theorem createFile_implements {lock : Bool} :
    Implements [] (htableCreateFile P t key fd lock : Locking Guard σ _)
      (Server.htableCreateFile P t key fd lock) fun _ => [] := by
  apply Implements.bind (fetchItem_implements List.not_mem_nil)
  intro node _
  cases node with
  | some p =>
    apply Implements.unlock
    exact .pure _ rfl
  | none =>
    apply Implements.bind (.lift _)
    intro bucket _
    apply Implements.lock List.not_mem_nil
    apply Implements.bind (.lift _)
    intro linked _
    apply Implements.unlock
    apply Implements.lock List.not_mem_nil
    apply Implements.bind (.lift _)
    intro counted _
    apply Implements.unlock
    exact .pure _ rfl

theorem openOrCreateFile_implements {create lock : Bool} :
    Implements [] (htableOpenOrCreateFile P t key fd create lock : Locking Guard σ _)
      (Server.htableOpenOrCreateFile P t key fd create lock) fun _ => [] := by
  apply Implements.ite
  · intro _
    exact createFile_implements
  · intro _
    exact openFile_implements

theorem storeItem_length {t' : HTable} {a : Addr} {f : HTableItem → HTableItem}
    (hx : t.storeItem a f = .ok t') : t'.buckets.length = t.buckets.length := by
  obtain ⟨items, -, hx⟩ := Exec.bind_eq_ok.mp hx
  cases hx
  rfl

theorem setBucket_length {i : Nat} {f : HTableBucket → HTableBucket} :
    (t.setBucket i f).buckets.length = t.buckets.length := List.length_modify ..

/-- Unlinking an item moves no key to another bucket. -/
theorem unlinkItem_length {t' : HTable} {i : Nat} {a : Addr} (hx : unlinkItem t i a = .ok t') :
    t'.buckets.length = t.buckets.length := by
  have hsecond : ∀ {t t' : HTable} {node : HTableItem}, (match node.next with
      | some n => t.storeItem n fun item => { item with prev := node.prev }
      | none => pure (t.setBucket i fun bucket => { bucket with last := node.prev })) = .ok t' →
      t'.buckets.length = t.buckets.length := by
    intro t t' node hx
    split at hx
    · exact storeItem_length hx
    · cases hx
      exact setBucket_length
  unfold unlinkItem at hx
  obtain ⟨node, -, hx⟩ := Exec.bind_eq_ok.mp hx
  simp only at hx
  split at hx
  · obtain ⟨t₁, hfirst, hx⟩ := Exec.bind_eq_ok.mp hx
    obtain ⟨node', -, hx⟩ := Exec.bind_eq_ok.mp hx
    rw [hsecond hx, storeItem_length hfirst]
  · obtain ⟨t₁, hfirst, hx⟩ := Exec.bind_eq_ok.mp hx
    obtain ⟨node', -, hx⟩ := Exec.bind_eq_ok.mp hx
    cases hfirst
    rw [hsecond hx, setBucket_length]

theorem bucketPtr_unlinkItem {t' : HTable} {i : Nat} {a : Addr}
    (hx : unlinkItem t i a = .ok t') : htableBucketPtr P t' key = htableBucketPtr P t key := by
  rw [htableBucketPtr, htableBucketPtr, unlinkItem_length hx]

theorem removeSection_implements :
    Implements [] (removeSection P t key fd : Locking Guard σ _) (Server.removeSection P t key fd)
      fun _ => [] := by
  apply Implements.bind (fetchItem_implements List.not_mem_nil)
  intro node _
  cases node with
  | none => exact .pure _ rfl
  | some p =>
    apply Implements.ite
    · intro _
      apply Implements.unlock
      exact .pure _ rfl
    · intro _
      apply Implements.bind (.lift _)
      -- `unlink_item` may change anything in the table but the number of buckets
      intro t' ht'
      -- the key that is released still belongs to the bucket that was locked
      show Implements [Guard.bucket (htableBucketPtr P t key)] _ _ _
      rw [← bucketPtr_unlinkItem ht']
      apply Implements.unlock
      exact .pure _ rfl

theorem removeFile_implements :
    Implements [] (htableRemoveFile P t key fd : Locking Guard σ _)
      (Server.htableRemoveFile P t key fd) fun _ => [] := by
  apply Implements.bind removeSection_implements
  rintro ⟨code | sizeInBytes, t'⟩ _
  · exact .pure _ rfl
  · apply Implements.lock List.not_mem_nil
    apply Implements.unlock
    exact .pure _ rfl

theorem replaceSection_implements {contents : List UInt8} :
    Implements [] (replaceSection P t key contents : Locking Guard σ _)
      (Server.replaceSection P t key contents) fun _ => [] := by
  apply Implements.bind (fetchItem_implements List.not_mem_nil)
  intro node _
  cases node with
  | none => exact .pure _ rfl
  | some p =>
    apply Implements.bind (.lift _)
    intro block _
    apply Implements.bind (.lift _)
    intro block' _
    apply Implements.unlock
    exact .pure _ rfl

/-! ## 7. What the evictions compute -/

theorem evictSingleFifo_implements :
    Implements [.stats] (htableEvictSingleFileFifo P t : Locking Guard σ _)
      (Server.htableEvictSingleFileFifo P t) fun _ => [.stats] := by
  apply Implements.bind (.lift _)
  rintro ⟨key, t₁⟩ _
  cases key with
  | none => exact .pure _ rfl
  | some key =>
    apply Implements.bind (fetchItem_implements (by simp))
    intro node _
    cases node with
    | none => exact .pure _ rfl
    | some p =>
      apply Implements.bind (.lift _)
      intro t₂ _
      apply Implements.unlock
      exact .pure _ rfl

theorem segmentedLoop_implements {rands : List Nat} :
    Implements [.stats] (segmentedLoop t rands : Locking Guard σ _) (Server.segmentedLoop t rands)
      fun _ => [.stats] := by
  induction rands with
  | nil => exact .throw _
  | cons r rands ih =>
    apply Implements.lock (by simp)
    apply Implements.bind (.lift _)
    intro bucket _
    cases bucket.last with
    | none =>
      apply Implements.ite
      · intro _
        exact .throw _
      · intro _
        apply Implements.unlock
        exact ih
    | some a =>
      apply Implements.bind (.lift _)
      intro item _
      cases item.prev with
      | some p =>
        apply Implements.bind (.lift _)
        intro t₁ _
        apply Implements.bind (.lift _)
        intro t₂ _
        apply Implements.unlock
        exact .pure _ rfl
      | none =>
        apply Implements.pure_bind
        apply Implements.bind (.lift _)
        intro t₂ _
        apply Implements.unlock
        exact .pure _ rfl

theorem evictSingleSegmented_implements {rands : List Nat} :
    Implements [.stats] (htableEvictSingleFileSegmentedFifo t rands : Locking Guard σ _)
      (Server.htableEvictSingleFileSegmentedFifo t rands) fun _ => [.stats] := by
  apply Implements.ite
  · intro _
    exact .throw _
  · intro _
    exact segmentedLoop_implements

theorem evictSingle_implements {rands : List Nat} :
    Implements [.stats] (htableEvictSingleFile P t rands : Locking Guard σ _)
      (Server.htableEvictSingleFile P t rands) fun _ => [.stats] := by
  unfold htableEvictSingleFile Server.htableEvictSingleFile
  cases t.policy with
  | segmentedFifo =>
    apply Implements.bind evictSingleSegmented_implements
    intro r _
    exact .pure _ rfl
  | fifo =>
    apply Implements.bind evictSingleFifo_implements
    intro r _
    exact .pure _ rfl

theorem evictRound_implements {evicted : List File} {rands : List Nat} :
    Implements [.stats] (evictRound P t evicted rands : Locking Guard σ _)
      (Server.evictRound P t evicted rands) fun _ => [.stats] := by
  apply Implements.ite
  · intro _
    exact .throw _
  · intro _
    apply Implements.bind evictSingle_implements
    rintro ⟨evictedItem, t₁, rands₁⟩ _
    cases evictedItem with
    | none => exact .throw _
    | some a =>
      apply Implements.bind (.lift _)
      intro item _
      apply Implements.ite
      · intro _
        exact .throw _
      · intro _
        exact .pure _ rfl

theorem evictLoop_implements {fuel : Nat} {evicted : List File} {rands : List Nat} :
    Implements [.stats] (evictLoop P fuel t evicted rands : Locking Guard σ _)
      (Server.evictLoop P fuel t evicted rands) fun _ => [.stats] := by
  induction fuel generalizing t evicted rands with
  | zero =>
    apply Implements.ite
    · intro _
      exact .throw _
    · intro _
      exact .pure _ rfl
  | succ fuel ih =>
    apply Implements.ite
    · intro _
      apply Implements.bind evictRound_implements
      intro r _
      exact ih
    · intro _
      exact .pure _ rfl

theorem evictFiles_implements {rands : List Nat} :
    Implements [] (htableEvictFiles P t rands : Locking Guard σ _)
      (Server.htableEvictFiles P t rands) fun _ => [] := by
  apply Implements.lock List.not_mem_nil
  apply Implements.bind evictLoop_implements
  intro r _
  apply Implements.unlock
  exact .pure _ rfl

theorem replaceFileContents_implements {contents : List UInt8} {rands : List Nat} :
    Implements [] (htableReplaceFileContents P t key contents rands : Locking Guard σ _)
      (Server.htableReplaceFileContents P t key contents rands) fun _ => [] := by
  apply Implements.bind replaceSection_implements
  intro r _
  cases r with
  | none => exact .pure _ rfl
  | some r =>
    apply Implements.lock List.not_mem_nil
    apply Implements.unlock
    apply Implements.bind evictFiles_implements
    intro p _
    exact .pure _ rfl

theorem appendSection_implements {contents : List UInt8} :
    Implements [] (appendSection P t key contents : Locking Guard σ _)
      (Server.appendSection P t key contents) fun _ => [] := by
  apply Implements.bind (fetchItem_implements List.not_mem_nil)
  intro node _
  cases node with
  | none => exact .pure _ rfl
  | some p =>
    apply Implements.bind (.lift _)
    intro block _
    apply Implements.bind (.lift _)
    intro block' _
    apply Implements.unlock
    exact .pure _ rfl

theorem appendToFileContents_implements {contents : List UInt8} {rands : List Nat} :
    Implements [] (htableAppendToFileContents P t key contents rands : Locking Guard σ _)
      (Server.htableAppendToFileContents P t key contents rands) fun _ => [] := by
  apply Implements.bind appendSection_implements
  intro r _
  cases r with
  | none => exact .pure _ rfl
  | some t₁ =>
    apply Implements.lock List.not_mem_nil
    apply Implements.unlock
    apply Implements.bind evictFiles_implements
    intro p _
    exact .pure _ rfl

/-- Whatever the operation, and whichever way it returns. -/
theorem exec_implements {op : Op} {rands : List Nat} :
    Implements [] (exec P t rands op : Locking Guard σ _) (op.exec P t rands) fun _ => [] := by
  cases op with
  | create key fd withLock | «open» key fd withLock =>
    exact openOrCreateFile_implements.bind fun r _ => .pure _ rfl
  | close key fd => exact closeFile_implements.bind fun r _ => .pure _ rfl
  | lock key fd => exact lockFile_implements.bind fun r _ => .pure _ rfl
  | unlock key fd => exact unlockFile_implements.bind fun r _ => .pure _ rfl
  | remove key fd => exact removeFile_implements.bind fun r _ => .pure _ rfl
  | replace key contents => exact replaceFileContents_implements.bind fun r _ => .pure _ rfl
  | append key contents => exact appendToFileContents_implements.bind fun r _ => .pure _ rfl

end

end Guarded

end FileStorage.Server
