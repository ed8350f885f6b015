import FileStorage.Utilities

/-!
# Htable — the server's hash table, pointer for pointer

Every bucket is a doubly linked list of `HTableItem` blocks on the heap `items`; the FIFO policy
keeps a second, singly linked chain of `FifoItem` blocks on the heap `fifoItems`.  An operation
takes the table before it and returns the table after it.  The part of an operation that runs
under the bucket mutex and the part that runs under `stats_guard` are definitions of their own.
-/

namespace FileStorage.Server

open Memory

/-! ## 1. Data -/

inductive CacheEvictionPolicy where
  | fifo
  | segmentedFifo
deriving DecidableEq, Repr

/-- The settings of `struct Config` that the table reads. -/
structure Config where
  maxFiles : Nat
  maxStorageInBytes : Nat
  cacheEvictionPolicy : CacheEvictionPolicy
deriving DecidableEq, Repr

inductive HTableError where
  | ok
  | okWait
  | alreadyLocked
  | alreadyOpen
  | alreadyCreated
  | alreadyClosed
  | alreadyUnlocked
  | fileNotFound
  | cantUnlock
  | cantOpen
  | cantClose
  | size
deriving DecidableEq, Repr

/-- The number behind the enumerator. -/
def HTableError.toInt (e : HTableError) : Int := e.ctorIdx

/-- `fdOwner` is meaningful while the file is locked; `subs` holds the waiting descriptors, the
one served next first. -/
structure File where
  key : CStr
  contents : Option (List UInt8)
  lengthInBytes : Nat
  fdOwner : Int
  isOpen : Bool
  isLocked : Bool
  subs : List Int
deriving DecidableEq

structure HTableItem where
  file : File
  next : Ptr
  prev : Ptr
deriving DecidableEq

structure HTableBucket where
  head : Ptr
  last : Ptr
deriving DecidableEq

/-- `wrapped` is a ghost: it records that some decrement of `itemsCount` or of
`totalSpaceInBytes` went below zero.  Nothing reads it. -/
structure HTableStats where
  totalSpaceInBytes : Nat
  itemsCount : Nat
  openCount : Nat
  historicalMaxItemsCount : Nat
  historicalMaxSpaceInBytes : Nat
  historicalNumEvictions : Nat
  wrapped : Bool
deriving DecidableEq

structure FifoItem where
  key : CStr
  prev : Ptr
deriving DecidableEq

structure Fifo where
  head : Ptr
  last : Ptr
deriving DecidableEq

structure HTable where
  maxItemsCount : Nat
  maxSpaceInBytes : Nat
  policy : CacheEvictionPolicy
  fifo : Option Fifo
  stats : HTableStats
  buckets : List HTableBucket
  items : Heap HTableItem
  fifoItems : Heap FifoItem
deriving DecidableEq

def HTableStats.zero : HTableStats where
  totalSpaceInBytes := 0
  itemsCount := 0
  openCount := 0
  historicalMaxItemsCount := 0
  historicalMaxSpaceInBytes := 0
  historicalNumEvictions := 0
  wrapped := false

def htableCreate (buckets : Nat) (config : Config) : Exec HTable :=
  if 0 < buckets then
    .ok {
      maxItemsCount := config.maxFiles
      maxSpaceInBytes := config.maxStorageInBytes
      policy := config.cacheEvictionPolicy
      fifo := if config.cacheEvictionPolicy = .fifo then some ⟨none, none⟩ else none
      stats := .zero
      buckets := List.replicate buckets ⟨none, none⟩
      items := .empty
      fifoItems := .empty }
  else
    .error .assertion

/-! ## 2. Counters -/

namespace HTableStats

def incItems (s : HTableStats) : HTableStats := { s with itemsCount := wadd s.itemsCount 1 }

def decItems (s : HTableStats) : HTableStats :=
  { s with
    itemsCount := wsub s.itemsCount 1
    wrapped := s.wrapped || decide (s.itemsCount < 1) }

def addSpace (s : HTableStats) (size : Nat) : HTableStats :=
  { s with totalSpaceInBytes := wadd s.totalSpaceInBytes size }

def subSpace (s : HTableStats) (size : Nat) : HTableStats :=
  { s with
    totalSpaceInBytes := wsub s.totalSpaceInBytes size
    wrapped := s.wrapped || decide (s.totalSpaceInBytes < size) }

def incOpen (s : HTableStats) : HTableStats := { s with openCount := wadd s.openCount 1 }

def decOpen (s : HTableStats) : HTableStats := { s with openCount := wsub s.openCount 1 }

def raiseMaxItems (s : HTableStats) : HTableStats :=
  if s.itemsCount > s.historicalMaxItemsCount then
    { s with historicalMaxItemsCount := s.itemsCount }
  else
    s

def raiseMaxSpace (s : HTableStats) : HTableStats :=
  if s.totalSpaceInBytes > s.historicalMaxSpaceInBytes then
    { s with historicalMaxSpaceInBytes := s.totalSpaceInBytes }
  else
    s

def incEvictions (s : HTableStats) : HTableStats :=
  { s with historicalNumEvictions := wadd s.historicalNumEvictions 1 }

end HTableStats

/-! ## 3. Internal utilities -/

def HTable.bucket (t : HTable) (i : Nat) : Exec HTableBucket :=
  match t.buckets[i]? with
  | some bucket => .ok bucket
  | none => .error .fault

def HTable.setBucket (t : HTable) (i : Nat) (f : HTableBucket → HTableBucket) : HTable :=
  { t with buckets := t.buckets.modify i f }

/-- Writes through the item pointer `a`. -/
def HTable.storeItem (t : HTable) (a : Addr) (f : HTableItem → HTableItem) : Exec HTable := do
  let items ← t.items.store a f
  return { t with items }

/-- Writes through the file pointer into the item at `a`. -/
def HTable.setFile (t : HTable) (a : Addr) (file : File) : HTable :=
  { t with items := t.items.modify a fun item => { item with file } }

def htableBucketPtr (P : Platform) (t : HTable) (key : CStr) : Nat :=
  P.xxh64 key % t.buckets.length

/-- The search loop of `htable_fetch_item`; `fuel` bounds the items of one bucket. -/
def fetchLoop (items : Heap HTableItem) (key : CStr) : Nat → Ptr → Exec (Option (Addr × HTableItem))
  | _, none => .ok none
  | 0, some _ => .error .diverge
  | fuel + 1, some a => do
      let item ← items.load a
      if item.file.key = key then
        return some (a, item)
      else
        fetchLoop items key fuel item.next

/-- The item stored under `key` together with its address. -/
def htableFetchItem (P : Platform) (t : HTable) (key : CStr) :
    Exec (Option (Addr × HTableItem)) := do
  let bucket ← t.bucket (htableBucketPtr P t key)
  fetchLoop t.items key t.items.fresh bucket.head

def htableFetchFile (P : Platform) (t : HTable) (key : CStr) : Exec (Option File) := do
  let node ← htableFetchItem P t key
  return node.map fun p => p.2.file

/-- "Chain together the previous and next nodes within the bucket's linked list." -/
def unlinkItem (t : HTable) (i : Nat) (a : Addr) : Exec HTable := do
  let node ← t.items.load a
  let t ←
    match node.prev with
    | some p => t.storeItem p fun item => { item with next := node.next }
    | none => pure (t.setBucket i fun bucket => { bucket with head := node.next })
  let node ← t.items.load a
  match node.next with
  | some n => t.storeItem n fun item => { item with prev := node.prev }
  | none => pure (t.setBucket i fun bucket => { bucket with last := node.prev })

/-! ## 4. Locking, opening and closing -/

def htableLockFile (P : Platform) (t : HTable) (key : CStr) (fd : Int) :
    Exec (HTableError × HTable) := do
  match ← htableFetchItem P t key with
  | none => return (.fileNotFound, t)
  | some (a, item) =>
      let file := item.file
      if file.isLocked then
        return (.okWait, t.setFile a { file with subs := fd :: file.subs })
      -- `assert(!file->subs)`
      else if file.subs ≠ [] then
        throw .assertion
      else
        return (.ok, t.setFile a { file with isLocked := true, fdOwner := fd })

/-- The second component is `*new_owner_of_lock`. -/
def htableUnlockFile (P : Platform) (t : HTable) (key : CStr) (fd : Int) :
    Exec (HTableError × Int × HTable) := do
  match ← htableFetchItem P t key with
  | none => return (.fileNotFound, -1, t)
  | some (a, item) =>
      let file := item.file
      if !file.isLocked then
        return (.alreadyUnlocked, -1, t)
      else if file.fdOwner ≠ fd then
        return (.okWait, -1, t)
      else
        match file.subs with
        -- `fd_owner` keeps its old value
        | [] => return (.ok, -1, t.setFile a { file with isLocked := false })
        | sub :: rest =>
            let file := { file with subs := rest, isLocked := true, fdOwner := sub }
            return (.ok, sub, t.setFile a file)

def htableOpenFile (P : Platform) (t : HTable) (key : CStr) (fd : Int) (lock : Bool) :
    Exec (HTableError × HTable) := do
  match ← htableFetchItem P t key with
  | none => return (.fileNotFound, t)
  | some (a, item) =>
      let file := item.file
      if file.isOpen then
        return (.alreadyOpen, t)
      else if file.isLocked ∧ file.fdOwner ≠ fd then
        return (.cantOpen, t)
      else
        -- whatever the lock was, it is now what the caller asked for
        let t := t.setFile a { file with isOpen := true, isLocked := lock, fdOwner := fd }
        return (.ok, { t with stats := t.stats.incOpen })

def htableCloseFile (P : Platform) (t : HTable) (key : CStr) (fd : Int) :
    Exec (HTableError × HTable) := do
  match ← htableFetchItem P t key with
  | none => return (.fileNotFound, t)
  | some (a, item) =>
      let file := item.file
      if !file.isOpen then
        return (.alreadyClosed, t)
      else if file.isLocked ∧ file.fdOwner ≠ fd then
        return (.cantClose, t)
      else
        let t := t.setFile a { file with isOpen := false }
        return (.ok, { t with stats := t.stats.decOpen })

/-! ## 5. Creating and removing -/

/-- `head` is what `bucket->head` held when the item was filled in, outside the bucket mutex. -/
def newItem (key : CStr) (fd : Int) (lock : Bool) (head : Ptr) : HTableItem where
  file := {
    key
    contents := none
    lengthInBytes := 0
    fdOwner := fd
    isOpen := true
    isLocked := lock
    subs := [] }
  next := head
  prev := none

/-- The allocation of `item` and the critical section that links it.  An address space of 2^64
bytes has no room for 2^64 items; smaller blocks are taken to be granted. -/
def linkSection (t : HTable) (i : Nat) (item : HTableItem) : Exec HTable := do
  if wordSize ≤ t.items.live + 1 then
    throw .exit
  let a := t.items.fresh
  let t := { t with items := t.items.alloc item }
  let bucket ← t.bucket i
  let t ←
    match bucket.head with
    | some h => t.storeItem h fun item => { item with prev := some a }
    | none => pure t
  return t.setBucket i fun bucket => ⟨some a, bucket.last.or (some a)⟩

def fifoAddFile (t : HTable) (key : CStr) : Exec HTable :=
  match t.fifo with
  | none => .error .fault
  | some fifo =>
      let item := some t.fifoItems.fresh
      .ok { t with
        fifo := some ⟨item, fifo.last.or item⟩
        fifoItems := t.fifoItems.alloc ⟨key, fifo.head⟩ }

def createStatsSection (t : HTable) (key : CStr) : Exec HTable :=
  let t := { t with stats := t.stats.incOpen.incItems.raiseMaxItems }
  if t.policy = .fifo then fifoAddFile t key else .ok t

def htableCreateFile (P : Platform) (t : HTable) (key : CStr) (fd : Int) (lock : Bool) :
    Exec (HTableError × HTable) := do
  match ← htableFetchItem P t key with
  | some _ => return (.alreadyCreated, t)
  | none =>
      let i := htableBucketPtr P t key
      -- `bucket->head` is read after the search has released the bucket
      let bucket ← t.bucket i
      let t ← linkSection t i (newItem key fd lock bucket.head)
      let t ← createStatsSection t key
      return (.ok, t)

def htableOpenOrCreateFile (P : Platform) (t : HTable) (key : CStr) (fd : Int)
    (create lock : Bool) : Exec (HTableError × HTable) :=
  if create then htableCreateFile P t key fd lock else htableOpenFile P t key fd lock

/-- Either the code returned at once or the size to take off the counters. -/
def removeSection (P : Platform) (t : HTable) (key : CStr) (fd : Int) :
    Exec ((HTableError ⊕ Nat) × HTable) := do
  match ← htableFetchItem P t key with
  | none => return (.inl .fileNotFound, t)
  | some (a, node) =>
      if node.file.isLocked ∧ node.file.fdOwner ≠ fd ∧ fd ≠ -1 then
        -- nothing is removed, and the caller cannot tell
        return (.inl .ok, t)
      else
        let t ← unlinkItem t (htableBucketPtr P t key) a
        return (.inr node.file.lengthInBytes, { t with items := t.items.free a })

def removeStatsSection (t : HTable) (sizeInBytes : Nat) : HTable :=
  { t with stats := (t.stats.decOpen.decItems).subSpace sizeInBytes }

def htableRemoveFile (P : Platform) (t : HTable) (key : CStr) (fd : Int) :
    Exec (HTableError × HTable) := do
  match ← removeSection P t key fd with
  | (.inl code, t) => return (code, t)
  | (.inr sizeInBytes, t) => return (.ok, removeStatsSection t sizeInBytes)

/-! ## 6. Eviction policies -/

def fifoEvict (t : HTable) : Exec (Option CStr × HTable) :=
  match t.fifo with
  | none => .error .fault
  | some fifo =>
      match fifo.last with
      | none => .ok (none, t)
      | some last => do
          let node ← t.fifoItems.load last
          return (some node.key,
            { t with
              -- `head` stays, even when it is the item that is freed
              fifo := some { fifo with last := node.prev }
              fifoItems := t.fifoItems.free last })

def htableEvictSingleFileFifo (P : Platform) (t : HTable) : Exec (Ptr × HTable) := do
  match ← fifoEvict t with
  | (none, t) => return (none, t)
  | (some key, t) =>
      match ← htableFetchItem P t key with
      -- the file of this entry is not there any more
      | none => return (none, t)
      | some (a, _) =>
          let t ← unlinkItem t (htableBucketPtr P t key) a
          return (some a, t)

/-- The loop over the draws of `rand()`; without a further draw it is still running. -/
def segmentedLoop (t : HTable) : List Nat → Exec (Addr × HTable × List Nat)
  | [] => .error .diverge
  | r :: rands => do
      let i := r % t.buckets.length
      let bucket ← t.bucket i
      match bucket.last with
      -- an empty bucket: another one is drawn
      | none => if bucket.head.isSome then throw .assertion else segmentedLoop t rands
      | some a => do
          let item ← t.items.load a
          let t ←
            match item.prev with
            | some p => do
                let t := t.setBucket i fun bucket => { bucket with last := item.prev }
                t.storeItem p fun item => { item with next := none }
            | none => pure (t.setBucket i fun _ => ⟨none, none⟩)
          let t ← t.storeItem a fun item => { item with next := none, prev := none }
          return (a, t, rands)

def htableEvictSingleFileSegmentedFifo (t : HTable) (rands : List Nat) :
    Exec (Addr × HTable × List Nat) :=
  if t.stats.itemsCount = 0 then .error .assertion else segmentedLoop t rands

def htableEvictSingleFile (P : Platform) (t : HTable) (rands : List Nat) :
    Exec (Ptr × HTable × List Nat) :=
  match t.policy with
  | .segmentedFifo => do
      let (a, t, rands) ← htableEvictSingleFileSegmentedFifo t rands
      return (some a, t, rands)
  | .fifo => do
      let (p, t) ← htableEvictSingleFileFifo P t
      return (p, t, rands)

/-- The condition of the eviction loop. -/
def HTable.exceedsLimits (t : HTable) : Prop :=
  t.stats.itemsCount > t.maxItemsCount ∨ t.stats.totalSpaceInBytes > t.maxSpaceInBytes

instance (t : HTable) : Decidable t.exceedsLimits := inferInstanceAs (Decidable (_ ∨ _))

def sizeofFile : Nat := 40

/-- The bookkeeping for one evicted file. -/
def evictStats (s : HTableStats) (file : File) : HTableStats :=
  let s := if file.isOpen then s.decOpen else s
  (s.decItems.subSpace file.lengthInBytes).incEvictions

/-- One round of the eviction loop; `evicted` is the array built so far.  Its counter has 32
bits: when it wraps, the array shrinks to nothing and the slot behind it is out of bounds. -/
def evictRound (P : Platform) (t : HTable) (evicted : List File) (rands : List Nat) :
    Exec (HTable × List File × List Nat) := do
  let evictedCount := (evicted.length + 1) % unsignedSize
  -- `xrealloc` makes room for one more file before it is known which
  if !P.grants evicted.isEmpty (sizeofFile * evictedCount) then
    throw .exit
  let (evictedItem, t, rands) ← htableEvictSingleFile P t rands
  match evictedItem with
  | none => throw .fault
  | some a =>
      let item ← t.items.load a
      if evictedCount = 0 then
        throw .fault
      let t := { t with stats := evictStats t.stats item.file, items := t.items.free a }
      return (t, evicted ++ [item.file], rands)

/-- The eviction loop; every round frees an item, so `fuel` never runs out first. -/
def evictLoop (P : Platform) : Nat → HTable → List File → List Nat →
    Exec (HTable × List File × List Nat)
  | 0, t, evicted, rands => if t.exceedsLimits then .error .diverge else .ok (t, evicted, rands)
  | fuel + 1, t, evicted, rands =>
      if t.exceedsLimits then do
        let (t, evicted, rands) ← evictRound P t evicted rands
        evictLoop P fuel t evicted rands
      else
        .ok (t, evicted, rands)

/-- The evicted files and the table after `htable_evict_files`. -/
def htableEvictFiles (P : Platform) (t : HTable) (rands : List Nat) :
    Exec (List File × HTable) := do
  let (t, evicted, _) ← evictLoop P (t.items.live + 1) t [] rands
  return (evicted, t)

/-! ## 7. Writing -/

/-- `none` when there is no such file, else the table and the size the file had. -/
def replaceSection (P : Platform) (t : HTable) (key : CStr) (contents : List UInt8) :
    Exec (Option (HTable × Nat)) := do
  match ← htableFetchItem P t key with
  | none => return none
  | some (a, item) =>
      let block ← xrealloc P item.file.contents contents.length
      let block ← memcpy block 0 contents
      -- the lock is not looked at
      let file := { item.file with contents := some block, lengthInBytes := contents.length }
      return some (t.setFile a file, item.file.lengthInBytes)

def replaceStatsSection (t : HTable) (sizeInBytes oldSizeInBytes : Nat) : HTable :=
  { t with stats := ((t.stats.addSpace sizeInBytes).subSpace oldSizeInBytes).raiseMaxSpace }

def htableReplaceFileContents (P : Platform) (t : HTable) (key : CStr) (contents : List UInt8)
    (rands : List Nat) : Exec (HTableError × List File × HTable) := do
  match ← replaceSection P t key contents with
  | none => return (.fileNotFound, [], t)
  | some (t, oldSizeInBytes) =>
      let t := replaceStatsSection t contents.length oldSizeInBytes
      let (evicted, t) ← htableEvictFiles P t rands
      return (.ok, evicted, t)

def appendSection (P : Platform) (t : HTable) (key : CStr) (contents : List UInt8) :
    Exec (Option HTable) := do
  match ← htableFetchItem P t key with
  | none => return none
  | some (a, item) =>
      let lengthInBytes := wadd item.file.lengthInBytes contents.length
      let block ← xrealloc P item.file.contents lengthInBytes
      -- behind the bytes that were there
      let block ← memcpy block (wsub lengthInBytes contents.length) contents
      return some (t.setFile a { item.file with contents := some block, lengthInBytes })

def appendStatsSection (t : HTable) (sizeInBytes : Nat) : HTable :=
  { t with stats := (t.stats.addSpace sizeInBytes).raiseMaxSpace }

def htableAppendToFileContents (P : Platform) (t : HTable) (key : CStr) (contents : List UInt8)
    (rands : List Nat) : Exec (HTableError × List File × HTable) := do
  match ← appendSection P t key contents with
  | none => return (.fileNotFound, [], t)
  | some t =>
      let (evicted, t) ← htableEvictFiles P (appendStatsSection t contents.length) rands
      return (.ok, evicted, t)

/-! ## 8. One operation -/

inductive Op where
  | create (key : CStr) (fd : Int) (withLock : Bool)
  | open (key : CStr) (fd : Int) (withLock : Bool)
  | close (key : CStr) (fd : Int)
  | lock (key : CStr) (fd : Int)
  | unlock (key : CStr) (fd : Int)
  | remove (key : CStr) (fd : Int)
  | replace (key : CStr) (contents : List UInt8)
  | append (key : CStr) (contents : List UInt8)
deriving DecidableEq

def Op.key : Op → CStr
  | .create key _ _ | .open key _ _ | .close key _ | .lock key _ | .unlock key _ | .remove key _
  | .replace key _ | .append key _ => key

/-- What a caller sees of an operation besides the table. -/
structure Outcome where
  code : HTableError
  newOwner : Int
  evicted : List File
deriving DecidableEq

def Op.exec (P : Platform) (t : HTable) (rands : List Nat) : Op → Exec (Outcome × HTable)
  | .create key fd withLock => do
      let (code, t) ← htableOpenOrCreateFile P t key fd true withLock
      return (⟨code, -1, []⟩, t)
  | .open key fd withLock => do
      let (code, t) ← htableOpenOrCreateFile P t key fd false withLock
      return (⟨code, -1, []⟩, t)
  | .close key fd => do
      let (code, t) ← htableCloseFile P t key fd
      return (⟨code, -1, []⟩, t)
  | .lock key fd => do
      let (code, t) ← htableLockFile P t key fd
      return (⟨code, -1, []⟩, t)
  | .unlock key fd => do
      let (code, newOwner, t) ← htableUnlockFile P t key fd
      return (⟨code, newOwner, []⟩, t)
  | .remove key fd => do
      let (code, t) ← htableRemoveFile P t key fd
      return (⟨code, -1, []⟩, t)
  | .replace key contents => do
      let (code, evicted, t) ← htableReplaceFileContents P t key contents rands
      return (⟨code, -1, evicted⟩, t)
  | .append key contents => do
      let (code, evicted, t) ← htableAppendToFileContents P t key contents rands
      return (⟨code, -1, evicted⟩, t)

end FileStorage.Server
