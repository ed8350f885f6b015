import FileStorage.Server.StoreMap

/-!
# Worker — the request handlers

A handler takes the table before the request and returns what it writes to which connection, with
the table after it.  A write is taken to succeed: the handlers only log the failure of one.
-/

namespace FileStorage.Server

open Memory

/-! ## 1. Operation codes and writes -/

inductive ApiOp where
  | openConnection
  | closeConnection
  | openFile
  | openFileCreate
  | openFileLock
  | openFileCreateLock
  | readFile
  | readNFiles
  | writeFile
  | appendToFile
  | lockFile
  | unlockFile
  | closeFile
  | removeFile
deriving DecidableEq, Repr

/-- The enumerator with this number. -/
def ApiOp.ofByte (op : UInt8) : Option ApiOp :=
  [openConnection, closeConnection, openFile, openFileCreate, openFileLock, openFileCreateLock,
    readFile, readNFiles, writeFile, appendToFile, lockFile, unlockFile, closeFile,
    removeFile][op.toNat]?

def responseOk : UInt8 := 0

def responseErr : UInt8 := 1

/-- A ghost: what the client takes the first byte of a write for. -/
inductive WriteKind where
  | status   -- the status byte of the request that is being handled
  | granted  -- a status byte for the connection that the lock went to
  | data     -- no status byte
deriving DecidableEq, Repr

structure Write where
  fd : Int
  bytes : List UInt8
  kind : WriteKind
deriving DecidableEq

/-- The writes that start with a status byte. -/
def statusWrites (writes : List Write) : List Write := writes.filter (·.kind ≠ .data)

/-- The status byte that the handler of a request of `fd` answers it with. -/
def statusByte (fd : Int) (writes : List Write) : Option UInt8 :=
  ((statusWrites writes).find? fun w => w.fd = fd ∧ w.kind = .status).bind (·.bytes.head?)

/-- `result == 0` is the only success. -/
def responseByte (result : Int) : UInt8 := if result = 0 then responseOk else responseErr

def writeResponseByte (fd : Int) (result : Int) : Write := ⟨fd, [responseByte result], .status⟩

/-- The first `length_in_bytes` bytes behind `contents`. -/
def fileContents (file : File) : Exec (List UInt8) :=
  if file.lengthInBytes ≤ file.bytes.length then
    .ok (file.bytes.take file.lengthInBytes)
  else
    .error .fault

/-- Both lengths, the key and the contents of a file. -/
def writeFileBytes (fd : Int) (file : File) : Exec (List Write) := do
  let contents ← fileContents file
  return [
    ⟨fd, u64ToBigEndian file.key.strlen, .data⟩,
    ⟨fd, u64ToBigEndian file.lengthInBytes, .data⟩,
    ⟨fd, file.key.bytes, .data⟩,
    ⟨fd, contents, .data⟩]

/-! ## 2. Reading -/

def workerHandleReadFile (P : Platform) (t : HTable) (fd : Int) (buffer : List UInt8) :
    Exec (List Write) := do
  let path := bufToStr buffer
  match ← htableFetchFile P t path with
  | none => return [writeResponseByte fd (-1)]
  | some file =>
      let contents ← fileContents file
      return [⟨fd, responseOk :: u64ToBigEndian file.lengthInBytes, .status⟩, ⟨fd, contents, .data⟩]

structure HTableVisitor where
  maxVisits : Nat
  visits : Nat
  bucketI : Nat
  next : Ptr

/-- `max_visits` is an `unsigned`. -/
def htableVisit (t : HTable) (maxVisits : Nat) : Exec HTableVisitor := do
  let bucket ← t.bucket 0
  return ⟨maxVisits % unsignedSize, 0, 0, bucket.head⟩

/-- The loop of `htable_visitor_next` over the buckets behind `i`, to the first that holds an
item. -/
def visitorBuckets (t : HTable) : Nat → Nat → Exec (Option (Nat × Nat))
  | 0, _ => .error .diverge
  | fuel + 1, i =>
      if i + 1 = t.buckets.length then
        .ok none
      else do
        let bucket ← t.bucket (i + 1)
        match bucket.head with
        | some a => return some (i + 1, a)
        | none => visitorBuckets t fuel (i + 1)

/-- Within a bucket the visitor first moves on and then returns the file it stands at: behind the
last item this is the address of the first field of `NULL`, which is `NULL`. -/
def htableVisitorNext (t : HTable) (v : HTableVisitor) : Exec (Option File × HTableVisitor) := do
  if v.visits ≥ v.maxVisits ∧ v.maxVisits ≠ 0 then
    return (none, v)
  let visits := (v.visits + 1) % unsignedSize
  match v.next with
  | some a => do
      let item ← t.items.load a
      let v := { v with visits, next := item.next }
      match item.next with
      | none => return (none, v)
      | some b => do
          let item ← t.items.load b
          return (some item.file, v)
  | none =>
      match ← visitorBuckets t t.buckets.length v.bucketI with
      | none => return (none, v)
      | some (bucketI, a) => do
          let item ← t.items.load a
          return (some item.file, { v with visits, bucketI, next := some a })

/-- The loop over the visited files; every round moves the visitor to another item. -/
def readNFilesLoop (t : HTable) (fd : Int) : Nat → HTableVisitor → Exec (List Write)
  | 0, _ => .error .diverge
  | fuel + 1, v => do
      match ← htableVisitorNext t v with
      | (none, _) => return []
      | (some file, v) => do
          let writes ← writeFileBytes fd file
          let rest ← readNFilesLoop t fd fuel v
          return writes ++ rest

/-- The reply ends with eight zero bytes and has no status byte. -/
def workerHandleReadNFiles (t : HTable) (fd : Int) (buffer : List UInt8) : Exec (List Write) := do
  if buffer.length ≠ 8 then
    return []
  let n ← bigEndianToU64 buffer
  let visitor ← htableVisit t n
  let writes ← readNFilesLoop t fd (t.items.live + 1) visitor
  return writes ++ [⟨fd, List.replicate 8 0, .data⟩]

/-! ## 3. Writing -/

/-- The two arguments of a `writeFile` payload, `none` when its lengths do not add up.  They are
added as `size_t`, so the first may point far behind the payload. -/
def writeFileArgs (buffer : List UInt8) : Exec (Option (CStr × List UInt8)) := do
  if buffer.length < 8 + 8 then
    return none
  let arg1Size ← bigEndianToU64 buffer
  let arg2Size ← bigEndianToU64 (buffer.drop 8)
  if buffer.length ≠ wadd (wadd (8 * 2) arg1Size) arg2Size then
    return none
  let args := buffer.drop 16
  if args.length < arg1Size then
    -- `buf_to_str` copies from behind the payload, unless `xmalloc` has no such block and exits
    throw .fault
  return some (bufToStr (args.take arg1Size), (args.drop arg1Size).take arg2Size)

def writeEvicted (fd : Int) : List File → Exec (List Write)
  | [] => .ok []
  | file :: evicted => do
      let writes ← writeFileBytes fd file
      let rest ← writeEvicted fd evicted
      return writes ++ rest

/-- The result of the table goes to the log only: the status byte is always `RESPONSE_OK`. -/
def workerHandleWriteFile (P : Platform) (t : HTable) (fd : Int) (buffer : List UInt8)
    (rands : List Nat) : Exec (List Write × HTable) := do
  match ← writeFileArgs buffer with
  | none => return ([], t)
  | some (path, contents) => do
      let (_, evicted, t) ← htableReplaceFileContents P t path contents rands
      let writes ← writeEvicted fd evicted
      return (⟨fd, [responseOk], .status⟩ ::
        ⟨fd, u64ToBigEndian (evicted.length % unsignedSize), .data⟩ :: writes, t)

/-! ## 4. The other requests -/

def workerHandleOpenFile (P : Platform) (t : HTable) (fd : Int) (buffer : List UInt8)
    (create lock : Bool) : Exec (List Write × HTable) := do
  let path := bufToStr buffer
  let (result, t) ← htableOpenOrCreateFile P t path fd create lock
  return ([writeResponseByte fd result.toInt], t)

def workerHandleLockFile (P : Platform) (t : HTable) (fd : Int) (buffer : List UInt8) :
    Exec (List Write × HTable) := do
  let path := bufToStr buffer
  let (result, t) ← htableLockFile P t path fd
  -- a different test than in the other handlers: no result is negative
  let response := if result.toInt < 0 then responseErr else responseOk
  return ([⟨fd, [response], .status⟩], t)

def workerHandleUnlockFile (P : Platform) (t : HTable) (fd : Int) (buffer : List UInt8) :
    Exec (List Write × HTable) := do
  let path := bufToStr buffer
  let (result, newFd, t) ← htableUnlockFile P t path fd
  let writes :=
    if newFd ≠ -1 then
      [{ writeResponseByte newFd HTableError.ok.toInt with kind := .granted }]
    else
      []
  return (writeResponseByte fd result.toInt :: writes, t)

def workerHandleCloseFile (P : Platform) (t : HTable) (fd : Int) (buffer : List UInt8) :
    Exec (List Write × HTable) := do
  let path := bufToStr buffer
  let (result, t) ← htableCloseFile P t path fd
  return ([writeResponseByte fd result.toInt], t)

def workerHandleRemoveFile (P : Platform) (t : HTable) (fd : Int) (buffer : List UInt8) :
    Exec (List Write × HTable) := do
  let path := bufToStr buffer
  let (result, t) ← htableRemoveFile P t path fd
  return ([writeResponseByte fd result.toInt], t)

/-! ## 5. Dispatching -/

/-- The `switch` of `worker_handle_message`: an `appendToFile` request is not among its cases. -/
def workerHandleRequest (P : Platform) (t : HTable) (fd : Int) (op : ApiOp) (buffer : List UInt8)
    (rands : List Nat) : Exec (List Write × HTable) :=
  match op with
  | .readFile => do
      let writes ← workerHandleReadFile P t fd buffer
      return (writes, t)
  | .readNFiles => do
      let writes ← workerHandleReadNFiles t fd buffer
      return (writes, t)
  | .openFile => workerHandleOpenFile P t fd buffer false false
  | .openFileCreate => workerHandleOpenFile P t fd buffer true false
  | .openFileLock => workerHandleOpenFile P t fd buffer false true
  | .openFileCreateLock => workerHandleOpenFile P t fd buffer true true
  | .writeFile => workerHandleWriteFile P t fd buffer rands
  | .unlockFile => workerHandleUnlockFile P t fd buffer
  | .lockFile => workerHandleLockFile P t fd buffer
  | .closeFile => workerHandleCloseFile P t fd buffer
  | .removeFile => workerHandleRemoveFile P t fd buffer
  | .openConnection | .closeConnection | .appendToFile => .ok ([], t)

/-- The operation code and the payload of a message: eight bytes of magic code, the length of the
rest, the code, the payload.  `none` for a message that only has a header. -/
def messageRequest (raw : List UInt8) : Exec (Option (UInt8 × List UInt8)) := do
  -- the header alone
  if raw.length = 16 then
    return none
  let buffer := raw.drop 8
  let length ← bigEndianToU64 buffer
  -- `exit(EXIT_FAILURE)`, for the whole server
  if wadd length 8 ≠ wsub raw.length 8 then
    throw .exit
  match buffer.drop 8 with
  -- the code would be read behind the end of the buffer
  | [] => throw .fault
  | op :: payload => return some (op, payload)

def workerHandleMessage (P : Platform) (t : HTable) (fd : Int) (raw : List UInt8)
    (rands : List Nat) : Exec (List Write × HTable) := do
  match ← messageRequest raw with
  | none => return ([], t)
  | some (op, payload) =>
      match ApiOp.ofByte op with
      | none => return ([], t)
      | some op => workerHandleRequest P t fd op payload rands

/-! ## 6. What a handler does to the table -/

/-- The table operation that a request comes to, if any. -/
def ApiOp.tableOp (fd : Int) (buffer : List UInt8) : ApiOp → Exec (Option Op)
  | .openFile => .ok (some (.open (bufToStr buffer) fd false))
  | .openFileCreate => .ok (some (.create (bufToStr buffer) fd false))
  | .openFileLock => .ok (some (.open (bufToStr buffer) fd true))
  | .openFileCreateLock => .ok (some (.create (bufToStr buffer) fd true))
  | .writeFile => do
      match ← writeFileArgs buffer with
      | none => return none
      | some (path, contents) => return some (.replace path contents)
  | .lockFile => .ok (some (.lock (bufToStr buffer) fd))
  | .unlockFile => .ok (some (.unlock (bufToStr buffer) fd))
  | .closeFile => .ok (some (.close (bufToStr buffer) fd))
  | .removeFile => .ok (some (.remove (bufToStr buffer) fd))
  | .openConnection | .closeConnection | .readFile | .readNFiles | .appendToFile => .ok none

theorem ApiOp.tableOp_writeFile {fd : Int} {buffer : List UInt8} {o : Op} :
    ApiOp.tableOp fd buffer .writeFile = .ok (some o) ↔
      ∃ path contents, writeFileArgs buffer = .ok (some (path, contents)) ∧
        o = .replace path contents := by
  simp only [tableOp]
  cases writeFileArgs buffer with
  | error e => simp
  | ok args =>
    cases args with
    | none => simp
    | some args => simp [Prod.ext_iff, eq_comm]

/-- The status byte with which a handler reports the outcome of its operation. -/
def Op.statusOf (out : Outcome) : Op → UInt8
  | .replace _ _ | .append _ _ | .lock _ _ => responseOk
  | _ => responseByte out.code.toInt

/-- The second status byte of a handler: the one for the new owner of the lock. -/
def Op.grants (out : Outcome) : Op → List Write
  | .unlock _ _ => if out.newOwner ≠ -1 then [⟨out.newOwner, [responseOk], .granted⟩] else []
  | _ => []

/-- What the handler of a request that returned did. -/
inductive Handled (P : Platform) (t : HTable) (fd : Int) (op : ApiOp) (buffer : List UInt8)
    (rands : List Nat) (writes : List Write) : HTable → Prop
  | untouched (htable : op.tableOp fd buffer = .ok none)
      (hstatus : ∀ w ∈ statusWrites writes, w.fd = fd ∧ w.kind = .status)
      (hone : (statusWrites writes).length ≤ 1) (hwrite : op = .writeFile → writes = []) :
      Handled P t fd op buffer rands writes t
  | called (o : Op) (out : Outcome) {t' : HTable} (htable : op.tableOp fd buffer = .ok (some o))
      (hexec : o.exec P t rands = .ok (out, t'))
      (hstatus : statusWrites writes = ⟨fd, [o.statusOf out], .status⟩ :: o.grants out) :
      Handled P t fd op buffer rands writes t'

@[simp] theorem responseByte_eq_ok {e : HTableError} :
    responseByte e.toInt = responseOk ↔ e = .ok := by
  cases e <;> decide

theorem statusWrites_append (ws ws' : List Write) :
    statusWrites (ws ++ ws') = statusWrites ws ++ statusWrites ws' := List.filter_append _ _

theorem statusWrites_fileBytes {fd : Int} {file : File} {writes : List Write}
    (hx : writeFileBytes fd file = .ok writes) : statusWrites writes = [] := by
  obtain ⟨contents, -, hx⟩ := Exec.bind_eq_ok.mp hx
  obtain rfl := Except.ok.inj hx
  rfl

theorem statusWrites_evicted {fd : Int} {evicted : List File} {writes : List Write}
    (hx : writeEvicted fd evicted = .ok writes) : statusWrites writes = [] := by
  induction evicted generalizing writes with
  | nil =>
    obtain rfl := Except.ok.inj hx
    rfl
  | cons file evicted ih =>
    obtain ⟨first, hfirst, hx⟩ := Exec.bind_eq_ok.mp hx
    obtain ⟨rest, hrest, hx⟩ := Exec.bind_eq_ok.mp hx
    obtain rfl := Except.ok.inj hx
    rw [statusWrites_append, statusWrites_fileBytes hfirst, ih hrest]
    rfl

theorem statusWrites_readN {t : HTable} {fd : Int} {fuel : Nat} {v : HTableVisitor}
    {writes : List Write} (hx : readNFilesLoop t fd fuel v = .ok writes) :
    statusWrites writes = [] := by
  induction fuel generalizing v writes with
  | zero => cases hx
  | succ fuel ih =>
    obtain ⟨⟨file, v'⟩, -, hx⟩ := Exec.bind_eq_ok.mp hx
    cases file with
    | none =>
      obtain rfl := Except.ok.inj hx
      rfl
    | some file =>
      obtain ⟨first, hfirst, hx⟩ := Exec.bind_eq_ok.mp hx
      obtain ⟨rest, hrest, hx⟩ := Exec.bind_eq_ok.mp hx
      obtain rfl := Except.ok.inj hx
      rw [statusWrites_append, statusWrites_fileBytes hfirst, ih hrest]
      rfl

section

variable {P : Platform} {t t' : HTable} {fd : Int} {buffer : List UInt8} {rands : List Nat}
  {writes : List Write}

theorem handled_readFile (hx : workerHandleReadFile P t fd buffer = .ok writes) :
    Handled P t fd .readFile buffer rands writes t := by
  obtain ⟨file, -, hx⟩ := Exec.bind_eq_ok.mp hx
  cases file with
  | none =>
    obtain rfl := Except.ok.inj hx
    exact .untouched rfl (by simp [statusWrites, writeResponseByte]) (Nat.le_refl _) nofun
  | some file =>
    obtain ⟨contents, -, hx⟩ := Exec.bind_eq_ok.mp hx
    obtain rfl := Except.ok.inj hx
    exact .untouched rfl (by simp [statusWrites]) (Nat.le_refl _) nofun

theorem handled_readNFiles (hx : workerHandleReadNFiles t fd buffer = .ok writes) :
    Handled P t fd .readNFiles buffer rands writes t := by
  have hnone : statusWrites writes = [] := by
    unfold workerHandleReadNFiles at hx
    split at hx
    · obtain rfl := Except.ok.inj hx
      rfl
    · obtain ⟨n, -, hx⟩ := Exec.bind_eq_ok.mp hx
      obtain ⟨visitor, -, hx⟩ := Exec.bind_eq_ok.mp hx
      obtain ⟨files, hfiles, hx⟩ := Exec.bind_eq_ok.mp hx
      obtain rfl := Except.ok.inj hx
      rw [statusWrites_append, statusWrites_readN hfiles]
      rfl
  exact .untouched rfl (by simp [hnone]) (by simp [hnone]) nofun

theorem handled_writeFile (hx : workerHandleWriteFile P t fd buffer rands = .ok (writes, t')) :
    Handled P t fd .writeFile buffer rands writes t' := by
  obtain ⟨args, hargs, hx⟩ := Exec.bind_eq_ok.mp hx
  cases args with
  | none =>
    simp only [Exec.pure_eq_ok, Except.ok.injEq, Prod.mk.injEq] at hx
    obtain ⟨rfl, rfl⟩ := hx
    refine .untouched ?_ nofun (Nat.zero_le _) fun _ => rfl
    simp only [ApiOp.tableOp, hargs, Exec.ok_bind, Exec.pure_eq_ok]
  | some args =>
    obtain ⟨⟨code, evicted, t₁⟩, hreplace, hx⟩ := Exec.bind_eq_ok.mp hx
    obtain ⟨files, hfiles, hx⟩ := Exec.bind_eq_ok.mp hx
    simp only [Exec.pure_eq_ok, Except.ok.injEq, Prod.mk.injEq] at hx
    obtain ⟨rfl, rfl⟩ := hx
    refine .called (.replace args.1 args.2) ⟨code, -1, evicted⟩ ?_ ?_ ?_
    · simp only [ApiOp.tableOp, hargs, Exec.ok_bind, Exec.pure_eq_ok]
    · simp only [Op.exec, hreplace, Exec.ok_bind, Exec.pure_eq_ok]
    · -- the count and the evicted files are no status bytes
      show _ :: statusWrites files = _
      rw [statusWrites_evicted hfiles]
      rfl

theorem handled_openFile {create lock : Bool} {op : ApiOp}
    (hop : op.tableOp fd buffer = .ok (some (if create then .create (bufToStr buffer) fd lock
      else .open (bufToStr buffer) fd lock)))
    (hx : workerHandleOpenFile P t fd buffer create lock = .ok (writes, t')) :
    Handled P t fd op buffer rands writes t' := by
  obtain ⟨⟨result, t₁⟩, hopen, hx⟩ := Exec.bind_eq_ok.mp hx
  simp only [Exec.pure_eq_ok, Except.ok.injEq, Prod.mk.injEq] at hx
  obtain ⟨rfl, rfl⟩ := hx
  refine .called _ ⟨result, -1, []⟩ hop ?_ ?_
  · cases create <;> simp only [Bool.false_eq_true, if_true, if_false, Op.exec, hopen,
      Exec.ok_bind, Exec.pure_eq_ok]
  · cases create <;> rfl

theorem handled_lockFile (hx : workerHandleLockFile P t fd buffer = .ok (writes, t')) :
    Handled P t fd .lockFile buffer rands writes t' := by
  obtain ⟨⟨result, t₁⟩, hlock, hx⟩ := Exec.bind_eq_ok.mp hx
  -- no result is negative
  have hnonneg : ¬result.toInt < 0 := Int.not_lt.mpr (Int.natCast_nonneg _)
  simp only [if_neg hnonneg, Exec.pure_eq_ok, Except.ok.injEq, Prod.mk.injEq] at hx
  obtain ⟨rfl, rfl⟩ := hx
  refine .called _ ⟨result, -1, []⟩ rfl ?_ rfl
  simp only [Op.exec, hlock, Exec.ok_bind, Exec.pure_eq_ok]

theorem handled_unlockFile (hx : workerHandleUnlockFile P t fd buffer = .ok (writes, t')) :
    Handled P t fd .unlockFile buffer rands writes t' := by
  obtain ⟨⟨result, newFd, t₁⟩, hunlock, hx⟩ := Exec.bind_eq_ok.mp hx
  simp only [Exec.pure_eq_ok, Except.ok.injEq, Prod.mk.injEq] at hx
  obtain ⟨rfl, rfl⟩ := hx
  refine .called _ ⟨result, newFd, []⟩ rfl ?_ ?_
  · simp only [Op.exec, hunlock, Exec.ok_bind, Exec.pure_eq_ok]
  · by_cases hnew : newFd = -1
    · subst hnew
      rfl
    · simp only [Op.grants, if_pos hnew]
      rfl

theorem handled_closeFile (hx : workerHandleCloseFile P t fd buffer = .ok (writes, t')) :
    Handled P t fd .closeFile buffer rands writes t' := by
  obtain ⟨⟨result, t₁⟩, hclose, hx⟩ := Exec.bind_eq_ok.mp hx
  simp only [Exec.pure_eq_ok, Except.ok.injEq, Prod.mk.injEq] at hx
  obtain ⟨rfl, rfl⟩ := hx
  refine .called _ ⟨result, -1, []⟩ rfl ?_ rfl
  simp only [Op.exec, hclose, Exec.ok_bind, Exec.pure_eq_ok]

theorem handled_removeFile (hx : workerHandleRemoveFile P t fd buffer = .ok (writes, t')) :
    Handled P t fd .removeFile buffer rands writes t' := by
  obtain ⟨⟨result, t₁⟩, hremove, hx⟩ := Exec.bind_eq_ok.mp hx
  simp only [Exec.pure_eq_ok, Except.ok.injEq, Prod.mk.injEq] at hx
  obtain ⟨rfl, rfl⟩ := hx
  refine .called _ ⟨result, -1, []⟩ rfl ?_ rfl
  simp only [Op.exec, hremove, Exec.ok_bind, Exec.pure_eq_ok]

/-- Every handler that returns runs at most one table operation and answers the request with at
most one status byte; only an unlock may send another one. -/
theorem handled_of_ok {op : ApiOp} (hx : workerHandleRequest P t fd op buffer rands = .ok (writes, t')) :
    Handled P t fd op buffer rands writes t' := by
  cases op with
  | openConnection | closeConnection | appendToFile =>
    simp only [workerHandleRequest, Except.ok.injEq, Prod.mk.injEq] at hx
    obtain ⟨rfl, rfl⟩ := hx
    exact .untouched rfl nofun (Nat.zero_le _) nofun
  | readFile =>
    obtain ⟨writes', hread, hx⟩ := Exec.bind_eq_ok.mp hx
    simp only [Exec.pure_eq_ok, Except.ok.injEq, Prod.mk.injEq] at hx
    obtain ⟨rfl, rfl⟩ := hx
    exact handled_readFile hread
  | readNFiles =>
    obtain ⟨writes', hread, hx⟩ := Exec.bind_eq_ok.mp hx
    simp only [Exec.pure_eq_ok, Except.ok.injEq, Prod.mk.injEq] at hx
    obtain ⟨rfl, rfl⟩ := hx
    exact handled_readNFiles hread
  | openFile | openFileCreate | openFileLock | openFileCreateLock => exact handled_openFile rfl hx
  | writeFile => exact handled_writeFile hx
  | lockFile => exact handled_lockFile hx
  | unlockFile => exact handled_unlockFile hx
  | closeFile => exact handled_closeFile hx
  | removeFile => exact handled_removeFile hx

end

end FileStorage.Server
