import FileStorage.Server.Worker

/-!
# Requests — what a message asks for

A handler first takes its arguments out of the payload.  `ParsedRequest` is a handler with its
arguments, `ParsedRequest.handle` what the handler does with them, and `ParsedRequest.tableOp` the
table operation in it.
-/

namespace FileStorage.Server

/-! ## 1. Requests -/

inductive ParsedRequest where
  | readFile (path : CStr)
  | readNFiles (n : Nat)
  | openFile (path : CStr) (create lock : Bool)
  | writeFile (path : CStr) (contents : List UInt8)
  | unlockFile (path : CStr)
  | lockFile (path : CStr)
  | closeFile (path : CStr)
  | removeFile (path : CStr)
deriving DecidableEq

/-- The handler behind its argument parser. -/
def ParsedRequest.handle (P : Platform) (t : HTable) (fd : Int) (rands : List Nat) :
    ParsedRequest → Exec (List Write × HTable)
  | .readFile path => do
      match ← htableFetchFile P t path with
      | none => return ([writeResponseByte fd (-1)], t)
      | some file =>
          let contents ← fileContents file
          return ([⟨fd, responseOk :: u64ToBigEndian file.lengthInBytes, .status⟩,
            ⟨fd, contents, .data⟩], t)
  | .readNFiles n => do
      let visitor ← htableVisit t n
      let writes ← readNFilesLoop t fd (t.items.live + 1) visitor
      return (writes ++ [⟨fd, List.replicate 8 0, .data⟩], t)
  | .openFile path create lock => do
      let (result, t) ← htableOpenOrCreateFile P t path fd create lock
      return ([writeResponseByte fd result.toInt], t)
  | .writeFile path contents => do
      let (_, evicted, t) ← htableReplaceFileContents P t path contents rands
      let writes ← writeEvicted fd evicted
      return (⟨fd, [responseOk], .status⟩ ::
        ⟨fd, u64ToBigEndian (evicted.length % unsignedSize), .data⟩ :: writes, t)
  | .unlockFile path => do
      let (result, newFd, t) ← htableUnlockFile P t path fd
      let writes :=
        if newFd ≠ -1 then
          [{ writeResponseByte newFd HTableError.ok.toInt with kind := .granted }]
        else
          []
      return (writeResponseByte fd result.toInt :: writes, t)
  | .lockFile path => do
      let (result, t) ← htableLockFile P t path fd
      let response := if result.toInt < 0 then responseErr else responseOk
      return ([⟨fd, [response], .status⟩], t)
  | .closeFile path => do
      let (result, t) ← htableCloseFile P t path fd
      return ([writeResponseByte fd result.toInt], t)
  | .removeFile path => do
      let (result, t) ← htableRemoveFile P t path fd
      return ([writeResponseByte fd result.toInt], t)

/-! ## 2. Parsing -/

/-- The arguments that a handler finds in its payload, `none` when it has no handler or a bad
format. -/
def ApiOp.request (buffer : List UInt8) : ApiOp → Exec (Option ParsedRequest)
  | .readFile => .ok (some (.readFile (bufToStr buffer)))
  | .readNFiles =>
      if buffer.length ≠ 8 then
        .ok none
      else do
        let n ← bigEndianToU64 buffer
        return some (.readNFiles n)
  | .openFile => .ok (some (.openFile (bufToStr buffer) false false))
  | .openFileCreate => .ok (some (.openFile (bufToStr buffer) true false))
  | .openFileLock => .ok (some (.openFile (bufToStr buffer) false true))
  | .openFileCreateLock => .ok (some (.openFile (bufToStr buffer) true true))
  | .writeFile => do
      match ← writeFileArgs buffer with
      | none => return none
      | some (path, contents) => return some (.writeFile path contents)
  | .unlockFile => .ok (some (.unlockFile (bufToStr buffer)))
  | .lockFile => .ok (some (.lockFile (bufToStr buffer)))
  | .closeFile => .ok (some (.closeFile (bufToStr buffer)))
  | .removeFile => .ok (some (.removeFile (bufToStr buffer)))
  | .openConnection | .closeConnection | .appendToFile => .ok none

/-- What the message `raw` asks for. -/
def requestOf (raw : List UInt8) : Exec (Option ParsedRequest) := do
  match ← messageRequest raw with
  | none => return none
  | some (op, payload) =>
      match ApiOp.ofByte op with
      | none => return none
      | some op => op.request payload

/-- Without a request there is no response and no change. -/
def handleParsed (P : Platform) (t : HTable) (fd : Int) (rands : List Nat) :
    Option ParsedRequest → Exec (List Write × HTable)
  | none => .ok ([], t)
  | some request => request.handle P t fd rands

variable {P : Platform} {t : HTable} {fd : Int} {rands : List Nat}

theorem workerHandleRequest_parsed (op : ApiOp) (buffer : List UInt8) :
    workerHandleRequest P t fd op buffer rands =
      op.request buffer >>= handleParsed P t fd rands := by
  cases op with
  | readFile =>
    show (workerHandleReadFile P t fd buffer >>= _) = _
    unfold workerHandleReadFile
    simp only [ApiOp.request, handleParsed, ParsedRequest.handle, Exec.ok_bind, bind_assoc]
    congr 1
    funext file
    cases file with
    | none => rfl
    | some file => simp only [bind_assoc, Exec.pure_eq_ok, Exec.ok_bind]
  | readNFiles =>
    show (workerHandleReadNFiles t fd buffer >>= _) = _
    unfold workerHandleReadNFiles
    simp only [ApiOp.request]
    split
    · rfl
    · simp only [bind_assoc, handleParsed, ParsedRequest.handle, Exec.pure_eq_ok, Exec.ok_bind]
  | writeFile =>
    show workerHandleWriteFile P t fd buffer rands = _
    unfold workerHandleWriteFile
    simp only [ApiOp.request, bind_assoc]
    congr 1
    funext args
    cases args with
    | none => rfl
    | some args => rfl
  | openFile | openFileCreate | openFileLock | openFileCreateLock | lockFile | unlockFile | closeFile
  | removeFile | openConnection | closeConnection | appendToFile => rfl

/-- A worker does with a message what its request says. -/
theorem workerHandleMessage_parsed (raw : List UInt8) :
    workerHandleMessage P t fd raw rands = requestOf raw >>= handleParsed P t fd rands := by
  unfold workerHandleMessage requestOf
  rw [bind_assoc]
  congr 1
  funext request
  cases request with
  | none => rfl
  | some request =>
    simp only
    cases ApiOp.ofByte request.1 with
    | none => rfl
    | some op => exact workerHandleRequest_parsed op request.2

/-! ## 3. The table operation of a request -/

def ParsedRequest.tableOp (fd : Int) : ParsedRequest → Option Op
  | .readFile _ | .readNFiles _ => none
  | .openFile path create lock => if create then some (.create path fd lock) else some (.open path fd lock)
  | .writeFile path contents => some (.replace path contents)
  | .unlockFile path => some (.unlock path fd)
  | .lockFile path => some (.lock path fd)
  | .closeFile path => some (.close path fd)
  | .removeFile path => some (.remove path fd)

variable {t' : HTable} {writes : List Write}

theorem writeFileBytes_fd {file : File} (hx : writeFileBytes fd file = .ok writes) :
    ∀ w ∈ writes, w.fd = fd := by
  obtain ⟨contents, -, hx⟩ := Exec.bind_eq_ok.mp hx
  obtain rfl := Except.ok.inj hx
  simp

theorem writeEvicted_fd {evicted : List File} (hx : writeEvicted fd evicted = .ok writes) :
    ∀ w ∈ writes, w.fd = fd := by
  induction evicted generalizing writes with
  | nil =>
    obtain rfl := Except.ok.inj hx
    exact fun w hw => absurd hw List.not_mem_nil
  | cons file evicted ih =>
    obtain ⟨first, hfirst, hx⟩ := Exec.bind_eq_ok.mp hx
    obtain ⟨rest, hrest, hx⟩ := Exec.bind_eq_ok.mp hx
    obtain rfl := Except.ok.inj hx
    exact List.forall_mem_append.mpr ⟨writeFileBytes_fd hfirst, ih hrest⟩

theorem readNFilesLoop_fd {fuel : Nat} {v : HTableVisitor}
    (hx : readNFilesLoop t fd fuel v = .ok writes) : ∀ w ∈ writes, w.fd = fd := by
  induction fuel generalizing v writes with
  | zero => cases hx
  | succ fuel ih =>
    obtain ⟨⟨file, v'⟩, -, hx⟩ := Exec.bind_eq_ok.mp hx
    cases file with
    | none =>
      obtain rfl := Except.ok.inj hx
      exact fun w hw => absurd hw List.not_mem_nil
    | some file =>
      obtain ⟨first, hfirst, hx⟩ := Exec.bind_eq_ok.mp hx
      obtain ⟨rest, hrest, hx⟩ := Exec.bind_eq_ok.mp hx
      obtain rfl := Except.ok.inj hx
      exact List.forall_mem_append.mpr ⟨writeFileBytes_fd hfirst, ih hrest⟩

/-- A request runs at most one table operation, and only the byte for a new owner of a lock goes to
another descriptor. -/
theorem ParsedRequest.handle_cases {request : ParsedRequest}
    (hx : request.handle P t fd rands = .ok (writes, t')) :
    (request.tableOp fd = none ∧ t' = t ∧ ∀ w ∈ writes, w.fd = fd) ∨
      ∃ o out, request.tableOp fd = some o ∧ o.exec P t rands = .ok (out, t') ∧
        ∀ w ∈ writes, w.fd = fd ∨ w ∈ o.grants out := by
  cases request with
  | readFile path =>
    obtain ⟨file, -, hx⟩ := Exec.bind_eq_ok.mp hx
    cases file with
    | none =>
      cases hx
      exact Or.inl ⟨rfl, rfl, by simp [writeResponseByte]⟩
    | some file =>
      obtain ⟨contents, -, hx⟩ := Exec.bind_eq_ok.mp hx
      cases hx
      exact Or.inl ⟨rfl, rfl, by simp⟩
  | readNFiles n =>
    obtain ⟨visitor, -, hx⟩ := Exec.bind_eq_ok.mp hx
    obtain ⟨files, hfiles, hx⟩ := Exec.bind_eq_ok.mp hx
    cases hx
    refine Or.inl ⟨rfl, rfl, List.forall_mem_append.mpr ⟨readNFilesLoop_fd hfiles, ?_⟩⟩
    simp
  | openFile path create lock =>
    obtain ⟨⟨result, t₁⟩, hopen, hx⟩ := Exec.bind_eq_ok.mp hx
    cases hx
    refine Or.inr ⟨if create then .create path fd lock else .open path fd lock, ⟨result, -1, []⟩,
      ?_, ?_, by simp [writeResponseByte]⟩
    · cases create <;> rfl
    · cases create <;> simp only [Bool.false_eq_true, if_true, if_false, Op.exec, hopen,
        Exec.ok_bind, Exec.pure_eq_ok]
  | writeFile path contents =>
    obtain ⟨⟨code, evicted, t₁⟩, hreplace, hx⟩ := Exec.bind_eq_ok.mp hx
    obtain ⟨files, hfiles, hx⟩ := Exec.bind_eq_ok.mp hx
    cases hx
    refine Or.inr ⟨_, ⟨code, -1, evicted⟩, rfl, ?_, fun w hw => Or.inl ?_⟩
    · simp only [Op.exec, hreplace, Exec.ok_bind, Exec.pure_eq_ok]
    · rcases List.mem_cons.mp hw with rfl | hw
      · rfl
      · rcases List.mem_cons.mp hw with rfl | hw
        · rfl
        · exact writeEvicted_fd hfiles w hw
  | unlockFile path =>
    obtain ⟨⟨result, newFd, t₁⟩, hunlock, hx⟩ := Exec.bind_eq_ok.mp hx
    cases hx
    refine Or.inr ⟨_, ⟨result, newFd, []⟩, rfl, ?_, fun w hw => ?_⟩
    · simp only [Op.exec, hunlock, Exec.ok_bind, Exec.pure_eq_ok]
    · rcases List.mem_cons.mp hw with rfl | hw
      · exact Or.inl rfl
      · exact Or.inr hw
  | lockFile path =>
    obtain ⟨⟨result, t₁⟩, hlock, hx⟩ := Exec.bind_eq_ok.mp hx
    cases hx
    refine Or.inr ⟨_, ⟨result, -1, []⟩, rfl, ?_, by simp⟩
    simp only [Op.exec, hlock, Exec.ok_bind, Exec.pure_eq_ok]
  | closeFile path =>
    obtain ⟨⟨result, t₁⟩, hclose, hx⟩ := Exec.bind_eq_ok.mp hx
    cases hx
    refine Or.inr ⟨_, ⟨result, -1, []⟩, rfl, ?_, by simp [writeResponseByte]⟩
    simp only [Op.exec, hclose, Exec.ok_bind, Exec.pure_eq_ok]
  | removeFile path =>
    obtain ⟨⟨result, t₁⟩, hremove, hx⟩ := Exec.bind_eq_ok.mp hx
    cases hx
    refine Or.inr ⟨_, ⟨result, -1, []⟩, rfl, ?_, by simp [writeResponseByte]⟩
    simp only [Op.exec, hremove, Exec.ok_bind, Exec.pure_eq_ok]

/-- The table operation that the message `raw` of `fd` comes to. -/
def messageOp (fd : Int) (raw : List UInt8) : Option Op :=
  (requestOf raw).toOption.join.bind (ParsedRequest.tableOp fd)

/-- The same for a message. -/
theorem workerHandleMessage_cases {raw : List UInt8}
    (hx : workerHandleMessage P t fd raw rands = .ok (writes, t')) :
    (messageOp fd raw = none ∧ t' = t ∧ ∀ w ∈ writes, w.fd = fd) ∨
      ∃ o out, messageOp fd raw = some o ∧ o.exec P t rands = .ok (out, t') ∧
        ∀ w ∈ writes, w.fd = fd ∨ w ∈ o.grants out := by
  rw [workerHandleMessage_parsed] at hx
  obtain ⟨request, hrequest, hx⟩ := Exec.bind_eq_ok.mp hx
  rw [messageOp, hrequest]
  cases request with
  | none =>
    cases hx
    exact Or.inl ⟨rfl, rfl, fun w hw => absurd hw List.not_mem_nil⟩
  | some request => exact ParsedRequest.handle_cases hx

end FileStorage.Server
