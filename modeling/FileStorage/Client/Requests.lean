import FileStorage.Server.Handover
import FileStorage.Server.Intake
import FileStorage.Server.Requests

/-!
# Requests — what the client library sends

The bytes that a call of the API writes on an open connection, and what the server makes of them.
-/

namespace FileStorage.Client

open Server

/-! ## 1. The code -/

def headerMagicCode : Nat := 0x86b2f464f65e01

/-- The number of the enumerator. -/
def opByte : ApiOp → UInt8
  | .openConnection => 0
  | .closeConnection => 1
  | .openFile => 2
  | .openFileCreate => 3
  | .openFileLock => 4
  | .openFileCreateLock => 5
  | .readFile => 6
  | .readNFiles => 7
  | .writeFile => 8
  | .appendToFile => 9
  | .lockFile => 10
  | .unlockFile => 11
  | .closeFile => 12
  | .removeFile => 13

def writeOp (op : ApiOp) : List UInt8 := [opByte op]

def writeU64 (data : Nat) : List UInt8 := u64ToBigEndian data

/-- The request half of `make_simple_request`. -/
def makeSimpleRequest (op : ApiOp) (pathname : CStr) : List UInt8 :=
  writeU64 headerMagicCode ++ writeU64 (wadd 1 pathname.strlen) ++ writeOp op ++ pathname.bytes

def makeRequestWithTwoArgs (op : ApiOp) (arg1 arg2 : List UInt8) : List UInt8 :=
  let messageSizeInBytes := wadd (wadd (1 + 8 + 8) arg1.length) arg2.length
  writeU64 headerMagicCode ++ writeU64 messageSizeInBytes ++ writeOp op ++ writeU64 arg1.length ++
    writeU64 arg2.length ++ arg1 ++ arg2

def oCreate : Int32 := 1

def oLock : Int32 := 2

/-- Unknown flags fail before anything is written. -/
def openFile (pathname : CStr) (flags : Int32) : Option (List UInt8) :=
  if flags = oCreate then some (makeSimpleRequest .openFileCreate pathname)
  else if flags = oLock then some (makeSimpleRequest .openFileLock pathname)
  else if flags = oCreate ||| oLock then some (makeSimpleRequest .openFileCreateLock pathname)
  else if flags = 0 then some (makeSimpleRequest .openFile pathname)
  else none

/-- So does a negative number of files. -/
def readNFiles (n : Int32) : Option (List UInt8) :=
  if n.toInt < 0 then
    none
  else
    some (writeU64 headerMagicCode ++ writeU64 (1 + 8) ++ writeOp .readNFiles ++
      writeU64 n.toInt.toNat)

/-- A call of the API; `contents` are those of the local file. -/
inductive ApiCall where
  | openFile (pathname : CStr) (flags : Int32)
  | readFile (pathname : CStr)
  | readNFiles (n : Int32)
  | writeFile (filepath : CStr) (contents : List UInt8)
  | lockFile (pathname : CStr)
  | unlockFile (pathname : CStr)
  | closeFile (pathname : CStr)
  | removeFile (pathname : CStr)

/-- What the call writes, `none` when it fails before. -/
def ApiCall.emitted : ApiCall → Option (List UInt8)
  | .openFile pathname flags => Client.openFile pathname flags
  | .readFile pathname => some (makeSimpleRequest .readFile pathname)
  | .readNFiles n => Client.readNFiles n
  | .writeFile filepath contents =>
      some (makeRequestWithTwoArgs .writeFile filepath.bytes contents)
  | .lockFile pathname => some (makeSimpleRequest .lockFile pathname)
  | .unlockFile pathname => some (makeSimpleRequest .unlockFile pathname)
  | .closeFile pathname => some (makeSimpleRequest .closeFile pathname)
  | .removeFile pathname => some (makeSimpleRequest .removeFile pathname)

/-- The handler that the call is meant for, with its arguments. -/
def ApiCall.asked : ApiCall → ParsedRequest
  | .openFile pathname flags =>
      .openFile pathname (flags = oCreate ∨ flags = oCreate ||| oLock)
        (flags = oLock ∨ flags = oCreate ||| oLock)
  | .readFile pathname => .readFile pathname
  | .readNFiles n => .readNFiles n.toInt.toNat
  | .writeFile filepath contents => .writeFile filepath contents
  | .lockFile pathname => .lockFile pathname
  | .unlockFile pathname => .unlockFile pathname
  | .closeFile pathname => .closeFile pathname
  | .removeFile pathname => .removeFile pathname

/-! ## 2. The messages -/

@[simp] theorem ofByte_opByte (op : ApiOp) : ApiOp.ofByte (opByte op) = some op := by
  cases op <;> rfl

theorem bufToStr_bytes (path : CStr) : bufToStr path.bytes = path := by
  obtain ⟨bytes, noNul⟩ := path
  have htake : bytes.takeWhile (· ≠ 0) = bytes := by
    refine List.takeWhile_eq_self_iff.mpr fun b hb => ?_
    have hne : b ≠ 0 := fun heq => noNul (heq ▸ hb)
    exact decide_eq_true hne
  simp only [bufToStr, htake]

theorem makeSimpleRequest_eq {op : ApiOp} {pathname : CStr}
    (hfits : (makeSimpleRequest op pathname).length < wordSize) :
    makeSimpleRequest op pathname = frame (opByte op :: pathname.bytes) := by
  have hlength : (makeSimpleRequest op pathname).length = 17 + pathname.strlen := by
    simp [makeSimpleRequest, writeU64, writeOp, CStr.strlen]
    omega
  have hsum : wadd 1 pathname.strlen = (opByte op :: pathname.bytes).length := by
    rw [wadd_of_lt (by omega), List.length_cons, CStr.strlen, Nat.add_comm]
  rw [makeSimpleRequest, hsum, frame, List.append_assoc _ (writeOp op)]
  rfl

theorem makeRequestWithTwoArgs_eq {op : ApiOp} {arg1 arg2 : List UInt8}
    (hfits : (makeRequestWithTwoArgs op arg1 arg2).length < wordSize) :
    makeRequestWithTwoArgs op arg1 arg2 =
      frame (opByte op :: (u64ToBigEndian arg1.length ++ u64ToBigEndian arg2.length ++ arg1 ++ arg2)) := by
  have hlength : (makeRequestWithTwoArgs op arg1 arg2).length = 33 + arg1.length + arg2.length := by
    simp [makeRequestWithTwoArgs, writeU64, writeOp]
    omega
  have hsum : wadd (wadd (1 + 8 + 8) arg1.length) arg2.length = (opByte op ::
      (u64ToBigEndian arg1.length ++ u64ToBigEndian arg2.length ++ arg1 ++ arg2)).length := by
    have hinner : wadd (1 + 8 + 8) arg1.length = 17 + arg1.length := wadd_of_lt (by omega)
    rw [hinner, wadd_of_lt (by omega)]
    simp
    omega
  rw [makeRequestWithTwoArgs]
  simp only [hsum, frame, writeU64, writeOp, List.append_assoc, List.cons_append, List.nil_append]
  rfl

/-- The server finds the two arguments where the client put them. -/
theorem writeFileArgs_eq {path : CStr} {contents : List UInt8}
    (hfits : 16 + path.bytes.length + contents.length < wordSize) :
    writeFileArgs (u64ToBigEndian path.bytes.length ++ u64ToBigEndian contents.length ++ path.bytes ++
      contents) = .ok (some (path, contents)) := by
  have hlength : (u64ToBigEndian path.bytes.length ++ u64ToBigEndian contents.length ++ path.bytes ++
      contents).length = 16 + path.bytes.length + contents.length := by
    simp only [List.length_append, u64ToBigEndian_length]
  have hsum : wadd (wadd (8 * 2) path.bytes.length) contents.length =
      16 + path.bytes.length + contents.length := by
    have hinner : wadd (8 * 2) path.bytes.length = 16 + path.bytes.length := wadd_of_lt (by omega)
    rw [hinner, wadd_of_lt hfits]
  have hsecond : bigEndianToU64 ((u64ToBigEndian path.bytes.length ++
      u64ToBigEndian contents.length ++ path.bytes ++ contents).drop 8) = .ok contents.length := by
    rw [List.append_assoc, List.append_assoc, List.drop_left' (u64ToBigEndian_length _)]
    exact bigEndianToU64_u64ToBigEndian (by omega) _
  have hargs : (u64ToBigEndian path.bytes.length ++ u64ToBigEndian contents.length ++ path.bytes ++
      contents).drop 16 = path.bytes ++ contents := by
    rw [List.append_assoc _ path.bytes]
    exact List.drop_left' rfl
  have hfirst := bigEndianToU64_u64ToBigEndian (show path.bytes.length < wordSize by omega)
    (u64ToBigEndian contents.length ++ (path.bytes ++ contents))
  rw [← List.append_assoc, ← List.append_assoc] at hfirst
  unfold writeFileArgs
  rw [if_neg (by omega), hfirst, Exec.ok_bind, hsecond, Exec.ok_bind,
    if_neg (by rw [hlength, hsum]; exact not_not.mpr rfl), hargs]
  simp [bufToStr_bytes]

/-- The message is a frame around the operation code and the arguments that its handler expects. -/
theorem emitted_eq {call : ApiCall} {raw : List UInt8} (hraw : call.emitted = some raw)
    (hfits : raw.length < wordSize) :
    ∃ op payload, raw = frame (opByte op :: payload) ∧ op.request payload = .ok (some call.asked) := by
  cases call with
  | readFile pathname | lockFile pathname | unlockFile pathname | closeFile pathname
  | removeFile pathname =>
    obtain rfl := Option.some.inj hraw
    refine ⟨_, _, makeSimpleRequest_eq hfits, ?_⟩
    simp only [ApiOp.request, bufToStr_bytes, ApiCall.asked]
  | openFile pathname flags =>
    simp only [ApiCall.emitted, openFile] at hraw
    -- the flags are in the operation code
    have hopen : ∀ {op : ApiOp} {create lock : Bool},
        op.request pathname.bytes = .ok (some (.openFile (bufToStr pathname.bytes) create lock)) →
        some (makeSimpleRequest op pathname) = some raw →
        decide (flags = oCreate ∨ flags = oCreate ||| oLock) = create →
        decide (flags = oLock ∨ flags = oCreate ||| oLock) = lock →
        ∃ op payload, raw = frame (opByte op :: payload) ∧
          op.request payload = .ok (some (ApiCall.openFile pathname flags).asked) := by
      rintro op create lock hop heq rfl rfl
      obtain rfl := Option.some.inj heq
      refine ⟨op, _, makeSimpleRequest_eq hfits, ?_⟩
      rw [hop, bufToStr_bytes]
      rfl
    split at hraw
    · rename_i hflags
      subst hflags
      exact hopen rfl hraw (by decide) (by decide)
    · split at hraw
      · rename_i hflags
        subst hflags
        exact hopen rfl hraw (by decide) (by decide)
      · split at hraw
        · rename_i hflags
          subst hflags
          exact hopen rfl hraw (by decide) (by decide)
        · split at hraw
          · rename_i hflags
            subst hflags
            exact hopen rfl hraw (by decide) (by decide)
          · cases hraw
  | readNFiles n =>
    simp only [ApiCall.emitted, readNFiles] at hraw
    split at hraw
    · cases hraw
    · obtain rfl := Option.some.inj hraw
      have hn := n.toInt_lt
      have hself := bigEndianToU64_u64ToBigEndian
        (show n.toInt.toNat < wordSize by simp only [wordSize]; omega) []
      rw [List.append_nil] at hself
      refine ⟨.readNFiles, u64ToBigEndian n.toInt.toNat, ?_, ?_⟩
      · simp only [frame, writeU64, writeOp, List.append_assoc, List.cons_append, List.nil_append]
        rfl
      · simp only [ApiOp.request, u64ToBigEndian_length, ne_eq, not_true_eq_false, if_false, hself,
          Exec.ok_bind, Exec.pure_eq_ok, ApiCall.asked]
  | writeFile filepath contents =>
    obtain rfl := Option.some.inj hraw
    have hlength := congrArg List.length (makeRequestWithTwoArgs_eq hfits)
    refine ⟨_, _, makeRequestWithTwoArgs_eq hfits, ?_⟩
    rw [frame_length] at hlength
    simp only [List.length_cons, List.length_append, u64ToBigEndian_length] at hlength
    have hargs : writeFileArgs _ = .ok (some (filepath, contents)) := writeFileArgs_eq (by omega)
    simp only [ApiOp.request, hargs, Exec.ok_bind, Exec.pure_eq_ok, ApiCall.asked]

/-! ## 3. The server's side -/

theorem requestOf_frame {op : ApiOp} {payload : List UInt8}
    (hfits : (frame (opByte op :: payload)).length < wordSize) :
    requestOf (frame (opByte op :: payload)) = op.request payload := by
  rw [frame_length] at hfits
  have hcomplete : Complete _ (frame (opByte op :: payload)) := complete_frame (by omega)
  have hparsed := hcomplete.messageRequest
  rw [← List.drop_drop, frame_drop] at hparsed
  change messageRequest (frame (opByte op :: payload)) = .ok (some (opByte op, payload)) at hparsed
  simp only [requestOf, hparsed, Exec.ok_bind, ofByte_opByte]

/-- Whatever the sizes of the reads, the bytes of a call come out of the deserializer as one message,
and the worker handles it with the handler and the arguments of the call. -/
theorem request_dispatched {call : ApiCall} {raw : List UInt8} (hraw : call.emitted = some raw)
    (hfits : raw.length < wordSize) :
    (∀ (P : Platform) (cuts : List Nat),
      (∀ isNull, ∀ size ≤ raw.length, 0 < size → P.grants isNull size) → (∀ cut ∈ cuts, 0 < cut) →
        Covers raw.length 0 cuts →
          feed P deserializerCreate raw cuts = .ok ([⟨raw.length, raw⟩], deserializerCreate)) ∧
      requestOf raw = .ok (some call.asked) ∧
      ∀ (P : Platform) (t : HTable) (fd : Int) (rands : List Nat),
        workerHandleMessage P t fd raw rands = call.asked.handle P t fd rands := by
  obtain ⟨op, payload, rfl, hrequest⟩ := emitted_eq hraw hfits
  have hasked : requestOf (frame (opByte op :: payload)) = .ok (some call.asked) := by
    rw [requestOf_frame hfits, hrequest]
  refine ⟨fun P cuts hgrants hcuts hcovers => ?_, hasked, fun P t fd rands => ?_⟩
  · rw [frame_length] at hfits
    exact feed_frame (by omega) hgrants hcuts hcovers
  · rw [workerHandleMessage_parsed, hasked]
    rfl

/-- `openFile` with both flags on a file `a`, the bytes of which come one by one. -/
theorem request_dispatched_open :
    let path : CStr := ⟨[97], by decide⟩
    let raw := makeSimpleRequest .openFileCreateLock path
    feed samplePlatform deserializerCreate raw (List.replicate 18 1) =
        .ok ([⟨18, raw⟩], deserializerCreate) ∧
      ∀ (P : Platform) (t : HTable) (fd : Int) (rands : List Nat),
        workerHandleMessage P t fd raw rands = (ParsedRequest.openFile path true true).handle P t fd rands := by
  intro path raw
  have hraw : (ApiCall.openFile path 3).emitted = some raw := by decide
  have h := request_dispatched hraw (by decide)
  have hcuts : ∀ cut ∈ List.replicate 18 1, 0 < cut := by decide
  have hcovers : Covers raw.length 0 (List.replicate 18 1) :=
    covers_of_length (by decide) hcuts (by decide)
  refine ⟨h.1 samplePlatform (List.replicate 18 1) ?_ hcuts hcovers, h.2.2⟩
  intro isNull size _ hpos
  simp [samplePlatform, hpos]

end FileStorage.Client
