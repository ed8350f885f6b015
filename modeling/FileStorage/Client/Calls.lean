import FileStorage.Client.EvictedFiles
import FileStorage.Client.Requests
import FileStorage.Client.Truncation

/-!
# Calls — a call of the API from end to end

What the handler of a call does to the store and writes to the caller, and what the caller makes of it.
-/

namespace FileStorage.Client

open Server EndOfStream

/-! ## 1. The code -/

/-- The response half of `readNFiles`, behind writes that gave 1. -/
def EndOfStream.readNFilesResponse (m : Machine) (dirname : Option CStr) (files : Files) (s : Chunks) :
    Exec (Int32 × Files × Chunks) := do
  if dirname = none then
    throw .assertion
  let (result, bufferResponseCode, s) ← readBytes s [0]
  let err := 1 ||| result
  if err < 0 ∨ bufferResponseCode = [responseErr] then
    return (-1, files, s)
  let (result, bufferNumFiles, s) ← readBytes s (List.replicate 8 0)
  let err := err ||| result
  if err < 0 then
    return (-1, files, s)
  let numFiles ← bigEndianToU64 bufferNumFiles
  readFiles m dirname numFiles 0 err files s

/-- What a call hands to its caller. -/
structure Result where
  code : Int32
  buf : List UInt8  -- `*buf` of `readFile`
  files : Files     -- the local files

/-- The response half of a call. -/
def ApiCall.response (m : EndOfStream.Machine) (dirname : Option CStr) (files : Files)
    (s : Chunks) : ApiCall → Exec (Result × Chunks)
  | .readFile _ => do
      let (code, buf, s) ← EndOfStream.readFileResponse m s
      return (⟨code, buf, files⟩, s)
  | .readNFiles _ => do
      let (code, files, s) ← EndOfStream.readNFilesResponse m dirname files s
      return (⟨code, [], files⟩, s)
  | .writeFile _ _ => do
      let (code, files, s) ← EndOfStream.handleResponseWithFiles m dirname files s
      return (⟨code, [], files⟩, s)
  | .openFile _ _ | .lockFile _ | .unlockFile _ | .closeFile _ | .removeFile _ =>
      let (code, s) := EndOfStream.simpleResponse s
      .ok (⟨code, [], files⟩, s)

/-! ## 2. What a call is for -/

def opReply (out : Outcome) : Op → EndOfStream.Reply
  | .replace _ _ | .append _ _ => .writeFile (some (out.evicted.map sentFile))
  | .lock _ _ => .simple responseOk
  | _ => .simple (responseByte out.code.toInt)

/-- The reply to a call that is handled now; the bytes that `readNFiles` is answered with are none. -/
def ApiCall.reply (P : Platform) (t : HTable) (fd : Int) (rands : List Nat) (call : ApiCall) :
    Exec (Option EndOfStream.Reply) :=
  match call.asked.tableOp fd with
  | some o => do
      let (out, _) ← o.exec P t rands
      return some (opReply out o)
  | none =>
      match call with
      | .readFile path => do
          match ← htableFetchFile P t path with
          | none => return some (.readFile none)
          | some file => do
              let contents ← fileContents file
              return some (.readFile (some contents))
      | _ => .ok none

/-- A call of the client behind `fd` with its reply, on the map. -/
inductive StoreStep (m : FileMap) : Nat × ApiCall × EndOfStream.Reply → FileMap → Prop
  | found {fd : Nat} {path : CStr} {f : File} (h : m path = some f) :
      StoreStep m (fd, .readFile path, .readFile (some f.bytes)) m
  | missing {fd : Nat} {path : CStr} (h : m path = none) :
      StoreStep m (fd, .readFile path, .readFile none) m
  | op {fd : Nat} {call : ApiCall} {o : Op} {out : Outcome} {m' : FileMap}
      (hop : call.asked.tableOp fd = some o) (h : MapStep m o out m') :
      StoreStep m (fd, call, opReply out o) m'

/-- What `write_file_to_dir` leaves of these files, one after the other, and the code of the call. -/
def EndOfStream.Machine.saveAll (m : Machine) (dirname : CStr) :
    Nat → Files → List Pair → Int32 × Files
  | _, files, [] => (0, files)
  | i, files, pair :: pairs =>
      if m.Takes i pair then
        m.saveAll dirname (i + 1) (m.store i dirname files pair.1 pair.2) pairs
      else
        (-1, m.store i dirname files pair.1 pair.2)

/-- What the caller makes of a reply.  Contents of 2^31 bytes and more look like an error. -/
def EndOfStream.Reply.result (m : Machine) (dirname : Option CStr) (files : Files) : Reply → Result
  | .simple code => ⟨if code = responseErr then -1 else 0, [], files⟩
  | .readFile none | .writeFile none => ⟨-1, [], files⟩
  | .readFile (some contents) => ⟨if FitsInt contents.length then 0 else -1, contents, files⟩
  | .writeFile (some pairs) =>
      match dirname with
      | none => ⟨0, [], files⟩
      | some dirname =>
          let (code, files) := m.saveAll dirname 0 files pairs
          ⟨code, [], files⟩

/-! ## 3. The server's side -/

variable {P : Platform} {t t' : HTable} {L : Contents} {fd : Int} {rands : List Nat}
  {writes : List Write}

/-- The server handles a request as it was meant. -/
theorem handleMessage_asked {call : ApiCall} {raw : List UInt8} (hraw : call.emitted = some raw)
    (hfits : raw.length < wordSize) :
    workerHandleMessage P t fd raw rands = call.asked.handle P t fd rands := by
  obtain ⟨op, payload, rfl, hrequest⟩ := emitted_eq hraw hfits
  rw [workerHandleMessage_parsed, requestOf_frame hfits, hrequest]
  rfl

/-- What the reads of a request make of it. -/
theorem feed_request {call : ApiCall} {raw : List UInt8} (hraw : call.emitted = some raw)
    (hfits : raw.length < wordSize) {cuts : List Nat} (hcuts : ∀ cut ∈ cuts, 0 < cut)
    {buffers : List Buffer} {de : Deserializer}
    (hx : feed P deserializerCreate raw cuts = .ok (buffers, de)) :
    buffers = [] ∨ buffers = [⟨raw.length, raw⟩] ∧ de = deserializerCreate := by
  obtain ⟨op, payload, rfl, -⟩ := emitted_eq hraw hfits
  rw [frame_length] at hfits
  have hpayload : (opByte op :: payload).length + 16 < wordSize := by omega
  exact feed_part_cases holding_create rfl (isFrame_frame hpayload).nonempty hpayload hcuts hx

/-- The handler writes the reply to its own descriptor, and then what the operation grants. -/
theorem handle_op {request : ParsedRequest} {o : Op} (hop : request.tableOp fd = some o)
    (hx : request.handle P t fd rands = .ok (writes, t')) :
    ∃ out own, o.exec P t rands = .ok (out, t') ∧ writes = own ++ o.grants out ∧
      (∀ w ∈ own, w.fd = fd) ∧ out.evicted.length < unsignedSize ∧
        ((∀ f ∈ out.evicted, f.Sized) → bytesTo fd own = (opReply out o).bytes) := by
  have hone : ∀ code : Int, bytesTo fd [writeResponseByte fd code] = [responseByte code] := by
    intro code
    simp [bytesTo, writeResponseByte]
  have hnone : ([] : List File).length < unsignedSize := by decide
  have hown : ∀ code : Int, ∀ w ∈ [writeResponseByte fd code], w.fd = fd := by
    intro code
    simp [writeResponseByte]
  cases request with
  | readFile path | readNFiles n => cases hop
  | openFile path create lock =>
    obtain ⟨⟨result, t₁⟩, hopen, hx⟩ := Exec.bind_eq_ok.mp hx
    cases hx
    refine ⟨⟨result, -1, []⟩, [writeResponseByte fd result.toInt], ?_, ?_, hown _, hnone, fun _ => ?_⟩
    · cases create <;> cases hop <;> simp only [Op.exec, hopen, Exec.ok_bind, Exec.pure_eq_ok]
    · cases create <;> cases hop <;> rfl
    · cases create <;> cases hop <;> exact hone _
  | writeFile path contents =>
    cases hop
    obtain ⟨⟨code, evicted, t₁⟩, hreplace, hx⟩ := Exec.bind_eq_ok.mp hx
    obtain ⟨files, hfiles, hx⟩ := Exec.bind_eq_ok.mp hx
    cases hx
    refine ⟨⟨code, -1, evicted⟩, _, ?_, (List.append_nil _).symm, ?_,
      replace_evicted_length hreplace, fun hsized => ?_⟩
    · simp only [Op.exec, hreplace, Exec.ok_bind, Exec.pure_eq_ok]
    · rintro w (_ | ⟨_, _ | ⟨_, hw⟩⟩)
      · rfl
      · rfl
      · exact writeEvicted_fd hfiles w hw
    · obtain ⟨files', hfiles', hbytes⟩ :
          ∃ files', writeEvicted fd evicted = .ok files' ∧
            bytesTo fd files' = (evicted.map sentFile).flatMap record :=
        writeEvicted_of_sized hsized
      obtain rfl : files' = files := Except.ok.inj (hfiles'.symm.trans hfiles)
      rw [bytesTo_cons_self, bytesTo_cons_self, hbytes,
        Nat.mod_eq_of_lt (replace_evicted_length hreplace)]
      simp only [opReply, EndOfStream.Reply.bytes, response, List.length_map]
  | unlockFile path =>
    cases hop
    obtain ⟨⟨result, newFd, t₁⟩, hunlock, hx⟩ := Exec.bind_eq_ok.mp hx
    cases hx
    refine ⟨⟨result, newFd, []⟩, [writeResponseByte fd result.toInt], ?_, rfl, hown _,
      hnone, fun _ => hone _⟩
    simp only [Op.exec, hunlock, Exec.ok_bind, Exec.pure_eq_ok]
  | lockFile path =>
    cases hop
    obtain ⟨⟨result, t₁⟩, hlock, hx⟩ := Exec.bind_eq_ok.mp hx
    cases hx
    -- no result is negative
    have hnonneg : ¬result.toInt < 0 := Int.not_lt.mpr (Int.natCast_nonneg _)
    rw [if_neg hnonneg]
    refine ⟨⟨result, -1, []⟩, [⟨fd, [responseOk], .status⟩], ?_, rfl, by simp, hnone,
      fun _ => ?_⟩
    · simp only [Op.exec, hlock, Exec.ok_bind, Exec.pure_eq_ok]
    · simp [bytesTo, opReply, EndOfStream.Reply.bytes]
  | closeFile path =>
    cases hop
    obtain ⟨⟨result, t₁⟩, hclose, hx⟩ := Exec.bind_eq_ok.mp hx
    cases hx
    refine ⟨⟨result, -1, []⟩, [writeResponseByte fd result.toInt], ?_, rfl, hown _,
      hnone, fun _ => hone _⟩
    simp only [Op.exec, hclose, Exec.ok_bind, Exec.pure_eq_ok]
  | removeFile path =>
    cases hop
    obtain ⟨⟨result, t₁⟩, hremove, hx⟩ := Exec.bind_eq_ok.mp hx
    cases hx
    refine ⟨⟨result, -1, []⟩, [writeResponseByte fd result.toInt], ?_, rfl, hown _,
      hnone, fun _ => hone _⟩
    simp only [Op.exec, hremove, Exec.ok_bind, Exec.pure_eq_ok]

/-- A path with contents that one request can carry. -/
def FileFits (f : File) : Prop := f.key.strlen + f.bytes.length < wordSize

/-- Whatever holds of the stored files and of what the operation stores holds of all files that are
stored or evicted then. -/
theorem forall_files {m m' : FileMap} {o : Op} {out : Outcome} (h : MapStep m o out m')
    {Q : File → Prop} (hstored : ∀ key f, m key = some f → Q f)
    (hput : ∀ code newOwner f, o.verdict (m o.key) = .put code newOwner f → Q f) :
    (∀ f ∈ out.evicted, Q f) ∧ ∀ key f, m' key = some f → Q f := by
  refine ⟨fun f hf => ?_, fun key f hf => ?_⟩
  · by_cases hkey : f.key = o.key
    · obtain ⟨g, hg, hverdict⟩ := h.evicted_own hf hkey
      rw [hkey] at hg
      exact hput .ok (-1) f (by rw [hg, hverdict])
    · exact hstored _ _ (h.evicted_other hf hkey)
  · rcases h.stored_before hf with hbefore | ⟨rfl, code, newOwner, hverdict⟩
    · exact hstored _ _ hbefore
    · exact hput _ _ _ hverdict

theorem emitted_length {path : CStr} {flags : Int32} {raw : List UInt8}
    (hraw : (ApiCall.openFile path flags).emitted = some raw) : path.strlen ≤ raw.length := by
  have hsimple : ∀ op, path.strlen ≤ (makeSimpleRequest op path).length := by
    intro op
    simp only [makeSimpleRequest, List.length_append, CStr.strlen]
    omega
  simp only [ApiCall.emitted, openFile] at hraw
  split at hraw
  · obtain rfl := Option.some.inj hraw
    exact hsimple _
  · split at hraw
    · obtain rfl := Option.some.inj hraw
      exact hsimple _
    · split at hraw
      · obtain rfl := Option.some.inj hraw
        exact hsimple _
      · split at hraw
        · obtain rfl := Option.some.inj hraw
          exact hsimple _
        · cases hraw

/-- An operation that touches a stored file leaves its path and its contents. -/
theorem fits_of_touch {o : Op} (ho : o.touches) {m : FileMap}
    (hstored : ∀ key f, m key = some f → f.key = key ∧ FileFits f) {code : HTableError}
    {newOwner : Int} {f : File} (h : o.verdict (m o.key) = .put code newOwner f) : FileFits f := by
  cases hm : m o.key with
  | none =>
    rw [hm] at h
    cases o <;> cases h
    cases ho
  | some g =>
    rw [hm] at h
    have hfits := (hstored _ _ hm).2
    rw [FileFits, File.bytes] at hfits ⊢
    rwa [Op.verdict_some_key h, (Op.verdict_put_contents ho h).1]

/-- What a call stores fits, as its request did. -/
theorem fits_of_put {call : ApiCall} {raw : List UInt8} (hraw : call.emitted = some raw)
    (hfits : raw.length < wordSize) {o : Op} (hop : call.asked.tableOp fd = some o) {m : FileMap}
    (hstored : ∀ key f, m key = some f → f.key = key ∧ FileFits f) {code : HTableError}
    {newOwner : Int} {f : File} (h : o.verdict (m o.key) = .put code newOwner f) : FileFits f := by
  cases call with
  | readFile path | readNFiles n => cases hop
  | writeFile path contents =>
    cases hop
    obtain rfl := Option.some.inj hraw
    cases hm : m path with
    | none =>
      simp only [Op.key, hm, Op.verdict] at h
      cases h
    | some g =>
      obtain ⟨hkey, -⟩ := hstored _ _ hm
      simp only [Op.key, hm, Op.verdict, Verdict.put.injEq] at h
      obtain ⟨-, -, rfl⟩ := h
      have hlength := congrArg List.length (makeRequestWithTwoArgs_eq hfits)
      rw [frame_length] at hlength
      simp only [List.length_cons, List.length_append, u64ToBigEndian_length] at hlength
      show g.key.strlen + contents.length < wordSize
      rw [hkey, CStr.strlen]
      omega
  | lockFile path | unlockFile path | closeFile path =>
    cases hop
    exact fits_of_touch rfl hstored h
  | removeFile path =>
    cases hop
    cases hm : m path with
    | none =>
      simp only [Op.key, hm, Op.verdict] at h
      cases h
    | some g =>
      simp only [Op.key, hm, Op.verdict] at h
      split at h <;> cases h
  | openFile path flags =>
    simp only [ApiCall.asked, ParsedRequest.tableOp] at hop
    split at hop
    · -- a file that is created is empty
      cases hop
      cases hm : m path with
      | none =>
        simp only [Op.key, hm, Op.verdict, Verdict.put.injEq] at h
        obtain ⟨-, -, rfl⟩ := h
        have hlength := emitted_length hraw
        show path.strlen + 0 < wordSize
        omega
      | some g =>
        simp only [Op.key, hm, Op.verdict] at h
        cases h
    · cases hop
      exact fits_of_touch rfl hstored h

/-- Nobody waits for the lock that a call gives up. -/
def Unawaited (m : FileMap) (call : ApiCall) : Prop :=
  ∀ path f, call = .unlockFile path → m path = some f → f.subs = []

theorem unlock_quiet {m m' : FileMap} {key : CStr} {out : Outcome}
    (h : MapStep m (.unlock key fd) out m') (hsubs : ∀ f, m key = some f → f.subs = []) :
    out.newOwner = -1 := by
  cases h with
  | refuse h => rfl
  | drop h => rfl
  | put h hev hquiet =>
    cases hm : m key with
    | none =>
      simp only [Op.key, hm, Op.verdict] at h
      cases h
    | some f =>
      simp only [Op.key, hm, Op.verdict, hsubs f hm] at h
      split at h
      · cases h
      · split at h
        · cases h
        · cases h
          rfl

theorem wellFormed_opReply {out : Outcome} (hcount : out.evicted.length < unsignedSize)
    (hsized : ∀ f ∈ out.evicted, f.Sized) (hfits : ∀ f ∈ out.evicted, FileFits f) (o : Op) :
    (opReply out o).WellFormed := by
  have hfiles : (EndOfStream.Reply.writeFile (some (out.evicted.map sentFile))).WellFormed := by
    refine ⟨?_, fun pair hpair => ?_⟩
    · rw [List.length_map]
      exact Nat.lt_trans hcount (by decide)
    · obtain ⟨f, hf, rfl⟩ := List.mem_map.mp hpair
      have hfit := hfits f hf
      rw [FileFits, (hsized f hf).1] at hfit
      rw [sentFile_length (hsized f hf)]
      exact hfit
  cases o with
  | replace | append => exact hfiles
  | create | «open» | close | lock | unlock | remove => exact trivial

/-- A handler that returns does one step of the store, writes the reply to its own descriptor, and,
unless somebody waits for a lock that it gives up, nothing to another one. -/
theorem handle_call (hs : Stored P t L) {fd : Nat} {call : ApiCall} {raw : List UInt8}
    (hraw : call.emitted = some raw) (hfits : raw.length < wordSize)
    (hread : ∀ n, call ≠ .readNFiles n) (hstored : ∀ key f, fileAt L key = some f → FileFits f)
    (hquiet : Unawaited (fileAt L) call)
    (hx : call.asked.handle P t fd rands = .ok (writes, t')) :
    ∃ reply L', call.reply P t fd rands = .ok (some reply) ∧ Stored P t' L' ∧
      StoreStep (fileAt L) (fd, call, reply) (fileAt L') ∧
      (∀ key f, fileAt L' key = some f → FileFits f) ∧ reply.WellFormed ∧
      (∀ w ∈ writes, w.fd = fd) ∧ bytesTo fd writes = reply.bytes := by
  cases hop : call.asked.tableOp fd with
  | some o =>
    obtain ⟨out, own, hexec, hwrites, hown, hcount, hbytes⟩ := handle_op hop hx
    obtain ⟨L', heffect⟩ := effect_of_exec hs hexec
    have hstep := heffect.mapStep hs
    have hkeys : ∀ key f, fileAt L key = some f → f.key = key ∧ FileFits f := fun key f hf =>
      ⟨hs.fileAt_key hf, hstored key f hf⟩
    obtain ⟨hevicted, hfiles⟩ := forall_files hstep hstored fun _ _ _ hverdict =>
      fits_of_put hraw hfits hop hkeys hverdict
    have hsized := heffect.evicted_sized hs
    -- an unlock writes to its own client only, since nobody waits for the file
    have hgrants : o.grants out = [] := by
      cases o with
      | unlock key fd' =>
        cases call with
        | unlockFile path =>
          cases hop
          have howner := unlock_quiet hstep fun f hf => hquiet _ f rfl hf
          simp only [Op.grants, howner, ne_eq, not_true_eq_false, if_false]
        | openFile path flags =>
          simp only [ApiCall.asked, ParsedRequest.tableOp] at hop
          split at hop <;> cases hop
        | readFile | readNFiles | writeFile | lockFile | closeFile | removeFile => cases hop
      | create | «open» | close | lock | remove | replace | append => rfl
    rw [hgrants, List.append_nil] at hwrites
    subst hwrites
    refine ⟨opReply out o, L', ?_, heffect.stored hs, .op hop hstep, hfiles, ?_, hown, hbytes hsized⟩
    · simp only [ApiCall.reply, hop, hexec, Exec.ok_bind, Exec.pure_eq_ok]
    · exact wellFormed_opReply hcount hsized hevicted o
  | none =>
    -- a read is no operation of the table, and leaves it as it is
    cases call with
    | readFile path =>
      obtain ⟨found, hfetch, hx⟩ := Exec.bind_eq_ok.mp hx
      have hfile : found = fileAt L _ := Except.ok.inj (hfetch.symm.trans (hs.fetchFile _))
      cases found with
      | none =>
        cases hx
        refine ⟨.readFile none, L, ?_, hs, .missing hfile.symm, hstored, trivial,
          by simp [writeResponseByte],
          by simp [bytesTo, writeResponseByte, responseByte, EndOfStream.Reply.bytes]⟩
        simp only [ApiCall.reply, hop, hfetch, Exec.ok_bind, Exec.pure_eq_ok]
      | some file =>
        obtain ⟨a, hmem, -⟩ := hs.fileAt_iff.mp hfile.symm
        have hsized : file.Sized := hs.sized _ hmem
        obtain ⟨contents, hcontents, hx⟩ := Exec.bind_eq_ok.mp hx
        cases hx
        obtain rfl : file.bytes = contents := by
          rw [fileContents_of_sized hsized, sentFile, ← hsized.1, List.take_length] at hcontents
          exact Except.ok.inj hcontents
        refine ⟨.readFile (some file.bytes), L, ?_, hs, .found hfile.symm, hstored, ?_,
          by simp, ?_⟩
        · simp only [ApiCall.reply, hop, hfetch, hcontents, Exec.ok_bind, Exec.pure_eq_ok]
        · show file.bytes.length < wordSize
          rw [hsized.1]
          exact hsized.2
        · rw [bytesTo_cons_self, bytesTo_cons_self, ← hsized.1]
          simp [bytesTo, EndOfStream.Reply.bytes]
    | readNFiles n => exact absurd rfl (hread n)
    | openFile path flags =>
      simp only [ApiCall.asked, ParsedRequest.tableOp] at hop
      split at hop <;> cases hop
    | writeFile | lockFile | unlockFile | closeFile | removeFile => cases hop

/-! ## 4. The client's side -/

section

variable {m : EndOfStream.Machine} {dirname : CStr} {files : Files} {i : Nat}
  {before pairs : List Pair}
  {pair : Pair} {s s' : Chunks}

theorem saveAll_append (htakes : m.TakesAll i before) :
    m.saveAll dirname i files (before ++ pairs) =
      m.saveAll dirname (i + before.length) (m.storeAll dirname i files before) pairs := by
  induction before generalizing i files with
  | nil => rfl
  | cons pair before ih =>
    rw [List.cons_append, EndOfStream.Machine.saveAll, if_pos htakes.1, ih htakes.2,
      List.length_cons, show i + 1 + before.length = i + (before.length + 1) by omega]
    rfl

theorem saveAll_takesAll (htakes : m.TakesAll i pairs) :
    m.saveAll dirname i files pairs = (0, m.storeAll dirname i files pairs) := by
  have hwhole : m.saveAll dirname i files (pairs ++ []) =
      (0, m.storeAll dirname i files pairs) := saveAll_append htakes
  rwa [List.append_nil] at hwhole

theorem saveAll_stops (htakes : m.TakesAll i before) (hstop : ¬m.Takes (i + before.length) pair) :
    m.saveAll dirname i files (before ++ pair :: pairs) =
      (-1, m.storeAll dirname i files (before ++ [pair])) := by
  rw [saveAll_append htakes, EndOfStream.Machine.saveAll, if_neg hstop,
    EndOfStream.Machine.storeAll_append]
  rfl

theorem simpleResponse_code {code : UInt8} (hs : s.bytes = [code]) :
    (EndOfStream.simpleResponse s).1 = (if code = responseErr then -1 else 0) ∧
      (EndOfStream.simpleResponse s).2.bytes = [] := by
  refine simpleResponse_agrees ?_
  have hread : Client.readBytes s.bytes 1 = .ok (Int32.ofNat 1, [code], []) := by
    rw [hs]
    rfl
  have hpos : ¬(1 : Int32) ||| Int32.ofNat 1 < 0 := by decide
  rw [Client.simpleResponse, hread, Exec.ok_bind]
  simp only [if_neg hpos, List.cons.injEq, and_true]
  split <;> rfl

theorem readFileResponse_contents {contents : List UInt8} (hsize : contents.length < wordSize)
    (hs : s.bytes = [responseOk] ++ (u64ToBigEndian contents.length ++ contents)) :
    ∃ s', EndOfStream.readFileResponse m s =
      .ok (if FitsInt contents.length then 0 else -1, contents, s') ∧ s'.bytes = [] := by
  obtain ⟨hcode, hrest⟩ := simpleResponse_ok hs
  obtain ⟨s₁, hlen, hs₁⟩ := readBytes_full (List.replicate 8 0) hrest (by simp)
  have hnum := bigEndianToU64_u64ToBigEndian hsize []
  rw [List.append_nil] at hnum
  obtain ⟨s₂, hbody, hs₂⟩ := readBytes_full (m.xmalloc contents.length)
    (hs₁.trans (List.append_nil _).symm) (by simp)
  rw [EndOfStream.Machine.xmalloc_length] at hbody
  have hzero : ¬(0 : Int32) < 0 := by decide
  have height : ¬(0 : Int32) ||| Int32.ofNat (List.replicate 8 (0 : UInt8)).length < 0 := by decide
  refine ⟨s₂, ?_, hs₂⟩
  rw [EndOfStream.readFileResponse]
  simp only [hcode, if_neg hzero, hlen, Exec.ok_bind, if_neg height, hnum, hbody]
  -- the number of bytes is the last result
  by_cases hfits : FitsInt contents.length
  · have hpos : ¬(0 ||| Int32.ofNat (List.replicate 8 (0 : UInt8)).length |||
        Int32.ofNat contents.length < 0) := by
      rw [or_neg_iff, not_or]
      exact ⟨height, Int32.not_lt.mpr (ofNat_nonneg_iff.mpr hfits)⟩
    rw [if_neg hpos, if_pos hfits]
    rfl
  · have hneg : 0 ||| Int32.ofNat (List.replicate 8 (0 : UInt8)).length |||
        Int32.ofNat contents.length < 0 := by
      refine or_neg_iff.mpr (Or.inr (Int32.not_le.mp ?_))
      rwa [ofNat_nonneg_iff]
    rw [if_pos hneg, if_neg hfits]
    rfl

/-- A decoder that returns has the result that the reply stands for. -/
theorem handleResponse_result {d : Option CStr} {code : Int32} {files' : Files}
    (hwf : (EndOfStream.Reply.writeFile (some pairs)).WellFormed) (hs : s.bytes = response pairs)
    (hx : EndOfStream.handleResponseWithFiles m d files s = .ok (code, files', s')) :
    ⟨code, [], files'⟩ = (EndOfStream.Reply.writeFile (some pairs)).result m d files := by
  obtain ⟨hcount, hsizes⟩ := hwf
  rw [← List.append_nil (response pairs)] at hs
  cases d with
  | none =>
    cases pairs with
    | nil =>
      obtain ⟨s'', -, hnil⟩ := handleResponse_nil m none files hs
      rw [hnil] at hx
      cases hx
      rfl
    | cons pair pairs =>
      rw [handleResponse_null hcount hsizes hs (List.cons_ne_nil _ _)] at hx
      cases hx
  | some dirname =>
    rw [EndOfStream.Reply.result]
    by_cases htakes : m.TakesAll 0 pairs
    · obtain ⟨s'', -, hall⟩ := handleResponse_takesAll dirname files hcount hsizes hs htakes
      rw [hall] at hx
      cases hx
      rw [saveAll_takesAll htakes]
    · obtain ⟨before, pair, after, rfl, hbefore, hstop⟩ := EndOfStream.Machine.not_takesAll htakes
      obtain ⟨s'', -, hstops⟩ := handleResponse_stops dirname files hcount hsizes hs hbefore
        (by rwa [Nat.zero_add] at hstop)
      rw [hstops] at hx
      cases hx
      rw [saveAll_stops hbefore hstop]

end

/-- A caller that gets its reply gets what the reply stands for. -/
theorem response_of_reply {m : EndOfStream.Machine} {d : Option CStr} {files : Files}
    {s s' : Chunks} {call : ApiCall} {reply : EndOfStream.Reply} {r : Result}
    (hreply : call.reply P t fd rands = .ok (some reply)) (hwf : reply.WellFormed)
    (hs : s.bytes = reply.bytes) (hx : call.response m d files s = .ok (r, s')) :
    r = reply.result m d files := by
  -- one byte is the whole reply to the other calls
  have hsimple : ∀ {o : Op}, call.asked.tableOp fd = some o →
      (∀ out, ∃ code, opReply out o = .simple code) →
      (∀ code, s.bytes = [code] → r = (EndOfStream.Reply.simple code).result m d files) →
      r = reply.result m d files := by
    intro o hop hcode hone
    simp only [ApiCall.reply, hop] at hreply
    obtain ⟨⟨out, t₁⟩, -, hreply⟩ := Exec.bind_eq_ok.mp hreply
    cases hreply
    obtain ⟨code, hcode⟩ := hcode out
    rw [hcode] at hs ⊢
    exact hone code hs
  have hbyte : ∀ {r' : Result × Chunks} code, s.bytes = [code] →
      r' = (⟨(EndOfStream.simpleResponse s).1, [], files⟩, (EndOfStream.simpleResponse s).2) →
      r'.1 = (EndOfStream.Reply.simple code).result m d files := by
    rintro r' code hcode rfl
    rw [(simpleResponse_code hcode).1]
    rfl
  cases call with
  | lockFile path | unlockFile path | closeFile path | removeFile path =>
    refine hsimple rfl (fun out => ⟨_, rfl⟩) fun code hcode => ?_
    exact hbyte code hcode (Except.ok.inj hx).symm
  | openFile path flags =>
    let lock := decide (flags = oLock ∨ flags = oCreate ||| oLock)
    by_cases hcreate : flags = oCreate ∨ flags = oCreate ||| oLock
    · refine hsimple (o := .create path fd lock) ?_ (fun out => ⟨_, rfl⟩) fun code hcode => ?_
      · simp only [ApiCall.asked, ParsedRequest.tableOp, hcreate, decide_true, if_true, lock]
      · exact hbyte code hcode (Except.ok.inj hx).symm
    · refine hsimple (o := .open path fd lock) ?_ (fun out => ⟨_, rfl⟩) fun code hcode => ?_
      · simp only [ApiCall.asked, ParsedRequest.tableOp, hcreate, decide_false,
          Bool.false_eq_true, if_false, lock]
      · exact hbyte code hcode (Except.ok.inj hx).symm
  | readNFiles n => cases hreply
  | writeFile path contents =>
    obtain ⟨⟨out, t₁⟩, -, hreply⟩ := Exec.bind_eq_ok.mp hreply
    cases hreply
    obtain ⟨⟨code, files', s₁⟩, hresponse, hx⟩ := Exec.bind_eq_ok.mp hx
    cases hx
    exact handleResponse_result hwf hs hresponse
  | readFile path =>
    obtain ⟨⟨code, buf, s₁⟩, hresponse, hx⟩ := Exec.bind_eq_ok.mp hx
    cases hx
    obtain ⟨found, -, hreply⟩ := Exec.bind_eq_ok.mp hreply
    cases found with
    | none =>
      cases hreply
      have hcode := simpleResponse_code hs
      rw [EndOfStream.readFileResponse] at hresponse
      simp only [hcode.1, if_true, show (-1 : Int32) < 0 by decide] at hresponse
      cases hresponse
      rfl
    | some file =>
      obtain ⟨contents, -, hreply⟩ := Exec.bind_eq_ok.mp hreply
      cases hreply
      obtain ⟨s₂, hcontents, -⟩ := readFileResponse_contents (m := m) hwf hs
      rw [hcontents] at hresponse
      cases hresponse
      rfl

end FileStorage.Client
