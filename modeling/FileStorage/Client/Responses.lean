import FileStorage.Server.Worker

/-!
# Responses — what the client library reads

The decoders take the bytes that the server sends on an open connection.  A read that asks for more
than was sent waits for the rest.
-/

namespace FileStorage.Client

open Server

/-! ## 1. Return codes -/

/-- No error so far: read results are or-ed together, and neither zero nor a negative number comes
out of positive ones. -/
def Fine (err : Int32) : Prop := 0 ≤ err ∧ err ≠ 0

instance (err : Int32) : Decidable (Fine err) := inferInstanceAs (Decidable (_ ∧ _))

theorem nonneg_iff {a : Int32} : 0 ≤ a ↔ a.toBitVec.msb = false := by
  rw [Int32.le_iff_toInt_le, BitVec.msb_eq_toInt, decide_eq_false_iff_not, Int.not_lt]
  exact Iff.rfl

theorem nonneg_or {a b : Int32} (ha : 0 ≤ a) (hb : 0 ≤ b) : 0 ≤ a ||| b := by
  rw [nonneg_iff] at *
  rw [Int32.toBitVec_or, BitVec.msb_or, ha, hb]
  rfl

theorem nonneg_ofNat {n : Nat} (h : n < 2 ^ 31) : 0 ≤ Int32.ofNat n := by
  rw [Int32.le_iff_toInt_le, Int32.toInt_ofNat_of_lt h]
  exact Int.natCast_nonneg n

theorem Fine.or {a b : Int32} (ha : Fine a) (hb : 0 ≤ b) : Fine (a ||| b) := by
  refine ⟨nonneg_or ha.1 hb, fun heq => ha.2 ?_⟩
  have hbits := congrArg Int32.toBitVec heq
  rw [Int32.toBitVec_or] at hbits
  exact Int32.toBitVec_inj.mp (BitVec.or_eq_zero_iff.mp hbits).1

theorem Fine.not_neg {a : Int32} (ha : Fine a) : ¬a < 0 := by
  rw [Int32.lt_iff_toInt_lt, Int.not_lt, ← Int32.le_iff_toInt_le]
  exact ha.1

/-! ## 2. The code -/

/-- The result as an `int`, the bytes read and those that are left. -/
def readBytes (stream : List UInt8) (size : Nat) : Exec (Int32 × List UInt8 × List UInt8) :=
  if size ≤ stream.length then
    .ok (Int32.ofNat size, stream.take size, stream.drop size)
  else
    .error .diverge

/-- What a decoder returns, the files it gave to `write_file_to_dir`, and the bytes it left. -/
abbrev Decoded := Int32 × List (List UInt8 × List UInt8) × List UInt8

/-- The loop over the files; `writeFileToDir` is what that function returns for a path and
contents. -/
def readFiles (writeFileToDir : List UInt8 → List UInt8 → Int32) :
    Nat → Int32 → List UInt8 → Exec Decoded
  | 0, _, stream => .ok (0, [], stream)
  | numFiles + 1, err, stream => do
      let (result, bufferLengths, stream) ← readBytes stream 16
      let err := err ||| result
      if err < 0 then
        .ok (-1, [], stream)
      else
        let lenPath ← bigEndianToU64 bufferLengths
        let lenContents ← bigEndianToU64 (bufferLengths.drop 8)
        let (result, buffer, stream) ← readBytes stream (wadd lenPath lenContents)
        let err := err ||| result
        if err = 0 then
          .ok (-1, [], stream)
        else if buffer.length < lenPath + lenContents then
          .error .fault
        else
          let path := buffer.take lenPath
          let contents := (buffer.drop lenPath).take lenContents
          let err := err ||| writeFileToDir path contents
          if err < 0 then
            .ok (-1, [(path, contents)], stream)
          else
            let (result, files, stream) ← readFiles writeFileToDir numFiles err stream
            return (result, (path, contents) :: files, stream)

/-- The response part of a request whose writes gave `err`. -/
def readResponse (writeFileToDir : List UInt8 → List UInt8 → Int32) (err : Int32)
    (stream : List UInt8) : Exec Decoded := do
  let (result, bufferResponseCode, stream) ← readBytes stream 1
  let err := err ||| result
  if err < 0 ∨ bufferResponseCode = [responseErr] then
    .ok (-1, [], stream)
  else
    let (result, bufferNumFiles, stream) ← readBytes stream 8
    let err := err ||| result
    if err < 0 then
      .ok (-1, [], stream)
    else
      let numFiles ← bigEndianToU64 bufferNumFiles
      readFiles writeFileToDir numFiles err stream

def handleResponseWithFiles (writeFileToDir : List UInt8 → List UInt8 → Int32)
    (stream : List UInt8) : Exec Decoded := readResponse writeFileToDir 0 stream

/-- `readNFiles` goes on with the result of its writes. -/
def readNFilesResponse (writeFileToDir : List UInt8 → List UInt8 → Int32)
    (stream : List UInt8) : Exec Decoded := readResponse writeFileToDir 1 stream

/-- The response half of `make_simple_request`. -/
def simpleResponse (stream : List UInt8) : Exec (Int32 × List UInt8) := do
  let (result, buffer, stream) ← readBytes stream 1
  let err := 1 ||| result
  if err < 0 then
    return (-1, stream)
  else if buffer = [responseErr] then
    return (-1, stream)
  else
    return (0, stream)

/-- The contents that `readFile` returns, when it succeeds. -/
def readFileResponse (stream : List UInt8) : Exec (Int32 × List UInt8 × List UInt8) := do
  let (err, stream) ← simpleResponse stream
  if err < 0 then
    .ok (-1, [], stream)
  else
    let (result, bufferLen, stream) ← readBytes stream 8
    let err := err ||| result
    if err < 0 then
      .ok (-1, [], stream)
    else
      let size ← bigEndianToU64 bufferLen
      let (result, buf, stream) ← readBytes stream size
      let err := err ||| result
      if err < 0 then
        .ok (-1, [], stream)
      else
        return (0, buf, stream)

/-- The bytes that the writes send to `fd`. -/
def bytesTo (fd : Int) (writes : List Write) : List UInt8 :=
  (writes.filter (·.fd = fd)).flatMap (·.bytes)

/-- A file as it is sent. -/
def sentFile (file : File) : List UInt8 × List UInt8 :=
  (file.key.bytes, file.bytes.take file.lengthInBytes)

/-! ## 3. What a read gives -/

theorem readBytes_eq_ok {stream : List UInt8} {size : Nat}
    {x : Int32 × List UInt8 × List UInt8} :
    readBytes stream size = .ok x ↔
      size ≤ stream.length ∧ x = (Int32.ofNat size, stream.take size, stream.drop size) := by
  unfold readBytes
  split
  · rename_i hle
    simp [hle, eq_comm]
  · rename_i hle
    simp [hle]

theorem readBytes_append {size : Nat} {bytes : List UInt8} (h : bytes.length = size)
    (rest : List UInt8) : readBytes (bytes ++ rest) size = .ok (Int32.ofNat size, bytes, rest) := by
  rw [readBytes_eq_ok]
  refine ⟨by rw [List.length_append, h]; exact Nat.le_add_right _ _, ?_⟩
  rw [List.take_left' h, List.drop_left' h]

/-! ## 4. The files -/

variable {fd : Int} {file : File} {evicted : List File} {writes : List Write} {err : Int32}

theorem bytesTo_append (ws ws' : List Write) : bytesTo fd (ws ++ ws') = bytesTo fd ws ++ bytesTo fd ws' := by
  simp [bytesTo]

theorem bytesTo_cons_self (bytes : List UInt8) (kind : WriteKind) (ws : List Write) :
    bytesTo fd (⟨fd, bytes, kind⟩ :: ws) = bytes ++ bytesTo fd ws := by
  simp [bytesTo]

/-- Two lengths, the path and the contents. -/
def record (pair : List UInt8 × List UInt8) : List UInt8 :=
  u64ToBigEndian pair.1.length ++ u64ToBigEndian pair.2.length ++ (pair.1 ++ pair.2)

theorem fileContents_of_sized (h : file.Sized) : fileContents file = .ok (sentFile file).2 :=
  if_pos (Nat.le_of_eq h.1.symm)

theorem sentFile_length (h : file.Sized) : (sentFile file).2.length = file.lengthInBytes := by
  rw [sentFile, List.length_take, h.1, Nat.min_self]

theorem writeFileBytes_of_sized (h : file.Sized) :
    ∃ writes, writeFileBytes fd file = .ok writes ∧ bytesTo fd writes = record (sentFile file) := by
  rw [writeFileBytes, fileContents_of_sized h, Exec.ok_bind]
  refine ⟨_, rfl, ?_⟩
  simp only [bytesTo_cons_self, record, sentFile_length h]
  simp [bytesTo, sentFile, CStr.strlen]

theorem writeEvicted_of_sized (h : ∀ file ∈ evicted, file.Sized) :
    ∃ writes, writeEvicted fd evicted = .ok writes ∧
      bytesTo fd writes = (evicted.map sentFile).flatMap record := by
  induction evicted with
  | nil => exact ⟨[], rfl, rfl⟩
  | cons file evicted ih =>
    obtain ⟨first, hfirst, hbytes⟩ := writeFileBytes_of_sized (h file (by simp))
    obtain ⟨rest, hrest, hmore⟩ := ih fun f hf => h f (List.mem_cons_of_mem _ hf)
    refine ⟨first ++ rest, ?_, ?_⟩
    · rw [writeEvicted, hfirst, Exec.ok_bind, hrest]
      rfl
    · rw [bytesTo_append, hbytes, hmore]
      rfl

/-- One round of the loop takes one record off the stream. -/
theorem readFiles_record {pair : List UInt8 × List UInt8} (herr : Fine err)
    (hsmall : pair.1.length + pair.2.length < 2 ^ 31) (numFiles : Nat) (rest : List UInt8) :
    ∃ err', Fine err' ∧ readFiles (fun _ _ => 0) (numFiles + 1) err (record pair ++ rest) =
      (readFiles (fun _ _ => 0) numFiles err' rest).map fun x => (x.1, pair :: x.2.1, x.2.2) := by
  obtain ⟨path, contents⟩ := pair
  simp only at hsmall
  have hword : ∀ {n : Nat}, n < 2 ^ 31 → n < wordSize := by
    intro n hn
    simp only [wordSize]
    omega
  have hlengths : (u64ToBigEndian path.length ++ u64ToBigEndian contents.length).length = 16 := rfl
  have hheader := readBytes_append hlengths ((path ++ contents) ++ rest)
  have hbody : (path ++ contents).length = path.length + contents.length := List.length_append
  have hbuffer := readBytes_append hbody rest
  have hsum : wadd path.length contents.length = path.length + contents.length :=
    wadd_of_lt (hword hsmall)
  have hsecond := bigEndianToU64_u64ToBigEndian (hword (show contents.length < 2 ^ 31 by omega)) []
  rw [List.append_nil] at hsecond
  -- every result is a number of bytes
  have herr₁ := herr.or (nonneg_ofNat (show 16 < 2 ^ 31 by decide))
  have herr₂ := herr₁.or (nonneg_ofNat hsmall)
  have herr₃ := herr₂.or (show (0 : Int32) ≤ 0 by decide)
  refine ⟨_, herr₃, ?_⟩
  rw [readFiles, record, List.append_assoc, hheader, Exec.ok_bind]
  simp only [if_neg herr₁.not_neg, bigEndianToU64_u64ToBigEndian (hword (show path.length < 2 ^ 31 by omega)),
    List.drop_left' (u64ToBigEndian_length path.length), hsecond, Exec.ok_bind, hsum, hbuffer,
    if_neg herr₂.2, hbody, Nat.lt_irrefl, if_false, List.take_left, List.drop_left,
    List.take_length, if_neg herr₃.not_neg]
  cases readFiles (fun _ _ => 0) numFiles _ rest <;> rfl

theorem readFiles_records {pairs : List (List UInt8 × List UInt8)} (herr : Fine err)
    (hsmall : ∀ pair ∈ pairs, pair.1.length + pair.2.length < 2 ^ 31) :
    readFiles (fun _ _ => 0) pairs.length err (pairs.flatMap record) = .ok (0, pairs, []) := by
  induction pairs generalizing err with
  | nil => rfl
  | cons pair pairs ih =>
    obtain ⟨err', herr', hstep⟩ := readFiles_record herr (hsmall pair (by simp)) pairs.length
      (pairs.flatMap record)
    rw [List.length_cons, List.flatMap_cons, hstep,
      ih herr' fun pair hpair => hsmall pair (List.mem_cons_of_mem _ hpair)]
    rfl

/-! ## 5. The replies -/

/-- The status byte, the number of files, and the files. -/
theorem handleResponse_files {pairs : List (List UInt8 × List UInt8)}
    (hcount : pairs.length < unsignedSize)
    (hsmall : ∀ pair ∈ pairs, pair.1.length + pair.2.length < 2 ^ 31) :
    handleResponseWithFiles (fun _ _ => 0)
      ([responseOk] ++ (u64ToBigEndian pairs.length ++ pairs.flatMap record)) =
        .ok (0, pairs, []) := by
  have hword : pairs.length < wordSize := Nat.lt_trans hcount (by decide)
  have hcode : ([responseOk] : List UInt8).length = 1 := rfl
  have hnum := bigEndianToU64_u64ToBigEndian hword []
  rw [List.append_nil] at hnum
  have herr : Fine (0 ||| Int32.ofNat 1 ||| Int32.ofNat 8) := by decide
  rw [handleResponseWithFiles, readResponse, readBytes_append hcode, Exec.ok_bind]
  simp only [if_neg (show ¬(0 ||| Int32.ofNat 1 < 0 ∨ [responseOk] = [responseErr]) by decide),
    readBytes_append (u64ToBigEndian_length _), Exec.ok_bind, if_neg herr.not_neg, hnum]
  exact readFiles_records herr hsmall

theorem handleResponse_evicted (hsized : ∀ file ∈ evicted, file.Sized)
    (hcount : evicted.length < unsignedSize)
    (hsmall : ∀ file ∈ evicted, file.key.strlen + file.lengthInBytes < 2 ^ 31) :
    ∃ writes, writeEvicted fd evicted = .ok writes ∧
      handleResponseWithFiles (fun _ _ => 0) (bytesTo fd (⟨fd, [responseOk], .status⟩ ::
        ⟨fd, u64ToBigEndian (evicted.length % unsignedSize), .data⟩ :: writes)) =
          .ok (0, evicted.map sentFile, []) := by
  obtain ⟨writes, hx, hbytes⟩ := writeEvicted_of_sized hsized
  have hpairs : ∀ pair ∈ evicted.map sentFile, pair.1.length + pair.2.length < 2 ^ 31 := by
    intro pair hpair
    obtain ⟨file, hfile, rfl⟩ := List.mem_map.mp hpair
    rw [sentFile_length (hsized file hfile)]
    exact hsmall file hfile
  have hdecode := handleResponse_files (by rwa [List.length_map]) hpairs
  rw [List.length_map] at hdecode
  refine ⟨writes, hx, ?_⟩
  rw [bytesTo_cons_self, bytesTo_cons_self, hbytes, Nat.mod_eq_of_lt hcount]
  exact hdecode

/-- What was found is read back. -/
theorem readFile_decoded {P : Platform} {t : HTable} {buffer : List UInt8}
    (hfile : htableFetchFile P t (bufToStr buffer) = .ok (some file)) (hsized : file.Sized)
    (hsmall : file.lengthInBytes < 2 ^ 31) :
    ∃ writes, workerHandleReadFile P t fd buffer = .ok writes ∧
      readFileResponse (bytesTo fd writes) = .ok (0, (sentFile file).2, []) := by
  have hcode : ([responseOk] : List UInt8).length = 1 := rfl
  have hnum := bigEndianToU64_u64ToBigEndian hsized.2 []
  rw [List.append_nil] at hnum
  have hrest := readBytes_append (sentFile_length hsized) []
  rw [List.append_nil] at hrest
  have herr : Fine (0 ||| Int32.ofNat 8) := by decide
  have herr' := herr.or (nonneg_ofNat hsmall)
  have hbytes : bytesTo fd [⟨fd, responseOk :: u64ToBigEndian file.lengthInBytes, .status⟩,
      ⟨fd, (sentFile file).2, .data⟩] =
        [responseOk] ++ (u64ToBigEndian file.lengthInBytes ++ (sentFile file).2) := by
    simp [bytesTo]
  have hsimple : simpleResponse ([responseOk] ++ (u64ToBigEndian file.lengthInBytes ++
      (sentFile file).2)) = .ok (0, u64ToBigEndian file.lengthInBytes ++ (sentFile file).2) := by
    rw [simpleResponse, readBytes_append hcode]
    rfl
  simp only [workerHandleReadFile, hfile, fileContents_of_sized hsized, Exec.ok_bind, Exec.pure_eq_ok]
  refine ⟨_, rfl, ?_⟩
  rw [hbytes, readFileResponse, hsimple, Exec.ok_bind]
  simp only [if_neg (show ¬(0 : Int32) < 0 by decide), readBytes_append (u64ToBigEndian_length _),
    Exec.ok_bind, if_neg herr.not_neg, hnum, hrest, if_neg herr'.not_neg, Exec.pure_eq_ok]

/-- The reply to `writeFile` is decoded to the evicted files, the reply to `readFile` to the contents
of the file, and the one for a file that is not stored to an error. -/
theorem responses_decoded :
    (∀ (fd : Int) (evicted : List File), (∀ file ∈ evicted, file.Sized) →
      evicted.length < unsignedSize →
      (∀ file ∈ evicted, file.key.strlen + file.lengthInBytes < 2 ^ 31) →
        ∃ writes, writeEvicted fd evicted = .ok writes ∧
          handleResponseWithFiles (fun _ _ => 0) (bytesTo fd (⟨fd, [responseOk], .status⟩ ::
            ⟨fd, u64ToBigEndian (evicted.length % unsignedSize), .data⟩ :: writes)) =
              .ok (0, evicted.map sentFile, [])) ∧
    ∀ (P : Platform) (buckets : Nat) (config : Config) (tr : List (HTable × Call)) (t : HTable)
      (fd : Int) (buffer : List UInt8), SequentialRun P buckets config tr t →
      (∀ (rands : List Nat) (path : CStr) (contents : List UInt8) (code : HTableError)
        (evicted : List File) (t' : HTable),
        writeFileArgs buffer = .ok (some (path, contents)) →
        htableReplaceFileContents P t path contents rands = .ok (code, evicted, t') →
        (∀ file ∈ evicted, file.key.strlen + file.lengthInBytes < 2 ^ 31) →
          ∃ writes, workerHandleWriteFile P t fd buffer rands = .ok (writes, t') ∧
            handleResponseWithFiles (fun _ _ => 0) (bytesTo fd writes) =
              .ok (0, evicted.map sentFile, [])) ∧
      (∀ file, htableFetchFile P t (bufToStr buffer) = .ok (some file) →
        file.lengthInBytes < 2 ^ 31 →
          ∃ writes, workerHandleReadFile P t fd buffer = .ok writes ∧
            readFileResponse (bytesTo fd writes) = .ok (0, (sentFile file).2, [])) ∧
      (htableFetchFile P t (bufToStr buffer) = .ok none →
        ∃ writes, workerHandleReadFile P t fd buffer = .ok writes ∧
          readFileResponse (bytesTo fd writes) = .ok (-1, [], [])) := by
  refine ⟨fun fd evicted => handleResponse_evicted, ?_⟩
  intro P buckets config tr t fd buffer run
  obtain ⟨L, hs⟩ := run.stored
  refine ⟨?_, ?_, ?_⟩
  · intro rands path contents code evicted t' hargs hreplace hsmall
    have hexec : (Op.replace path contents).exec P t rands = .ok (⟨code, -1, evicted⟩, t') := by
      simp only [Op.exec, hreplace, Exec.ok_bind, Exec.pure_eq_ok]
    obtain ⟨L', heffect⟩ := effect_of_exec hs hexec
    obtain ⟨files, hfiles, hdecode⟩ := handleResponse_evicted (heffect.evicted_sized hs)
      (replace_evicted_length hreplace) hsmall
    refine ⟨_, ?_, hdecode⟩
    simp only [workerHandleWriteFile, hargs, hreplace, hfiles, Exec.ok_bind, Exec.pure_eq_ok]
  · intro file hfile hsmall
    have hlook := hs.fetchFile (bufToStr buffer)
    rw [hfile] at hlook
    obtain ⟨a, hmem, -⟩ := hs.fileAt_iff.mp (Except.ok.inj hlook).symm
    exact readFile_decoded hfile (hs.sized _ hmem) hsmall
  · intro hnone
    simp only [workerHandleReadFile, hnone, Exec.ok_bind, Exec.pure_eq_ok]
    refine ⟨_, rfl, ?_⟩
    have hbytes : bytesTo fd [writeResponseByte fd (-1)] = [responseErr] := by
      simp [bytesTo, writeResponseByte, responseByte]
    rw [hbytes]
    decide

/-- One evicted file of two bytes, and the file that a run has created, which is empty. -/
theorem responses_decoded_one :
    let file := (newFile (bufToStr [97]) 3 false).withBytes [7, 8]
    (∃ writes, writeEvicted 4 [file] = .ok writes ∧
      handleResponseWithFiles (fun _ _ => 0) (bytesTo 4 (⟨4, [responseOk], .status⟩ ::
        ⟨4, u64ToBigEndian 1, .data⟩ :: writes)) = .ok (0, [([97], [7, 8])], [])) ∧
    ∃ tr t writes, SequentialRun samplePlatform 1 ⟨10, 10, .fifo⟩ tr t ∧
      workerHandleReadFile samplePlatform t 4 [97] = .ok writes ∧
      readFileResponse (bytesTo 4 writes) = .ok (0, [], []) := by
  intro file
  refine ⟨responses_decoded.1 4 [file] ?_ (by decide) ?_, ?_⟩
  · intro f hf
    obtain rfl := List.mem_singleton.mp hf
    exact ⟨rfl, by decide⟩
  · intro f hf
    obtain rfl := List.mem_singleton.mp hf
    decide
  · obtain ⟨tr, t, run, htest⟩ := SequentialRun.of_run_test samplePlatform 1 ⟨10, 10, .fifo⟩
      [⟨.create (bufToStr [97]) 3 false, []⟩]
      (fun _ t => (htableFetchFile samplePlatform t (bufToStr [97])).anySome fun f =>
        f.lengthInBytes == 0)
      (by decide +kernel)
    obtain ⟨f, hf, hempty⟩ := Exec.anySome_eq_true.mp htest
    rw [beq_iff_eq] at hempty
    obtain ⟨writes, hx, hdecode⟩ := (responses_decoded.2 _ _ _ _ _ 4 [97] run).2.1 f hf
      (by rw [hempty]; decide)
    refine ⟨tr, t, writes, run, hx, ?_⟩
    rw [hdecode, sentFile, hempty]
    rfl

end FileStorage.Client
