import FileStorage.Client.Responses

/-!
# ReadNFiles — the reply that the client does not understand

The server sends the files it visits and eight zero bytes, and keeps the connection open.  The client
expects a status byte and the number of files before them, and nothing behind them: one byte more
than the server sends.
-/

namespace FileStorage.Client

open Server

/-! ## 1. What the server visits -/

/-- The loop of `worker_handle_read_n_files` without its writes. -/
def visitLoop (t : HTable) : Nat → HTableVisitor → Exec (List File)
  | 0, _ => .error .diverge
  | fuel + 1, v => do
      match ← htableVisitorNext t v with
      | (none, _) => return []
      | (some file, v) => do
          let files ← visitLoop t fuel v
          return file :: files

/-- The files that the server visits on a request for `n` files. -/
def visitedFiles (t : HTable) (n : UInt64) : Exec (List File) := do
  let visitor ← htableVisit t n.toNat
  visitLoop t (t.items.live + 1) visitor

/-- The client gets exactly the visited files and leaves no byte. -/
def Recovered (writeFileToDir : List UInt8 → List UInt8 → Int32) (t : HTable) (fd : Int)
    (n : UInt64) : Prop :=
  ∃ writes files, workerHandleReadNFiles t fd (u64ToBigEndian n.toNat) = .ok writes ∧
    visitedFiles t n = .ok files ∧
    readNFilesResponse writeFileToDir (bytesTo fd writes) = .ok (0, files.map sentFile, [])

variable {t : HTable} {fd : Int} {writes : List Write} {file : File}
  {writeFileToDir : List UInt8 → List UInt8 → Int32}

/-! ## 2. Lengths -/

/-- The bytes of the records of these files. -/
def recordsLength (pairs : List (List UInt8 × List UInt8)) : Nat :=
  (pairs.map fun pair => 16 + pair.1.length + pair.2.length).sum

theorem writeFileBytes_length (hx : writeFileBytes fd file = .ok writes) :
    (bytesTo fd writes).length = 16 + (sentFile file).1.length + (sentFile file).2.length := by
  obtain ⟨contents, hcontents, hx⟩ := Exec.bind_eq_ok.mp hx
  obtain rfl := Except.ok.inj hx
  unfold fileContents at hcontents
  split at hcontents
  · obtain rfl := Except.ok.inj hcontents
    simp [bytesTo, sentFile]
    omega
  · cases hcontents

/-- The loop writes the record of every visited file. -/
theorem readNFilesLoop_length {fuel : Nat} {v : HTableVisitor} {files : List File}
    (hx : readNFilesLoop t fd fuel v = .ok writes) (hvisit : visitLoop t fuel v = .ok files) :
    (bytesTo fd writes).length = recordsLength (files.map sentFile) := by
  induction fuel generalizing v writes files with
  | zero => cases hx
  | succ fuel ih =>
    obtain ⟨⟨file, v'⟩, hnext, hx⟩ := Exec.bind_eq_ok.mp hx
    obtain ⟨⟨file', v''⟩, hnext', hvisit⟩ := Exec.bind_eq_ok.mp hvisit
    rw [hnext] at hnext'
    obtain ⟨rfl, rfl⟩ : file = file' ∧ v' = v'' := by simpa using hnext'
    cases file with
    | none =>
      obtain rfl := Except.ok.inj hx
      obtain rfl := Except.ok.inj hvisit
      rfl
    | some file =>
      obtain ⟨first, hfirst, hx⟩ := Exec.bind_eq_ok.mp hx
      obtain ⟨rest, hrest, hx⟩ := Exec.bind_eq_ok.mp hx
      obtain ⟨files', hfiles, hvisit⟩ := Exec.bind_eq_ok.mp hvisit
      obtain rfl := Except.ok.inj hx
      obtain rfl := Except.ok.inj hvisit
      rw [bytesTo_append, List.length_append, writeFileBytes_length hfirst, ih hrest hfiles]
      rfl

/-- What the server sends: the records and eight bytes. -/
theorem reply_length {n : UInt64} {files : List File}
    (hx : workerHandleReadNFiles t fd (u64ToBigEndian n.toNat) = .ok writes)
    (hvisit : visitedFiles t n = .ok files) :
    (bytesTo fd writes).length = recordsLength (files.map sentFile) + 8 := by
  have hn := bigEndianToU64_u64ToBigEndian n.toNat_lt []
  rw [List.append_nil] at hn
  unfold workerHandleReadNFiles at hx
  rw [if_neg (by simp), hn, Exec.ok_bind] at hx
  obtain ⟨visitor, hvisitor, hx⟩ := Exec.bind_eq_ok.mp hx
  obtain ⟨loop, hloop, hx⟩ := Exec.bind_eq_ok.mp hx
  obtain rfl := Except.ok.inj hx
  rw [visitedFiles, hvisitor, Exec.ok_bind] at hvisit
  rw [bytesTo_append, List.length_append, readNFilesLoop_length hloop hvisit]
  simp [bytesTo]

/-- What a successful decoder takes: the records that it found. -/
theorem readFiles_length {numFiles : Nat} {err : Int32} {stream rest : List UInt8}
    {files : List (List UInt8 × List UInt8)}
    (hx : readFiles writeFileToDir numFiles err stream = .ok (0, files, rest)) :
    stream.length = recordsLength files + rest.length := by
  induction numFiles generalizing err stream files with
  | zero =>
    obtain ⟨rfl, rfl⟩ : [] = files ∧ stream = rest := by simpa [readFiles] using hx
    simp [recordsLength]
  | succ numFiles ih =>
    obtain ⟨⟨result, lengths, stream₁⟩, hread, hx⟩ := Exec.bind_eq_ok.mp hx
    obtain ⟨hle, heq⟩ := readBytes_eq_ok.mp hread
    cases heq
    simp only at hx
    split at hx
    · cases hx
    · obtain ⟨lenPath, -, hx⟩ := Exec.bind_eq_ok.mp hx
      obtain ⟨lenContents, -, hx⟩ := Exec.bind_eq_ok.mp hx
      obtain ⟨⟨result', buffer, stream₂⟩, hread', hx⟩ := Exec.bind_eq_ok.mp hx
      obtain ⟨hle', heq⟩ := readBytes_eq_ok.mp hread'
      cases heq
      simp only at hx
      split at hx
      · cases hx
      · split at hx
        · cases hx
        · rename_i hroom
          split at hx
          · cases hx
          · obtain ⟨⟨result'', files', rest'⟩, hrest, hx⟩ := Exec.bind_eq_ok.mp hx
            cases hx
            have hmore := ih hrest
            have hsum : wadd lenPath lenContents ≤ lenPath + lenContents := Nat.mod_le _ _
            simp only [List.length_take, List.length_drop] at hroom hmore hle'
            simp only [recordsLength, List.map_cons, List.sum_cons, List.length_take,
              List.length_drop] at hmore ⊢
            omega

theorem readNFilesResponse_length {stream rest : List UInt8} {files : List (List UInt8 × List UInt8)}
    (hx : readNFilesResponse writeFileToDir stream = .ok (0, files, rest)) :
    stream.length = 9 + recordsLength files + rest.length := by
  obtain ⟨⟨result, code, stream₁⟩, hread, hx⟩ := Exec.bind_eq_ok.mp hx
  obtain ⟨hle, heq⟩ := readBytes_eq_ok.mp hread
  cases heq
  simp only at hx
  split at hx
  · cases hx
  · obtain ⟨⟨result', count, stream₂⟩, hread', hx⟩ := Exec.bind_eq_ok.mp hx
    obtain ⟨hle', heq⟩ := readBytes_eq_ok.mp hread'
    cases heq
    simp only at hx
    split at hx
    · cases hx
    · obtain ⟨numFiles, -, hx⟩ := Exec.bind_eq_ok.mp hx
      have hmore := readFiles_length hx
      simp only [List.length_drop] at hmore hle'
      omega

/-! ## 3. The replies -/

/-- Whatever the table holds and however many files are asked for, the client does not recover
them. -/
theorem readNFiles_not_recovered (writeFileToDir : List UInt8 → List UInt8 → Int32) (t : HTable)
    (fd : Int) (n : UInt64) : ¬Recovered writeFileToDir t fd n := by
  rintro ⟨writes, files, hx, hvisit, hdecode⟩
  have hsent := reply_length hx hvisit
  have htaken := readNFilesResponse_length hdecode
  rw [hsent, List.length_nil] at htaken
  omega

/-- Two files in one bucket; the server visits the second and the client takes the length of its key
for the number of files. -/
theorem readNFiles_waits :
    ¬∀ (P : Platform) (buckets : Nat) (config : Config) (tr : List (HTable × Call)) (t : HTable),
      SequentialRun P buckets config tr t → ∀ fd n, Recovered (fun _ _ => 0) t fd n := by
  intro hclaim
  obtain ⟨tr, t, run, htest⟩ := SequentialRun.of_run_test samplePlatform 1 ⟨10, 10, .fifo⟩
    [⟨.create (bufToStr [97]) 3 false, []⟩, ⟨.create (bufToStr [98]) 3 false, []⟩]
    (fun _ t => (workerHandleReadNFiles t 3 (u64ToBigEndian 2)).any fun writes =>
      decide (readNFilesResponse (fun _ _ => 0) (bytesTo 3 writes) = .error .diverge))
    (by decide +kernel)
  obtain ⟨writes, hx, hwaits⟩ := Exec.any_eq_true.mp htest
  obtain ⟨writes', files, hx', -, hdecode⟩ := hclaim _ _ _ _ _ run 3 2
  have hsame : workerHandleReadNFiles t 3 (u64ToBigEndian 2) = .ok writes' := hx'
  rw [hx] at hsame
  obtain rfl := Except.ok.inj hsame
  rw [of_decide_eq_true hwaits] at hdecode
  cases hdecode

end FileStorage.Client
