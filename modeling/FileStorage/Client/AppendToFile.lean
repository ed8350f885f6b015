import FileStorage.Client.Requests
import FileStorage.Client.Responses

/-!
# AppendToFile — the request that the server does not know

`worker_handle_message` has no case for `API_OP_APPEND_TO_FILE`: the request is logged as
unrecognized and dropped, and the client waits for a response that is never sent.
-/

namespace FileStorage.Client

open Server

/-- The request half of `appendToFile`, on the path that `realpath` gives. -/
def appendToFile (absPath : CStr) (buffer : List UInt8) : List UInt8 :=
  makeRequestWithTwoArgs .appendToFile absPath.bytes buffer

/-- The bytes are at the end of the file, unless the file was evicted, and the client is sent a
response that it decodes to the end. -/
def Appended (P : Platform) (t : HTable) (fd : Int) (absPath : CStr) (buffer : List UInt8)
    (rands : List Nat) : Prop :=
  ∃ writes t', workerHandleMessage P t fd (appendToFile absPath buffer) rands = .ok (writes, t') ∧
    (∀ file, htableFetchFile P t absPath = .ok (some file) →
      htableFetchFile P t' absPath = .ok none ∨
        ∃ file', htableFetchFile P t' absPath = .ok (some file') ∧
          (sentFile file').2 = (sentFile file).2 ++ buffer) ∧
    ∃ result files, handleResponseWithFiles (fun _ _ => 0) (bytesTo fd writes) =
      .ok (result, files, [])

variable {P : Platform} {t t' : HTable} {fd : Int} {raw payload : List UInt8} {rands : List Nat}
  {writes : List Write}

/-- The operation code is the byte behind the header. -/
theorem messageRequest_eq_some {op : UInt8} (hx : messageRequest raw = .ok (some (op, payload))) :
    raw.drop 16 = op :: payload := by
  unfold messageRequest at hx
  split at hx
  · cases hx
  · obtain ⟨length, -, hx⟩ := Exec.bind_eq_ok.mp hx
    simp only [List.drop_drop] at hx
    split at hx
    · cases hx
    · cases hdrop : raw.drop 16 with
      | nil =>
        rw [hdrop] at hx
        cases hx
      | cons op' payload' =>
        rw [hdrop] at hx
        cases hx
        rfl

theorem appendToFile_drop (absPath : CStr) (buffer : List UInt8) :
    ∃ rest, (appendToFile absPath buffer).drop 16 = opByte .appendToFile :: rest := by
  simp only [appendToFile, makeRequestWithTwoArgs, List.append_assoc]
  exact ⟨_, rfl⟩

/-- A worker that returns from the request has written nothing and left the table as it was. -/
theorem appendToFile_ignored {absPath : CStr} {buffer : List UInt8}
    (hx : workerHandleMessage P t fd (appendToFile absPath buffer) rands = .ok (writes, t')) :
    writes = [] ∧ t' = t := by
  unfold workerHandleMessage at hx
  obtain ⟨request, hrequest, hx⟩ := Exec.bind_eq_ok.mp hx
  cases request with
  | none =>
    cases hx
    exact ⟨rfl, rfl⟩
  | some request =>
    obtain ⟨op, payload⟩ := request
    obtain ⟨rest, hdrop⟩ := appendToFile_drop absPath buffer
    rw [messageRequest_eq_some hrequest] at hdrop
    cases hdrop
    simp only [ofByte_opByte] at hx
    cases hx
    exact ⟨rfl, rfl⟩

/-- No `appendToFile` request is served, whatever the table, the path and the bytes. -/
theorem append_never_served (P : Platform) (t : HTable) (fd : Int) (absPath : CStr)
    (buffer : List UInt8) (rands : List Nat) : ¬Appended P t fd absPath buffer rands := by
  rintro ⟨writes, t', hx, -, result, files, hdecode⟩
  obtain ⟨rfl, -⟩ := appendToFile_ignored hx
  cases hdecode

/-- 3 appends two bytes to the file that it has created. -/
theorem append_lost :
    ¬∀ (P : Platform) (buckets : Nat) (config : Config) (tr : List (HTable × Call)) (t : HTable),
      SequentialRun P buckets config tr t → ∀ (fd : Int) (absPath : CStr) (buffer : List UInt8)
        (rands : List Nat) (file : File), htableFetchFile P t absPath = .ok (some file) →
          ¬file.lockedAgainst fd → Appended P t fd absPath buffer rands := by
  intro hclaim
  obtain ⟨tr, t, run, htest⟩ := SequentialRun.of_run_test samplePlatform 1 ⟨10, 10, .fifo⟩
    [⟨.create (bufToStr [97]) 3 false, []⟩]
    (fun _ t => ((htableFetchFile samplePlatform t (bufToStr [97])).anySome fun f =>
        decide ¬f.lockedAgainst 3) &&
      (workerHandleMessage samplePlatform t 3 (appendToFile (bufToStr [97]) [7, 8]) []).any
        fun x => x.1.isEmpty)
    (by decide +kernel)
  rw [Bool.and_eq_true] at htest
  obtain ⟨file, hfile, hallowed⟩ := Exec.anySome_eq_true.mp htest.1
  obtain ⟨⟨writes, t₁⟩, hx, hempty⟩ := Exec.any_eq_true.mp htest.2
  obtain ⟨writes', t', hx', -, result, files, hdecode⟩ := hclaim _ _ _ _ _ run 3 (bufToStr [97])
    [7, 8] [] file hfile (of_decide_eq_true hallowed)
  rw [hx] at hx'
  cases hx'
  have hnone : writes = [] := List.isEmpty_iff.mp hempty
  rw [hnone] at hdecode
  cases hdecode

end FileStorage.Client
