import FileStorage.Server.Steps
import FileStorage.Server.TableGuards

/-!
# Refusals — an operation that refuses leaves no trace

The branches of the table's operations that return an error, and the one in which a file is not
unlocked because somebody else owns it.
-/

namespace FileStorage.Server

/-- The answers that turn an operation down. -/
inductive Op.Refused : Op → HTableError → Prop
  | error {op : Op} {code : HTableError} (hok : code ≠ .ok) (hwait : code ≠ .okWait) :
      Op.Refused op code
  | notOwner {key : CStr} {fd : Int} : Op.Refused (.unlock key fd) .okWait

/-! ## 1. Each operation -/

section

variable {P : Platform} {t t' : HTable} {key : CStr} {fd : Int} {code : HTableError}

/-- `HTABLE_ERR_OK_WAIT` is not an error here: there is one more waiter. -/
theorem lockFile_refused (hx : htableLockFile P t key fd = .ok (code, t')) (hok : code ≠ .ok)
    (hwait : code ≠ .okWait) : t' = t := by
  obtain ⟨node, -, hx⟩ := Exec.bind_eq_ok.mp hx
  cases node with
  | none =>
    cases hx
    rfl
  | some p =>
    simp only at hx
    split at hx
    · cases hx
      exact absurd rfl hwait
    · split at hx
      · cases hx
      · cases hx
        exact absurd rfl hok

theorem unlockFile_refused {newOwner : Int}
    (hx : htableUnlockFile P t key fd = .ok (code, newOwner, t')) (hok : code ≠ .ok) : t' = t := by
  obtain ⟨node, -, hx⟩ := Exec.bind_eq_ok.mp hx
  cases node with
  | none =>
    cases hx
    rfl
  | some p =>
    simp only at hx
    split at hx
    · cases hx
      rfl
    · split at hx
      -- whoever asks does not own the lock
      · cases hx
        rfl
      · split at hx
        · cases hx
          exact absurd rfl hok
        · cases hx
          exact absurd rfl hok

theorem openFile_refused {withLock : Bool}
    (hx : htableOpenFile P t key fd withLock = .ok (code, t')) (hok : code ≠ .ok) : t' = t := by
  obtain ⟨node, -, hx⟩ := Exec.bind_eq_ok.mp hx
  cases node with
  | none =>
    cases hx
    rfl
  | some p =>
    simp only at hx
    split at hx
    · cases hx
      rfl
    · split at hx
      · cases hx
        rfl
      · cases hx
        exact absurd rfl hok

theorem closeFile_refused (hx : htableCloseFile P t key fd = .ok (code, t')) (hok : code ≠ .ok) :
    t' = t := by
  obtain ⟨node, -, hx⟩ := Exec.bind_eq_ok.mp hx
  cases node with
  | none =>
    cases hx
    rfl
  | some p =>
    simp only at hx
    split at hx
    · cases hx
      rfl
    · split at hx
      · cases hx
        rfl
      · cases hx
        exact absurd rfl hok

/-- Once the item is linked nothing can go wrong any more. -/
theorem createFile_refused {withLock : Bool}
    (hx : htableCreateFile P t key fd withLock = .ok (code, t')) (hok : code ≠ .ok) : t' = t := by
  obtain ⟨node, -, hx⟩ := Exec.bind_eq_ok.mp hx
  cases node with
  | some p =>
    cases hx
    rfl
  | none =>
    obtain ⟨bucket, -, hx⟩ := Exec.bind_eq_ok.mp hx
    obtain ⟨linked, -, hx⟩ := Exec.bind_eq_ok.mp hx
    obtain ⟨counted, -, hx⟩ := Exec.bind_eq_ok.mp hx
    cases hx
    exact absurd rfl hok

theorem openOrCreateFile_refused {create withLock : Bool}
    (hx : htableOpenOrCreateFile P t key fd create withLock = .ok (code, t')) (hok : code ≠ .ok) :
    t' = t := by
  unfold htableOpenOrCreateFile at hx
  split at hx
  · exact createFile_refused hx hok
  · exact openFile_refused hx hok

theorem removeSection_refused (hx : removeSection P t key fd = .ok (.inl code, t')) : t' = t := by
  obtain ⟨node, -, hx⟩ := Exec.bind_eq_ok.mp hx
  cases node with
  | none =>
    cases hx
    rfl
  | some p =>
    simp only at hx
    split at hx
    · cases hx
      rfl
    · obtain ⟨unlinked, -, hx⟩ := Exec.bind_eq_ok.mp hx
      cases hx

theorem removeFile_refused (hx : htableRemoveFile P t key fd = .ok (code, t')) (hok : code ≠ .ok) :
    t' = t := by
  obtain ⟨⟨answer, t₁⟩, hsection, hx⟩ := Exec.bind_eq_ok.mp hx
  cases answer with
  | inl code₁ =>
    cases hx
    exact removeSection_refused hsection
  | inr sizeInBytes =>
    cases hx
    exact absurd rfl hok

/-- A write that found its file is not turned down, whatever it evicts. -/
theorem write_refused {op : Op} (hop : op.writes) {rands : List Nat} {out : Outcome}
    (hx : op.exec P t rands = .ok (out, t')) (hok : out.code ≠ .ok) : t' = t := by
  rw [Op.exec_write hop] at hx
  obtain ⟨written, -, hx⟩ := Exec.bind_eq_ok.mp hx
  cases written with
  | none =>
    cases hx
    rfl
  | some t₁ =>
    obtain ⟨⟨evicted, t₂⟩, -, hx⟩ := Exec.bind_eq_ok.mp hx
    cases hx
    exact absurd rfl hok

end

/-! ## 2. All of them -/

namespace Op.Refused

variable {op : Op} {code : HTableError}

theorem ne_ok (h : op.Refused code) : code ≠ .ok := by
  cases h with
  | error hok hwait => exact hok
  | notOwner => decide

theorem ne_okWait (h : op.Refused code) {key : CStr} {fd : Int} (hop : op = .lock key fd) :
    code ≠ .okWait := by
  cases h with
  | error hok hwait => exact hwait
  | notOwner => cases hop

/-- The table an operation returns when it refuses is the one it was called on. -/
theorem unchanged {P : Platform} {t t' : HTable} {rands : List Nat} {out : Outcome}
    (h : op.Refused out.code) (hx : op.exec P t rands = .ok (out, t')) : t' = t := by
  have hok := h.ne_ok
  cases op with
  | create key fd withLock | «open» key fd withLock =>
    obtain ⟨⟨code, t₁⟩, hcall, hx⟩ := Exec.bind_eq_ok.mp hx
    cases hx
    exact openOrCreateFile_refused hcall hok
  | close key fd =>
    obtain ⟨⟨code, t₁⟩, hcall, hx⟩ := Exec.bind_eq_ok.mp hx
    cases hx
    exact closeFile_refused hcall hok
  | lock key fd =>
    have hwait := h.ne_okWait rfl
    obtain ⟨⟨code, t₁⟩, hcall, hx⟩ := Exec.bind_eq_ok.mp hx
    cases hx
    exact lockFile_refused hcall hok hwait
  | unlock key fd =>
    obtain ⟨⟨code, newOwner, t₁⟩, hcall, hx⟩ := Exec.bind_eq_ok.mp hx
    cases hx
    exact unlockFile_refused hcall hok
  | remove key fd =>
    obtain ⟨⟨code, t₁⟩, hcall, hx⟩ := Exec.bind_eq_ok.mp hx
    cases hx
    exact removeFile_refused hcall hok
  | replace | append => exact write_refused rfl hx hok

end Op.Refused

/-- In any table, reachable or not, and with no mutex held before the call: an operation that
turns its caller down changes nothing and holds no mutex when it returns. -/
theorem exec_refused {σ : Type} {P : Platform} {t t' : HTable} {rands : List Nat} {op : Op}
    {out : Outcome} {s s' : Logged Guard σ} (hfree : s.held = some [])
    (hexec : Guarded.exec P t rands op s = .ok ((out, t'), s')) (hrefused : op.Refused out.code) :
    t' = t ∧ s'.held = some [] := by
  obtain ⟨hreturned, -, hheld⟩ := (Guarded.exec_implements s hfree).2 _ _ hexec
  exact ⟨hrefused.unchanged hreturned, hheld⟩

/-- Descriptor 4 wants to unlock the file that 3 has created with the lock. -/
theorem exec_refused_unlock :
    ∃ tr t out t' s', SequentialRun samplePlatform 1 ⟨3, 10, .segmentedFifo⟩ tr t ∧
      Guarded.exec samplePlatform t [] (.unlock (bufToStr [97]) 4) (⟨[], ()⟩ : Logged Guard Unit) =
        .ok ((out, t'), s') ∧
      out.code = .okWait ∧ s'.events = [.lock (.bucket 0), .unlock (.bucket 0)] ∧
      t' = t ∧ s'.held = some [] := by
  obtain ⟨tr, t, run, htest⟩ := SequentialRun.of_run_test samplePlatform 1 ⟨3, 10, .segmentedFifo⟩
    [⟨.create (bufToStr [97]) 3 true, []⟩]
    (fun _ t =>
      (Guarded.exec samplePlatform t [] (.unlock (bufToStr [97]) 4)
        (⟨[], ()⟩ : Logged Guard Unit)).any fun r =>
          r.1.1.code = .okWait ∧ r.2.events = [.lock (.bucket 0), .unlock (.bucket 0)])
    (by decide)
  obtain ⟨⟨⟨out, t'⟩, s'⟩, hexec, hr⟩ := Exec.any_eq_true.mp htest
  obtain ⟨hcode, hevents⟩ := of_decide_eq_true hr
  refine ⟨tr, t, out, t', s', run, hexec, hcode, hevents, ?_⟩
  exact exec_refused rfl hexec (hcode ▸ .notOwner)

end FileStorage.Server
