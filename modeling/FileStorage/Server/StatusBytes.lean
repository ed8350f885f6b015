import FileStorage.Server.Worker

/-!
# StatusBytes — what a client learns from the status byte
-/

namespace FileStorage.Server

/-! ## 1. The requested change -/

/-- The requests that ask for a change and are answered with a status byte at once. -/
def ApiOp.reportsChange : ApiOp → Bool
  | .openFile | .openFileCreate | .openFileLock | .openFileCreateLock | .closeFile | .unlockFile
  | .removeFile | .writeFile => true
  | _ => false

/-- The change that an operation is for, on the file under its key before and after it. -/
def Op.changes : Op → Option File → Option File → Prop
  | .create _ fd withLock, none, some f' => f'.isOpen ∧ f'.fdOwner = fd ∧ f'.isLocked = withLock
  | .open _ fd withLock, some f, some f' =>
      f.isOpen = false ∧ f'.isOpen ∧ f'.fdOwner = fd ∧ f'.isLocked = withLock
  | .close _ _, some f, some f' => f.isOpen ∧ f'.isOpen = false
  | .unlock _ fd, some f, some f' =>
      f.isLocked ∧ f.fdOwner = fd ∧ (f'.isLocked = false ∨ f'.isLocked ∧ f'.fdOwner ∈ f.subs)
  | .remove _ _, some _, none => True
  | .replace _ contents, some _, some f' =>
      f'.contents = some contents ∧ f'.lengthInBytes = contents.length
  | _, _, _ => False

def Op.changedBetween (P : Platform) (t t' : HTable) (op : Op) : Prop :=
  ∃ before after, htableFetchFile P t op.key = .ok before ∧
    htableFetchFile P t' op.key = .ok after ∧ op.changes before after

/-- A write is judged on the table that its evictions start from. -/
def Op.changed (P : Platform) (t t' : HTable) (op : Op) : Prop :=
  match op with
  | .replace _ _ => ∃ t₁, op.writeSections P t = .ok (some t₁) ∧ op.changedBetween P t t₁
  | _ => op.changedBetween P t t'

/-- The two reports of a success that did not happen: a file that is locked against the request
is not removed, and a path without a file is not written. -/
def Op.misreported (P : Platform) (t : HTable) : Op → Prop
  | .remove key fd =>
      ∃ f, htableFetchFile P t key = .ok (some f) ∧ f.lockedAgainst fd ∧ fd ≠ -1
  | .replace key _ => htableFetchFile P t key = .ok none
  | _ => False

/-- The operations behind these requests, but for the write. -/
def Op.reports : Op → Prop
  | .create _ _ _ | .open _ _ _ | .close _ _ | .unlock _ _ | .remove _ _ => True
  | .lock _ _ | .replace _ _ | .append _ _ => False

theorem Op.changes_of_put {op : Op} (hop : op.reports) {before : Option File}
    {code : HTableError} {newOwner : Int} {f : File}
    (h : op.verdict before = .put code newOwner f) : code = .ok ∧ op.changes before (some f) := by
  cases op <;> cases before <;> simp only [Op.verdict, Op.reports] at h hop <;>
    grind [Op.changes, newFile]

theorem Op.changes_of_drop {op : Op} {before : Option File} (h : op.verdict before = .drop) :
    op.changes before none := by
  cases op <;> cases before <;> simp only [Op.verdict] at h <;> grind [Op.changes]

/-- A refusal changes nothing, and `remove` alone calls it a success. -/
theorem Op.changes_of_refuse {op : Op} (hop : op.reports) {before : Option File}
    {code : HTableError} (h : op.verdict before = .refuse code) :
    ¬op.changes before before ∧
      (code = .ok ↔ ∃ key fd f, op = .remove key fd ∧ before = some f ∧ f.lockedAgainst fd ∧
        fd ≠ -1) := by
  cases op <;> cases before <;> simp only [Op.verdict, Op.reports] at h hop <;>
    grind [Op.changes]

/-- The code is `HTABLE_ERR_OK` exactly after the change, but for the misreported removal. -/
theorem MapStep.code_ok_iff {m m' : FileMap} {op : Op} {out : Outcome} (hop : op.reports)
    (h : MapStep m op out m') :
    (out.code = .ok ↔ op.changes (m op.key) (m' op.key)) ↔
      ¬∃ key fd f, op = .remove key fd ∧ m op.key = some f ∧ f.lockedAgainst fd ∧ fd ≠ -1 := by
  have hwrites : op.writes = false := by
    cases op <;> first | rfl | exact hop.elim
  cases h with
  | refuse h =>
    obtain ⟨hnot, hcode⟩ := Op.changes_of_refuse hop h
    simp only [hnot, iff_false]
    exact not_congr hcode
  | put h hev hquiet =>
    -- only a write evicts
    obtain rfl := hquiet hwrites
    cases hev
    obtain ⟨rfl, hchanges⟩ := Op.changes_of_put hop h
    rw [Function.update_self]
    simp only [hchanges, true_iff]
    rintro ⟨key, fd, f, rfl, hf, hlocked⟩
    rw [hf, Op.verdict, if_pos hlocked] at h
    cases h
  | drop h =>
    rw [Function.update_self]
    simp only [Op.changes_of_drop h, true_iff]
    rintro ⟨key, fd, f, rfl, hf, hlocked⟩
    rw [hf, Op.verdict, if_pos hlocked] at h
    cases h

section

variable {P : Platform} {t t' : HTable} {L : Contents} {op : Op} {out : Outcome}
  {rands : List Nat}

theorem changed_iff_between (hop : op.reports) :
    op.changed P t t' ↔ op.changedBetween P t t' := by
  cases op with
  | create | «open» | close | unlock | remove => rfl
  | lock | replace | append => exact hop.elim

theorem code_ok_iff (hs : Stored P t L) (hop : op.reports)
    (hx : op.exec P t rands = .ok (out, t')) :
    (out.code = .ok ↔ op.changed P t t') ↔ ¬op.misreported P t := by
  obtain ⟨L', heffect⟩ := effect_of_exec hs hx
  have hs' := heffect.stored hs
  have hmis : op.misreported P t ↔ ∃ key fd f, op = .remove key fd ∧ fileAt L op.key = some f ∧
      f.lockedAgainst fd ∧ fd ≠ -1 := by
    cases op <;> simp [Op.misreported, hs.fetchFile, Op.reports, Op.key] at hop ⊢
  have hchanged : op.changed P t t' ↔ op.changes (fileAt L op.key) (fileAt L' op.key) := by
    rw [changed_iff_between hop]
    simp only [Op.changedBetween, hs.fetchFile, hs'.fetchFile, Except.ok.injEq]
    constructor
    · rintro ⟨before, after, rfl, rfl, h⟩
      exact h
    · intro h
      exact ⟨_, _, rfl, rfl, h⟩
  rw [hmis, hchanged]
  exact (heffect.mapStep hs).code_ok_iff hop

/-- A write that returned has stored the bytes unless there was no file. -/
theorem changed_write_iff (hs : Stored P t L) {key : CStr} {contents : List UInt8}
    (hx : (Op.replace key contents).exec P t rands = .ok (out, t')) :
    (Op.replace key contents).changed P t t' ↔ ¬(Op.replace key contents).misreported P t := by
  rw [Op.exec_write rfl] at hx
  obtain ⟨r, hsections, -⟩ := Exec.bind_eq_ok.mp hx
  simp only [Op.changed, Op.misreported, hs.fetchFile, Except.ok.injEq]
  rcases writeSections_ok hs rfl hsections with
    ⟨hnone, rfl⟩ | ⟨a, f, f', hsome, hverdict, hsize, rfl⟩
  · rw [hsections]
    have hfile : fileAt L key = none := fileAt_of_lookup_none hnone
    simp [hfile]
  · have hs₁ := stored_written hs rfl hsome hverdict hsize
    have hfile : fileAt L key = some f := fileAt_of_lookup hsome
    have hfile₁ : fileAt (L.setFile a f') key = some f' := by
      have hset := hs.fileAt_setFile (mem_of_lookup hsome) (Op.verdict_some_key hverdict)
      rw [hset, key_of_lookup hsome]
      exact Function.update_self _ _ _
    refine iff_of_true ⟨_, hsections, some f, some f', ?_, ?_, ?_⟩ (by simp [hfile])
    · rw [hs.fetchFile]
      exact congrArg _ hfile
    · rw [hs₁.fetchFile]
      exact congrArg _ hfile₁
    · cases hverdict
      exact ⟨rfl, rfl⟩

end

/-! ## 2. The reply -/

theorem statusByte_of_called {fd : Int} {writes rest : List Write} {b : UInt8}
    (h : statusWrites writes = ⟨fd, [b], .status⟩ :: rest) : statusByte fd writes = some b := by
  simp [statusByte, h]

theorem ApiOp.reports_tableOp {op : ApiOp} (hop : op.reportsChange) {fd : Int}
    {buffer : List UInt8} {o : Op} (h : op.tableOp fd buffer = .ok (some o)) :
    o.reports ∨ ∃ key contents, o = .replace key contents := by
  cases op with
  | writeFile =>
    obtain ⟨path, contents, -, rfl⟩ := ApiOp.tableOp_writeFile.mp h
    exact Or.inr ⟨path, contents, rfl⟩
  | openFile | openFileCreate | openFileLock | openFileCreateLock | closeFile | unlockFile
  | removeFile =>
    cases h
    exact Or.inl trivial
  | openConnection | closeConnection | readFile | readNFiles | appendToFile | lockFile => cases hop

/-- The status byte of one of these requests tells the truth, whatever the store, exactly when the
request is neither the removal of a file that is locked against it nor a write to a path that has
no file. -/
theorem status_byte_truthful_iff {P : Platform} {buckets : Nat} {config : Config}
    {tr : List (HTable × Call)} {t t' : HTable} (run : SequentialRun P buckets config tr t)
    {op : ApiOp} (hop : op.reportsChange) {fd : Int} {buffer : List UInt8} {rands : List Nat}
    {writes : List Write} (hx : workerHandleRequest P t fd op buffer rands = .ok (writes, t')) :
    (statusByte fd writes = some responseOk ↔
        ∃ o, op.tableOp fd buffer = .ok (some o) ∧ o.changed P t t') ↔
      ∀ o, op.tableOp fd buffer = .ok (some o) → ¬o.misreported P t := by
  obtain ⟨L, hs⟩ := run.stored
  cases handled_of_ok hx with
  | untouched htable hstatus hone hwrite =>
    obtain rfl : op = .writeFile := by
      cases op with
      | writeFile => rfl
      | openFile | openFileCreate | openFileLock | openFileCreateLock | closeFile | unlockFile
      | removeFile => cases htable
      | openConnection | closeConnection | readFile | readNFiles | appendToFile | lockFile =>
        cases hop
    simp [hwrite rfl, htable, statusByte, statusWrites]
  | called o out htable hexec hstatus =>
    have hthe : ∀ p : Op → Prop, (∃ o, op.tableOp fd buffer = .ok (some o) ∧ p o) ↔ p o := by
      intro p
      simp [htable]
    have hall : (∀ o, op.tableOp fd buffer = .ok (some o) → ¬o.misreported P t) ↔
        ¬o.misreported P t := by
      simp [htable]
    rw [hthe, hall, statusByte_of_called hstatus, Option.some.injEq]
    rcases ApiOp.reports_tableOp hop htable with hreports | ⟨key, contents, rfl⟩
    · have hbyte : o.statusOf out = responseOk ↔ out.code = .ok := by
        cases o <;> first | exact responseByte_eq_ok | exact hreports.elim
      rw [hbyte]
      exact code_ok_iff hs hreports hexec
    · rw [changed_write_iff hs hexec]
      simp [Op.statusOf]

/-- 3 closes the file it created. -/
theorem status_byte_truthful_on_close :
    ∃ tr t writes t', SequentialRun samplePlatform 1 ⟨10, 10, .fifo⟩ tr t ∧
      workerHandleRequest samplePlatform t 3 .closeFile [97] [] = .ok (writes, t') ∧
      statusByte 3 writes = some responseOk ∧
      (Op.close (bufToStr [97]) 3).changed samplePlatform t t' := by
  obtain ⟨tr, t, run, htest⟩ := SequentialRun.of_run_test samplePlatform 1 ⟨10, 10, .fifo⟩
    [⟨.create (bufToStr [97]) 3 true, []⟩]
    (fun _ t => (workerHandleRequest samplePlatform t 3 .closeFile [97] []).any fun r =>
      statusByte 3 r.1 == some responseOk)
    (by decide +kernel)
  obtain ⟨⟨writes, t'⟩, hx, htest⟩ := Exec.any_eq_true.mp htest
  have hstatus := beq_iff_eq.mp htest
  have htrue := (status_byte_truthful_iff run rfl hx).mpr (by
    intro o ho
    cases ho
    exact id)
  obtain ⟨o, ho, hchanged⟩ := htrue.mp hstatus
  cases ho
  exact ⟨tr, t, writes, t', run, hx, hstatus, hchanged⟩

/-- 4 removes a file that 3 has locked: the byte says OK and the file is still there. -/
theorem status_byte_lies_on_remove :
    ¬∀ (P : Platform) (buckets : Nat) (config : Config) (tr : List (HTable × Call)) (t : HTable),
      SequentialRun P buckets config tr t → ∀ (op : ApiOp), op.reportsChange → ∀ fd buffer rands
        writes t', workerHandleRequest P t fd op buffer rands = .ok (writes, t') →
          (statusByte fd writes = some responseOk ↔
            ∃ o, op.tableOp fd buffer = .ok (some o) ∧ o.changed P t t') := by
  intro hclaim
  obtain ⟨tr, t, run, htest⟩ := SequentialRun.of_run_test samplePlatform 1 ⟨10, 10, .fifo⟩
    [⟨.create (bufToStr [97]) 3 true, []⟩]
    (fun _ t => (workerHandleRequest samplePlatform t 4 .removeFile [97] []).any fun r =>
      statusByte 4 r.1 == some responseOk &&
        decide (htableFetchFile samplePlatform r.2 (bufToStr [97]) ≠ .ok none))
    (by decide +kernel)
  obtain ⟨⟨writes, t'⟩, hx, htest⟩ := Exec.any_eq_true.mp htest
  rw [Bool.and_eq_true, beq_iff_eq, decide_eq_true_eq] at htest
  obtain ⟨hstatus, hstill⟩ := htest
  obtain ⟨o, ho, hchanged⟩ :=
    (hclaim _ _ _ _ _ run .removeFile rfl 4 [97] [] writes t' hx).mp hstatus
  cases ho
  obtain ⟨before, after, -, hafter, hchanges⟩ := hchanged
  cases after with
  | none => exact hstill hafter
  | some f => cases before <;> exact hchanges.elim

end FileStorage.Server
