import FileStorage.Server.Steps

/-!
# StoreMap — over a run the table is a finite map from paths to files
-/

namespace FileStorage.Server

/-- What the callers of the table rely on when `op` answered `out`. -/
structure ActsAsMap (P : Platform) (t : HTable) (op : Op) (out : Outcome) (t' : HTable) : Prop where
  others : ∀ key, key ≠ op.key → key ∉ out.evicted.map File.key →
    htableFetchFile P t' key = htableFetchFile P t key
  created : ∀ key fd withLock, op = .create key fd withLock → out.code = .ok →
    htableFetchFile P t' key = .ok (some (newFile key fd withLock))
  replaced : ∀ key contents, op = .replace key contents → out.code = .ok →
    key ∉ out.evicted.map File.key → ∃ f, htableFetchFile P t key = .ok (some f) ∧
      htableFetchFile P t' key = .ok (some (f.withBytes contents))
  appended : ∀ key contents, op = .append key contents → out.code = .ok →
    key ∉ out.evicted.map File.key → ∃ f, htableFetchFile P t key = .ok (some f) ∧
      htableFetchFile P t' key = .ok (some (f.withBytes (f.bytes ++ contents)))
  removed : ∀ key fd f, op = .remove key fd → htableFetchFile P t key = .ok (some f) →
    ¬(f.lockedAgainst fd ∧ fd ≠ -1) → htableFetchFile P t' key = .ok none
  evictedAbsent : ∀ f ∈ out.evicted, htableFetchFile P t' f.key = .ok none
  evictedOther : ∀ f ∈ out.evicted, f.key ≠ op.key → htableFetchFile P t f.key = .ok (some f)
  /-- The written file itself was evicted: the array holds it as written. -/
  evictedOwn : ∀ f ∈ out.evicted, f.key = op.key →
    ∃ g, htableFetchFile P t f.key = .ok (some g) ∧ op.verdict (some g) = .put .ok (-1) f

/-! ## 1. On the map -/

namespace MapStep

variable {m m' : FileMap} {op : Op} {out : Outcome}

theorem created (h : MapStep m op out m') {key : CStr} {fd : Int} {withLock : Bool}
    (hop : op = .create key fd withLock) (hcode : out.code = .ok) :
    m' key = some (newFile key fd withLock) := by
  subst hop
  cases h with
  | refuse h =>
    cases hm : m key <;> simp only [Op.key, hm, Op.verdict, Verdict.refuse.injEq] at h
    · cases h
    · subst h
      cases hcode
  | put h hev hquiet =>
    obtain rfl := hquiet rfl
    cases hev
    cases hm : m key <;> simp only [Op.key, hm, Op.verdict, Verdict.put.injEq] at h
    · simp [Op.key, ← h.2.2]
    · cases h
  | drop h =>
    cases hm : m key <;> simp [Op.key, hm, Op.verdict] at h

/-- A write that returned `HTABLE_ERR_OK` and did not evict its own file. -/
theorem written (h : MapStep m op out m') (hop : op.writes) (hcode : out.code = .ok)
    (hkey : op.key ∉ out.evicted.map File.key) :
    ∃ f f', m op.key = some f ∧ op.verdict (some f) = .put .ok (-1) f' ∧
      m' op.key = some f' := by
  obtain ⟨hnone, hsome⟩ := Op.verdict_of_writes hop
  cases hm : m op.key with
  | none =>
    cases h with
    | refuse h =>
      rw [hm, hnone] at h
      cases h
      cases hcode
    | put h hev hquiet => rw [hm, hnone] at h; cases h
    | drop h => rw [hm, hnone] at h; cases h
  | some f =>
    obtain ⟨f', hverdict⟩ := hsome f
    refine ⟨f, f', rfl, hverdict, ?_⟩
    cases h with
    | refuse h => rw [hm, hverdict] at h; cases h
    | put h hev hquiet =>
      rw [hm, hverdict] at h
      cases h
      rw [hev.of_not_mem hkey, Function.update_self]
    | drop h => rw [hm, hverdict] at h; cases h

theorem removed (h : MapStep m op out m') {key : CStr} {fd : Int} (hop : op = .remove key fd)
    {f : File} (hf : m key = some f) (hallowed : ¬(f.lockedAgainst fd ∧ fd ≠ -1)) :
    m' key = none := by
  subst hop
  have hverdict : Op.verdict (.remove key fd) (m key) = .drop := by
    rw [hf]
    exact if_neg hallowed
  cases h with
  | refuse h => exact absurd (h.symm.trans hverdict) (by simp)
  | put h hev hquiet => exact absurd (h.symm.trans hverdict) (by simp)
  | drop h => simp [Op.key]

theorem evicted_absent (h : MapStep m op out m') {f : File} (hf : f ∈ out.evicted) :
    m' f.key = none := by
  cases h with
  | refuse h => cases hf
  | put h hev hquiet => rw [hev.apply, if_pos (List.mem_map_of_mem hf)]
  | drop h => cases hf

theorem evicted_other (h : MapStep m op out m') {f : File} (hf : f ∈ out.evicted)
    (hkey : f.key ≠ op.key) : m f.key = some f := by
  cases h with
  | refuse h => cases hf
  | put h hev hquiet =>
    have hupd := hev.mem hf
    rwa [Function.update_of_ne hkey] at hupd
  | drop h => cases hf

theorem evicted_own (h : MapStep m op out m') {f : File} (hf : f ∈ out.evicted)
    (hkey : f.key = op.key) :
    ∃ g, m f.key = some g ∧ op.verdict (some g) = .put .ok (-1) f := by
  cases h with
  | refuse h => cases hf
  | put h hev hquiet =>
    rename_i code newOwner f' evicted
    have hupd := hev.mem hf
    rw [hkey, Function.update_self] at hupd
    obtain rfl := Option.some.inj hupd
    -- only a write evicts
    have hop : op.writes = true := by
      cases hw : op.writes with
      | true => rfl
      | false =>
        obtain rfl := hquiet hw
        cases hf
    obtain ⟨hnone, hsome⟩ := Op.verdict_of_writes hop
    rw [hkey]
    cases hm : m op.key with
    | none => rw [hm, hnone] at h; cases h
    | some g =>
      obtain ⟨g', hverdict⟩ := hsome g
      rw [hm, hverdict] at h
      cases h
      exact ⟨g, rfl, hverdict⟩
  | drop h => cases hf

end MapStep

/-! ## 2. Over a run -/

namespace SequentialRun

variable {P : Platform} {buckets : Nat} {config : Config} {tr : List (HTable × Call)} {t t' : HTable}

/-- One more operation of a run, seen on the map. -/
theorem mapStep (run : SequentialRun P buckets config tr t) {op : Op} {rands : List Nat}
    {out : Outcome} (hx : op.exec P t rands = .ok (out, t')) :
    ∃ m m' : FileMap, (∀ key, htableFetchFile P t key = .ok (m key)) ∧
      (∀ key, htableFetchFile P t' key = .ok (m' key)) ∧
      (∀ key f, m key = some f → f.key = key) ∧ MapStep m op out m' := by
  obtain ⟨L, hs⟩ := run.stored
  obtain ⟨L', heffect⟩ := effect_of_exec hs hx
  exact ⟨fileAt L, fileAt L', hs.fetchFile, (heffect.stored hs).fetchFile,
    fun _ _ => hs.fileAt_key, heffect.mapStep hs⟩

end SequentialRun

/-- In every sequential run the table acts as a finite map, whatever the hash function and the
collisions, under either eviction policy. -/
theorem sequential_run_acts_as_map {P : Platform} {buckets : Nat} {config : Config}
    {tr : List (HTable × Call)} {t t' : HTable} (run : SequentialRun P buckets config tr t)
    {op : Op} {rands : List Nat} {out : Outcome} (hx : op.exec P t rands = .ok (out, t')) :
    ActsAsMap P t op out t' := by
  obtain ⟨m, m', hm, hm', -, hstep⟩ := run.mapStep hx
  constructor
  · intro key hkey hev
    rw [hm, hm', hstep.frame hkey hev]
  · intro key fd withLock hop hcode
    rw [hm', hstep.created hop hcode]
  · intro key contents hop hcode hkey
    subst hop
    obtain ⟨f, f', hf, hverdict, hf'⟩ := hstep.written rfl hcode hkey
    cases hverdict
    refine ⟨f, ?_, ?_⟩
    · rw [hm]
      exact congrArg _ hf
    · rw [hm']
      exact congrArg _ hf'
  · intro key contents hop hcode hkey
    subst hop
    obtain ⟨f, f', hf, hverdict, hf'⟩ := hstep.written rfl hcode hkey
    cases hverdict
    refine ⟨f, ?_, ?_⟩
    · rw [hm]
      exact congrArg _ hf
    · rw [hm']
      exact congrArg _ hf'
  · intro key fd f hop hf hallowed
    rw [hm, Except.ok.injEq] at hf
    rw [hm', hstep.removed hop hf hallowed]
  · intro f hf
    rw [hm', hstep.evicted_absent hf]
  · intro f hf hkey
    rw [hm, hstep.evicted_other hf hkey]
  · intro f hf hkey
    obtain ⟨g, hg, hverdict⟩ := hstep.evicted_own hf hkey
    exact ⟨g, by rw [hm, hg], hverdict⟩

/-- A write of `b` that pushes the older `a` out of a store for one file. -/
theorem sequential_run_acts_as_map_evicting :
    ∃ tr t out t', SequentialRun samplePlatform 2 ⟨1, 10, .segmentedFifo⟩ tr t ∧
      (Op.replace (bufToStr [98]) [9]).exec samplePlatform t [0, 1] = .ok (out, t') ∧
      out.evicted.map File.contents = [some [7]] ∧
      ActsAsMap samplePlatform t (.replace (bufToStr [98]) [9]) out t' := by
  obtain ⟨tr, t, out, t', run, hx, htest⟩ := SequentialRun.of_test samplePlatform 2
    ⟨1, 10, .segmentedFifo⟩
    [⟨.create (bufToStr [97]) 3 false, []⟩, ⟨.replace (bufToStr [97]) [7], []⟩,
      ⟨.create (bufToStr [98]) 4 true, []⟩]
    ⟨.replace (bufToStr [98]) [9], [0, 1]⟩
    (fun _ out _ => out.evicted.map File.contents == [some [7]]) (by decide +kernel)
  exact ⟨tr, t, out, t', run, hx, by simpa using htest, sequential_run_acts_as_map run hx⟩

end FileStorage.Server
