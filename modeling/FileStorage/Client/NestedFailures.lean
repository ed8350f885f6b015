import FileStorage.Client.WriteDir

/-!
# NestedFailures — the failures that `-w` reports

The result of the directory is about its own entries: a failure below a subdirectory is lost in the
call that does not look at its result.
-/

namespace FileStorage.Client.WriteDir

open Cli

variable {calls : Calls} {limit : Option Int32} {vs : List Visit} {absdir : CStr}
  {contents : CStr → Listing} {getcwd : Option CStr} {action action' : Action} {dirname : CStr}

/-! ## 1. What is reported -/

/-- 0 is returned only when all calls that were made succeeded. -/
def Reported (calls : Calls) (x : Exec (Int32 × Action × List Issued)) : Prop :=
  ∀ action issued, x = .ok (0, action, issued) → ∀ call ∈ issued, calls.succeeds call = true

/-- `NULL` for an action without a limit. -/
def limitOf (action : Action) : Option Int32 :=
  if 0 < action.argI then some action.argI else none

/-- A call below a subdirectory fails and no entry of the directory itself does. -/
def Hides (calls : Calls) (vs : List Visit) : Prop :=
  (∃ v ∈ vs, v.nested = true ∧ v.failed calls = true) ∧ topStops calls vs = false

/-! ## 2. The visits that fail -/

/-- An entry of the directory itself that fails stops its loop. -/
theorem stops_of_failed {listing : Listing} {v : Visit}
    (h : v ∈ visits calls absdir false listing) (hnested : v.nested = false)
    (hfailed : v.failed calls = true) : v.stops calls = true := by
  rcases hcall : v.call with _ | path | path
  · rw [Visit.failed, hcall] at hfailed
    cases hfailed
  · rw [nested_of_mem h (Or.inr ⟨path, hcall⟩)] at hnested
    cases hnested
  · simpa [Visit.failed, Visit.stops, Calls.succeeds, hcall] using hfailed

theorem calls_succeed_iff (vs : List Visit) :
    (∀ call ∈ vs.filterMap Visit.call, calls.succeeds call = true) ↔
      ∀ v ∈ vs, v.failed calls = false := by
  simp only [List.mem_filterMap, forall_exists_index, and_imp, Visit.failed, Option.any_eq_false,
    Bool.not_eq_false']
  exact ⟨fun h v hv call hcall => h call v hv hcall, fun h call v hv hcall => h v hv call hcall⟩

/-- In a directory that can be opened. -/
theorem writeDir_reports_iff (hopen : calls.opendir absdir = true) (listing : Listing) :
    ((writeDir calls absdir listing limit).1 = 0 →
      ∀ call ∈ (writeDir calls absdir listing limit).2.2, calls.succeeds call = true) ↔
    ¬ Hides calls (within calls limit (visits calls absdir false listing)) := by
  rw [writeDir_eq hopen]
  generalize hvs : within calls limit (visits calls absdir false listing) = vs
  dsimp only [served]
  rw [hvs, List.forall_mem_cons, calls_succeed_iff]
  cases hstops : topStops calls vs with
  | true =>
    -- the result is -1
    refine iff_of_true (fun hzero => absurd hzero (by decide)) fun hhides => ?_
    rw [hhides.2] at hstops
    cases hstops
  | false =>
    constructor
    · rintro h ⟨⟨v, hv, -, hfailed⟩, -⟩
      rw [(h rfl).2 v hv] at hfailed
      cases hfailed
    · intro h _
      refine ⟨hopen, fun v hv => ?_⟩
      by_contra hfailed
      rw [Bool.not_eq_false] at hfailed
      cases hnested : v.nested with
      | true => exact h ⟨⟨v, hv, hnested, hfailed⟩, hstops⟩
      | false =>
        have hvisit : v ∈ visits calls absdir false listing := mem_of_mem_within (hvs ▸ hv)
        rw [topStops, List.any_eq_false] at hstops
        refine hstops v hv ?_
        rw [hnested, stops_of_failed hvisit hnested hfailed]
        rfl

/-! ## 3. The action -/

theorem startDir_argI (h : startDir getcwd action = .ok (some (dirname, action'))) :
    action'.argI = action.argI := by
  unfold startDir at h
  repeat' split at h
  all_goals cases h
  all_goals rfl

theorem runAction_eq (calls : Calls) (contents : CStr → Listing)
    (h : startDir getcwd action = .ok (some (dirname, action'))) :
    ∃ action'', runActionWriteFilesInDir calls contents getcwd action =
      .ok ((writeDir calls dirname (contents dirname) (limitOf action)).1, action'',
        (writeDir calls dirname (contents dirname) (limitOf action)).2.2) := by
  rw [runActionWriteFilesInDir, h, Exec.ok_bind, limitOf, ← startDir_argI h]
  dsimp only
  split
  · exact ⟨_, rfl⟩
  · exact ⟨_, rfl⟩

/-- The failures are reported exactly when none is hidden within the limit. -/
theorem runActionWriteFilesInDir_reports_iff :
    Reported calls (runActionWriteFilesInDir calls contents getcwd action) ↔
      ∀ dirname action', startDir getcwd action = .ok (some (dirname, action')) →
        calls.opendir dirname = true →
        ¬ Hides calls (within calls (limitOf action)
          (visits calls dirname false (contents dirname))) := by
  constructor
  · intro h dirname action' hstart hopen
    obtain ⟨action'', hx⟩ := runAction_eq calls contents hstart
    rw [← writeDir_reports_iff hopen]
    intro hzero
    rw [hzero] at hx
    exact h action'' _ hx
  · intro h action₁ issued hx
    cases hstart : startDir getcwd action with
    | error e =>
      rw [runActionWriteFilesInDir, hstart] at hx
      cases hx
    | ok start =>
      rcases start with _ | ⟨dirname, action'⟩
      -- without a directory the result is -1
      · rw [runActionWriteFilesInDir, hstart] at hx
        cases hx
      · obtain ⟨action'', heq⟩ := runAction_eq calls contents hstart
        obtain ⟨hzero, hrest⟩ := Prod.mk.inj (Except.ok.inj (heq.symm.trans hx))
        obtain ⟨-, rfl⟩ := Prod.mk.inj hrest
        by_cases hopen : calls.opendir dirname = true
        · exact (writeDir_reports_iff hopen (contents dirname)).mpr (h dirname action' hstart hopen)
            hzero
        · rw [writeDir, withDir, if_neg hopen] at hzero
          cases hzero

/-- `-w /t` with the one file `b/c`, whose upload fails. -/
theorem runActionWriteFilesInDir_hides : ¬ Reported ⟨fun _ => true, fun _ => -1⟩
    (runActionWriteFilesInDir ⟨fun _ => true, fun _ => -1⟩
      (fun _ => .entry ⟨[98], by decide⟩ .dir (.entry ⟨[99], by decide⟩ .reg .nil .nil) .nil) none
      { type := 'w', argS1 := some ⟨[47, 116], by decide⟩, argS2 := none, argI := 0,
        next := none }) := by
  intro h
  have hfails := h _ _ rfl (.writeFile ⟨[47, 116, 47, 98, 47, 99], by decide⟩) (by decide)
  cases hfails

end FileStorage.Client.WriteDir
