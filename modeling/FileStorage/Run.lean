import Mathlib.Data.List.Basic

/-!
# Run — runs of a labelled transition system

A run keeps, for every step, the state before it and its label, so a theorem can put a condition
on each step.
-/

namespace FileStorage

variable {σ τ ℓ κ : Type}

/-- From `s₀` the steps `tr` lead to the state in the last place. -/
inductive Run (step : σ → ℓ → σ → Prop) (s₀ : σ) : List (σ × ℓ) → σ → Prop
  | nil : Run step s₀ [] s₀
  | snoc {tr : List (σ × ℓ)} {s s' : σ} {l : ℓ} (run : Run step s₀ tr s) (next : step s l s') :
      Run step s₀ (tr ++ [(s, l)]) s'

/-- The states of a run: before each step, and the last one. -/
def statesOf (tr : List (σ × ℓ)) (s : σ) : List σ := tr.map Prod.fst ++ [s]

/-- Running a step function over a list of labels. -/
def replay (next : σ → ℓ → Option σ) (s : σ) : List ℓ → Option (List (σ × ℓ) × σ)
  | [] => some ([], s)
  | l :: ls => do
      let s' ← next s l
      let (tr, last) ← replay next s' ls
      return ((s, l) :: tr, last)

namespace Run

variable {step : σ → ℓ → σ → Prop} {s₀ s : σ} {tr : List (σ × ℓ)}

theorem cons {s₁ : σ} {l : ℓ} (first : step s₀ l s₁) (run : Run step s₁ tr s) :
    Run step s₀ ((s₀, l) :: tr) s := by
  induction run with
  | nil => exact .snoc .nil first
  | snoc run next ih => exact .snoc ih next

theorem of_replay {next : σ → ℓ → Option σ} (hnext : ∀ s l s', next s l = some s' → step s l s')
    {ls : List ℓ} (hx : replay next s₀ ls = some (tr, s)) : Run step s₀ tr s := by
  induction ls generalizing s₀ tr with
  | nil =>
    obtain ⟨rfl, rfl⟩ : [] = tr ∧ s₀ = s := by simpa [replay] using hx
    exact .nil
  | cons l ls ih =>
    obtain ⟨s', hs', hx⟩ := Option.bind_eq_some_iff.mp hx
    obtain ⟨⟨tr', last⟩, hrest, hx⟩ := Option.bind_eq_some_iff.mp hx
    obtain ⟨rfl, rfl⟩ : (s₀, l) :: tr' = tr ∧ last = s := by simpa using hx
    exact cons (hnext _ _ _ hs') (ih hrest)

/-- Every state of a run ends a run of its own. -/
theorem to_state (run : Run step s₀ tr s) : ∀ s' ∈ statesOf tr s, ∃ tr', Run step s₀ tr' s' ∧
    tr' <+: tr := by
  induction run with
  | nil =>
    intro s' hs'
    obtain rfl : s' = s₀ := by simpa [statesOf] using hs'
    exact ⟨[], .nil, List.prefix_rfl⟩
  | snoc run next ih =>
    rename_i tr s s'' l
    intro s' hs'
    have hcases : s' ∈ statesOf tr s ∨ s' = s'' := by
      simpa [statesOf, or_assoc] using hs'
    rcases hcases with hmem | rfl
    · obtain ⟨tr', run', hpre⟩ := ih s' hmem
      exact ⟨tr', run', hpre.trans (List.prefix_append _ _)⟩
    · exact ⟨_, .snoc run next, List.prefix_rfl⟩

/-- Every step of a run leads to a state of the run. -/
theorem next_mem (run : Run step s₀ tr s) : ∀ x ∈ tr, ∃ s' ∈ statesOf tr s, step x.1 x.2 s' := by
  induction run with
  | nil => intro x hx; cases hx
  | snoc run next ih =>
    rename_i tr s s'' l
    intro x hx
    rcases List.mem_append.mp hx with hx | hx
    · obtain ⟨s', hmem, hstep⟩ := ih x hx
      refine ⟨s', ?_, hstep⟩
      simp only [statesOf, List.map_append, List.mem_append] at hmem ⊢
      exact Or.inl (by simpa using hmem)
    · obtain rfl := List.mem_singleton.mp hx
      exact ⟨s'', by simp [statesOf], next⟩

/-- What holds at the start and survives every step that meets `ok` holds at the end of a run
whose steps all meet it. -/
theorem invariant (run : Run step s₀ tr s) (inv : σ → Prop) (ok : σ → ℓ → Prop) (h₀ : inv s₀)
    (hstep : ∀ s l s', inv s → ok s l → step s l s' → inv s') (hok : ∀ x ∈ tr, ok x.1 x.2) :
    inv s := by
  induction run with
  | nil => exact h₀
  | snoc run next ih =>
    have hinv := ih fun x hx => hok x (List.mem_append_left _ hx)
    exact hstep _ _ _ hinv (hok _ (List.mem_append_right _ (List.mem_singleton.mpr rfl))) next

/-- A measure that no step raises and that every step which counts lowers bounds their number. -/
theorem measured (run : Run step s₀ tr s) (inv : σ → Prop) (μ : σ → Nat) (counts : ℓ → Bool)
    (h₀ : inv s₀)
    (hstep : ∀ s l s', inv s → step s l s' →
      inv s' ∧ μ s' + (if counts l = true then 1 else 0) ≤ μ s) :
    inv s ∧ tr.countP (fun x => counts x.2) + μ s ≤ μ s₀ := by
  induction run with
  | nil => exact ⟨h₀, by simp⟩
  | snoc run next ih =>
    obtain ⟨hinv, hbound⟩ := ih
    obtain ⟨hinv', hlower⟩ := hstep _ _ _ hinv next
    simp only [List.countP_append, List.countP_singleton]
    exact ⟨hinv', by omega⟩

/-- The same for every state of the run. -/
theorem invariant_states (run : Run step s₀ tr s) (inv : σ → Prop) (ok : σ → ℓ → Prop)
    (h₀ : inv s₀) (hstep : ∀ s l s', inv s → ok s l → step s l s' → inv s')
    (hok : ∀ x ∈ tr, ok x.1 x.2) : ∀ s' ∈ statesOf tr s, inv s' := by
  intro s' hs'
  obtain ⟨tr', run', hpre⟩ := run.to_state s' hs'
  exact run'.invariant inv ok h₀ hstep fun x hx => hok x (hpre.subset hx)

/-- Where a step keeps what is `good` exactly when it meets `ok`, all states of a run are good
exactly when all its steps meet `ok`. -/
theorem good_iff (run : Run step s₀ tr s) (inv good : σ → Prop) (ok : σ → ℓ → Prop) (h₀ : inv s₀)
    (hgood : good s₀) (hinv : ∀ s l s', inv s → step s l s' → inv s')
    (hstep : ∀ s l s', inv s → good s → step s l s' → (good s' ↔ ok s l)) :
    (∀ s' ∈ statesOf tr s, good s') ↔ ∀ x ∈ tr, ok x.1 x.2 := by
  have hall : inv s ∧ ((∀ s' ∈ statesOf tr s, good s') ↔ ∀ x ∈ tr, ok x.1 x.2) := by
    induction run with
    | nil => simpa [statesOf] using ⟨h₀, hgood⟩
    | snoc run next ih =>
      rename_i tr s s' l
      refine ⟨hinv _ _ _ ih.1 next, ?_⟩
      have hstates : statesOf (tr ++ [(s, l)]) s' = statesOf tr s ++ [s'] := by simp [statesOf]
      simp only [hstates, List.forall_mem_append, List.forall_mem_singleton, ih.2]
      refine and_congr_right fun hok => ?_
      exact hstep _ _ _ ih.1 (ih.2.mpr hok s (by simp [statesOf])) next
  exact hall.2

/-- The steps before one of the steps of a run are a run. -/
theorem split {s' : σ} {l : ℓ} {before after : List (σ × ℓ)}
    (run : Run step s₀ (before ++ (s', l) :: after) s) :
    Run step s₀ before s' ∧ ∃ s'', step s' l s'' := by
  generalize htr : before ++ (s', l) :: after = tr at run
  induction run generalizing after with
  | nil => simp at htr
  | snoc run next ih =>
    rcases List.eq_nil_or_concat after with rfl | ⟨after, last, rfl⟩
    · obtain ⟨rfl, hlast⟩ := List.append_inj' htr rfl
      cases hlast
      exact ⟨run, _, next⟩
    · rw [List.concat_eq_append, ← List.cons_append, ← List.append_assoc] at htr
      exact ih (List.append_inj' htr rfl).1

theorem append_iff {tr₁ tr₂ : List (σ × ℓ)} :
    Run step s₀ (tr₁ ++ tr₂) s ↔ ∃ s₁, Run step s₀ tr₁ s₁ ∧ Run step s₁ tr₂ s := by
  constructor
  · intro run
    generalize htr : tr₁ ++ tr₂ = tr at run
    induction run generalizing tr₂ with
    | nil =>
      obtain ⟨rfl, rfl⟩ := List.append_eq_nil_iff.mp htr
      exact ⟨s₀, .nil, .nil⟩
    | snoc run next ih =>
      rcases List.eq_nil_or_concat tr₂ with rfl | ⟨front, last, rfl⟩
      · rw [List.append_nil] at htr
        subst htr
        exact ⟨_, .snoc run next, .nil⟩
      · rw [List.concat_eq_append, ← List.append_assoc] at htr
        obtain ⟨hfront, hlast⟩ := List.append_inj' htr rfl
        obtain ⟨s₁, run₁, run₂⟩ := ih hfront
        obtain rfl := List.singleton_inj.mp hlast
        rw [List.concat_eq_append]
        exact ⟨s₁, run₁, .snoc run₂ next⟩
  · intro h
    obtain ⟨s₁, run₁, run₂⟩ := h
    induction run₂ with
    | nil => rwa [List.append_nil]
    | snoc _ next ih =>
      rw [← List.append_assoc]
      exact .snoc ih next

theorem nil_iff : Run step s₀ [] s ↔ s = s₀ := by
  constructor
  · intro run
    generalize htr : [] = tr at run
    cases run with
    | nil => rfl
    | snoc run next => simp at htr
  · intro h
    rw [h]
    exact .nil

theorem cons_iff {x : σ × ℓ} :
    Run step s₀ (x :: tr) s ↔ x.1 = s₀ ∧ ∃ s₁, step s₀ x.2 s₁ ∧ Run step s₁ tr s := by
  constructor
  · intro run
    obtain ⟨s₁, run₁, run₂⟩ := append_iff.mp (show Run step s₀ ([x] ++ tr) s from run)
    generalize htr : [x] = front at run₁
    cases run₁ with
    | nil => cases htr
    | snoc run₀ next =>
      obtain ⟨rfl, hlast⟩ := List.append_inj' (show [] ++ [x] = _ from htr) rfl
      obtain rfl := nil_iff.mp run₀
      obtain rfl := List.singleton_inj.mp hlast
      exact ⟨rfl, s₁, next, run₂⟩
  · intro h
    obtain ⟨hfirst, s₁, hnext, run⟩ := h
    have hx : x = (s₀, x.2) := Prod.ext hfirst rfl
    rw [hx]
    exact cons hnext run

/-- A refinement mapping: seen through `f`, every step is the step that `g` says, or none. -/
theorem refines (run : Run step s₀ tr s) {step' : τ → κ → τ → Prop} (f : σ → τ)
    (g : σ × ℓ → Option κ) (inv : σ → Prop) (ok : σ → ℓ → Prop) (h₀ : inv s₀)
    (hinv : ∀ s l s', inv s → ok s l → step s l s' → inv s')
    (hstep : ∀ s l s', inv s → ok s l → step s l s' →
      match g (s, l) with
      | none => f s' = f s
      | some e => step' (f s) e (f s'))
    (hok : ∀ x ∈ tr, ok x.1 x.2) :
    Run step' (f s₀) (tr.filterMap fun x => (g x).map fun e => (f x.1, e)) (f s) := by
  induction run with
  | nil => exact .nil
  | snoc run next ih =>
    rename_i tr s s' l
    have hbefore : ∀ x ∈ tr, ok x.1 x.2 := fun x hx => hok x (List.mem_append_left _ hx)
    have hlast := hok (s, l) (List.mem_append_right _ (List.mem_singleton.mpr rfl))
    have hseen := hstep s l s' (run.invariant inv ok h₀ hinv hbefore) hlast next
    rw [List.filterMap_append]
    cases hg : g (s, l) with
    | none =>
      rw [hg] at hseen
      simp only at hseen
      rw [hseen, List.filterMap_cons_none (by rw [hg]; rfl), List.filterMap_nil, List.append_nil]
      exact ih hbefore
    | some e =>
      rw [hg] at hseen
      rw [List.filterMap_cons_some (by rw [hg]; rfl), List.filterMap_nil]
      exact .snoc (ih hbefore) hseen

end Run

end FileStorage
