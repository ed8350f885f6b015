import FileStorage.Run
import Mathlib.Logic.Function.Basic

/-!
# Callers — an object behind callers that wait for their replies

A caller asks, later the object does the call in one atomic step or in several, and later still the
caller has its reply.  Meanwhile the other callers go on.  What a call does it does between the moment
it was asked and the moment its reply was there, and the replies are those of all these steps one after
the other.
-/

namespace FileStorage.Callers

variable {σ ι α ε ρ : Type}

/-! ## 1. The system -/

inductive Phase (α ε : Type) where
  | idle
  | asked (call : α) (effects : List ε)  -- with what was done for it so far

inductive Event (ι α ε ρ : Type) where
  | ask (i : ι) (call : α)
  | effect (i : ι) (call : α) (e : ε)
  | done (i : ι) (call : α) (reply : ρ)

/-- The caller of an event. -/
def Event.caller : Event ι α ε ρ → ι
  | .ask i _ | .effect i _ _ | .done i _ _ => i

structure State (σ ι α ε : Type) where
  object : σ
  phase : ι → Phase α ε

/-- One step over an object that does `step`, where `finished` says which effects a reply stands
for. -/
inductive Step [DecidableEq ι] (step : σ → ι × α × ε → σ → Prop) (finished : α → List ε → ρ → Prop)
    (s : State σ ι α ε) : Event ι α ε ρ → State σ ι α ε → Prop
  | ask {i : ι} {call : α} (h : s.phase i = .idle) :
      Step step finished s (.ask i call)
        { s with phase := Function.update s.phase i (.asked call []) }
  | effect {i : ι} {call : α} {effects : List ε} {e : ε} {object : σ}
      (h : s.phase i = .asked call effects) (hstep : step s.object (i, call, e) object) :
      Step step finished s (.effect i call e)
        ⟨object, Function.update s.phase i (.asked call (effects ++ [e]))⟩
  | done {i : ι} {call : α} {effects : List ε} {reply : ρ} (h : s.phase i = .asked call effects)
      (hfinished : finished call effects reply) :
      Step step finished s (.done i call reply)
        { s with phase := Function.update s.phase i .idle }

def start (object : σ) : State σ ι α ε := ⟨object, fun _ => .idle⟩

/-- The reply is the one effect of the call. -/
def Once (_ : α) (effects : List ρ) (reply : ρ) : Prop := effects = [reply]

/-! ## 2. Histories -/

/-- All effects in their order. -/
def effects (es : List (Event ι α ε ρ)) : List (ι × α × ε) :=
  es.filterMap fun
    | .effect i call e => some (i, call, e)
    | _ => none

theorem effects_append (es es' : List (Event ι α ε ρ)) :
    effects (es ++ es') = effects es ++ effects es' := List.filterMap_append

section

variable [DecidableEq ι]

/-- The effects of one caller. -/
def effectsBy (i : ι) (es : List (Event ι α ε ρ)) : List ε :=
  es.filterMap fun
    | .effect j _ e => if j = i then some e else none
    | _ => none

theorem effectsBy_append (i : ι) (es es' : List (Event ι α ε ρ)) :
    effectsBy i (es ++ es') = effectsBy i es ++ effectsBy i es' := List.filterMap_append

theorem effectsBy_other {i : ι} {e : Event ι α ε ρ} (he : e.caller ≠ i) : effectsBy i [e] = [] := by
  cases e with
  | ask | done => rfl
  | effect j call x => exact List.filterMap_cons_none (if_neg he)

/-- The calls of one caller with their replies. -/
def answers (i : ι) (es : List (Event ι α ε ρ)) : List (α × ρ) :=
  es.filterMap fun
    | .done j call reply => if j = i then some (call, reply) else none
    | _ => none

theorem answers_append (i : ι) (es es' : List (Event ι α ε ρ)) :
    answers i (es ++ es') = answers i es ++ answers i es' := List.filterMap_append

/-- The caller asked, and since then the call has had these effects and no reply. -/
def Pending (i : ι) (call : α) (effects : List ε) (es : List (Event ι α ε ρ)) : Prop :=
  ∃ before since, es = before ++ .ask i call :: since ∧
    (∀ e ∈ since, e.caller = i → ∃ x, e = .effect i call x) ∧ effectsBy i since = effects

/-- The effects one after the other explain all replies, in an order in which those of a call lie
between its question and its reply. -/
structure Linear (step : σ → ι × α × ε → σ → Prop) (finished : α → List ε → ρ → Prop) (object : σ)
    (es : List (Event ι α ε ρ)) (object' : σ) : Prop where
  sequential : ∃ ops, Run step object ops object' ∧ ops.map Prod.snd = effects es
  between : ∀ before i call reply after, es = before ++ .done i call reply :: after →
    ∃ effects, Pending i call effects before ∧ finished call effects reply

theorem Pending.snoc {i : ι} {call : α} {effects : List ε} {es : List (Event ι α ε ρ)}
    (h : Pending i call effects es) {e : Event ι α ε ρ} (he : e.caller ≠ i) :
    Pending i call effects (es ++ [e]) := by
  obtain ⟨before, since, rfl, hown, heffects⟩ := h
  refine ⟨before, since ++ [e], by simp, ?_, ?_⟩
  · refine List.forall_mem_append.mpr ⟨hown, List.forall_mem_singleton.mpr fun h => ?_⟩
    exact absurd h he
  · rw [effectsBy_append, effectsBy_other he, List.append_nil, heffects]

theorem Pending.effect {i : ι} {call : α} {effects : List ε} {es : List (Event ι α ε ρ)}
    (h : Pending i call effects es) (e : ε) :
    Pending i call (effects ++ [e]) (es ++ [.effect i call e]) := by
  obtain ⟨before, since, rfl, hown, heffects⟩ := h
  refine ⟨before, since ++ [.effect i call e], by simp, ?_, ?_⟩
  · exact List.forall_mem_append.mpr ⟨hown, List.forall_mem_singleton.mpr fun _ => ⟨e, rfl⟩⟩
  · rw [effectsBy_append, heffects]
    congr 1
    exact List.filterMap_cons_some (if_pos rfl)

/-- The one effect of a call with nothing else of its caller around it. -/
theorem Pending.split {i : ι} {call : α} {reply : ρ} {es : List (Event ι α ρ ρ)}
    (h : Pending i call [reply] es) : ∃ before waiting since,
      es = before ++ .ask i call :: waiting ++ .effect i call reply :: since ∧
        ∀ e ∈ waiting ++ since, e.caller ≠ i := by
  obtain ⟨before, since, rfl, hown, heffects⟩ := h
  obtain ⟨waiting, x, rest, rfl, hwaiting, hx, hrest⟩ := List.filterMap_eq_cons_iff.mp heffects
  -- whatever else is an event of the caller would be an effect
  have hquiet : ∀ e ∈ waiting ++ x :: rest, effectsBy i [e] = [] → e.caller ≠ i := by
    intro e he hnone hcaller
    obtain ⟨y, rfl⟩ := hown e he hcaller
    have hsome : effectsBy i [(.effect i call y : Event ι α ρ ρ)] = [y] :=
      List.filterMap_cons_some (if_pos rfl)
    rw [hsome] at hnone
    cases hnone
  refine ⟨before, waiting, rest, ?_, ?_⟩
  · cases x with
    | ask | done => cases hx
    | effect j call' y =>
      by_cases hj : j = i
      · subst hj
        obtain ⟨z, hz⟩ := hown _ (List.mem_append_right _ List.mem_cons_self) rfl
        cases hz
        simp only [if_true, Option.some.injEq] at hx
        subst hx
        simp
      · simp only [if_neg hj] at hx
        cases hx
  · intro e he
    rcases List.mem_append.mp he with he | he
    · exact hquiet e (List.mem_append_left _ he) (List.filterMap_cons_none (hwaiting e he))
    · refine hquiet e (List.mem_append_right _ (List.mem_cons_of_mem _ he)) ?_
      exact List.filterMap_cons_none (List.filterMap_eq_nil_iff.mp hrest e he)

/-! ## 3. Runs -/

variable {step : σ → ι × α × ε → σ → Prop} {finished : α → List ε → ρ → Prop} {object : σ}
  {tr : List (State σ ι α ε × Event ι α ε ρ)} {s s' : State σ ι α ε} {e : Event ι α ε ρ}

/-- A step moves the phase of its own caller only. -/
theorem Step.others (h : Step step finished s e s') {i : ι} (hi : e.caller ≠ i) :
    s'.phase i = s.phase i := by
  cases h with
  | ask | effect | done => exact Function.update_of_ne (Ne.symm hi) _ _

/-- The object does the effects and nothing else. -/
theorem Step.object_cases (h : Step step finished s e s') :
    (∃ i call x, e = .effect i call x ∧ step s.object (i, call, x) s'.object) ∨
      (∀ i call x, e ≠ .effect i call x) ∧ s'.object = s.object := by
  cases h with
  | ask h => exact Or.inr ⟨nofun, rfl⟩
  | effect h hstep => exact Or.inl ⟨_, _, _, rfl, hstep⟩
  | done h hfinished => exact Or.inr ⟨nofun, rfl⟩

/-- The effects of a run are a run of the object. -/
theorem effects_run {s₀ : State σ ι α ε} (run : Run (Step step finished) s₀ tr s) :
    ∃ ops, Run step s₀.object ops s.object ∧ ops.map Prod.snd = effects (tr.map Prod.snd) := by
  induction run with
  | nil => exact ⟨[], .nil, rfl⟩
  | snoc run next ih =>
    rename_i tr s s' e
    obtain ⟨ops, hops, heffects⟩ := ih
    rw [List.map_append, effects_append, ← heffects]
    cases next with
    | ask | done => exact ⟨ops, hops, (List.append_nil _).symm⟩
    | effect h hstep => exact ⟨_, .snoc hops hstep, List.map_append⟩

/-- The effects without a reply so far. -/
def Phase.open : Phase α ε → List (α × ε)
  | .idle => []
  | .asked call effects => effects.map (call, ·)

/-- A caller that was idle has had the replies that its calls had as effects. -/
theorem answers_of_run {step : σ → ι × α × ρ → σ → Prop} {s₀ s : State σ ι α ρ}
    {tr : List (State σ ι α ρ × Event ι α ρ ρ)} (run : Run (Step step Once) s₀ tr s) {i : ι}
    (hidle : s₀.phase i = .idle) :
    (effects (tr.map Prod.snd)).filter (·.1 = i) =
      (answers i (tr.map Prod.snd) ++ (s.phase i).open).map (i, ·) := by
  induction run with
  | nil =>
    rw [hidle]
    rfl
  | snoc run next ih =>
    rename_i tr s s' e
    rw [List.map_append, effects_append, List.filter_append, ih, answers_append]
    by_cases hi : e.caller = i
    · subst hi
      cases next with
      | ask h =>
        simp [Event.caller, h, effects, answers, Phase.open]
      | effect h hstep =>
        simp [Event.caller, h, effects, answers, Phase.open]
      | done h hfinished =>
        obtain rfl : _ = [_] := hfinished
        simp [Event.caller, h, effects, answers, Phase.open]
    · rw [next.others hi]
      cases next with
      | ask h => simp [effects, answers]
      | effect h hstep => simpa [effects, answers, Event.caller] using hi
      | done h hfinished => simpa [effects, answers, Event.caller] using hi

/-- What the phase of a caller says was the case. -/
theorem pending_of_run (run : Run (Step step finished) (start object) tr s) {i : ι} {call : α}
    {effects : List ε} (hphase : s.phase i = .asked call effects) :
    Pending i call effects (tr.map Prod.snd) := by
  induction run generalizing effects with
  | nil => cases hphase
  | snoc run next ih =>
    rename_i tr s s' e
    rw [List.map_append]
    by_cases hi : e.caller = i
    · subst hi
      cases next with
      | ask h =>
        simp only [Event.caller, Function.update_self] at hphase
        cases hphase
        exact ⟨_, [], rfl, nofun, rfl⟩
      | effect h hstep =>
        simp only [Event.caller, Function.update_self] at hphase ih
        cases hphase
        exact (ih h).effect _
      | done h hfinished =>
        simp only [Event.caller, Function.update_self] at hphase
        cases hphase
    · rw [next.others hi] at hphase
      exact (ih hphase).snoc hi

/-- The history of every run is linear. -/
theorem linear_of_run (run : Run (Step step finished) (start object) tr s) :
    Linear step finished object (tr.map Prod.snd) s.object := by
  refine ⟨effects_run run, ?_⟩
  -- the state before the reply knows the effects
  intro before i call reply after hes
  induction run generalizing after with
  | nil => simp at hes
  | snoc run next ih =>
    rename_i tr s s' e
    rw [List.map_append] at hes
    rcases List.eq_nil_or_concat after with rfl | ⟨after, last, rfl⟩
    · obtain ⟨rfl, hlast⟩ := List.append_inj' hes rfl
      obtain rfl := List.singleton_inj.mp hlast
      cases next with
      | done h hfinished => exact ⟨_, pending_of_run run h, hfinished⟩
    · rw [List.concat_eq_append, ← List.cons_append, ← List.append_assoc] at hes
      exact ih after (List.append_inj' hes rfl).1

end

end FileStorage.Callers
