import FileStorage.Callers
import FileStorage.Programs

/-!
# Interference — calls on a state that other threads change meanwhile

Threads serve calls with code that takes mutexes.  What a thread knows of the shared state is what the
others leave alone while it holds its mutexes.  Code that, knowing this, does nothing to an abstract
object or one effect of its call with every step, and leaves alone what others may know, is linear
however the threads interleave.
-/

namespace FileStorage

/-! ## 1. Threads that serve calls -/

/-- The threads `ι` with the code that is left of the call that each is serving. -/
structure Service (ι G σ κ ρ : Type) where
  shared : σ
  owner : G → Option ι
  code : ι → Option (κ × Program G σ ρ)

namespace Service

variable {ι G σ κ ρ : Type} [DecidableEq ι] [DecidableEq G]

/-- What is seen of a step from outside. -/
inductive Label (ι κ ρ : Type) where
  | ask (i : ι) (call : κ)
  | done (i : ι) (call : κ) (reply : ρ)

def setCode (s : Service ι G σ κ ρ) (i : ι) (code : Option (κ × Program G σ ρ)) :
    Service ι G σ κ ρ :=
  { s with code := Function.update s.code i code }

def setOwner (s : Service ι G σ κ ρ) (g : G) (o : Option ι) : Service ι G σ κ ρ :=
  { s with owner := Function.update s.owner g o }

/-- A thread takes a step.  Code that stops, as at a failed assertion, takes none. -/
inductive Step (body : κ → Program G σ ρ) (s : Service ι G σ κ ρ) :
    Option (Label ι κ ρ) → Service ι G σ κ ρ → Prop
  | ask {i : ι} {call : κ} (hidle : s.code i = none) :
      Step body s (some (.ask i call)) (s.setCode i (some (call, body call)))
  | lock {i : ι} {call : κ} {g : G} {rest : Program G σ ρ}
      (hcode : s.code i = some (call, .lock g rest)) (hfree : s.owner g = none) :
      Step body s none ((s.setOwner g (some i)).setCode i (some (call, rest)))
  | unlock {i : ι} {call : κ} {g : G} {rest : Program G σ ρ}
      (hcode : s.code i = some (call, .unlock g rest)) :
      Step body s none ((s.setOwner g none).setCode i (some (call, rest)))
  | act {i : ι} {call : κ} {β : Type} {f : σ → Exec (β × σ)} {rest : β → Program G σ ρ} {b : β}
      {shared : σ} (hcode : s.code i = some (call, .act f rest))
      (hf : f s.shared = .ok (b, shared)) :
      Step body s none ({ s with shared }.setCode i (some (call, rest b)))
  | loop {i : ι} {call : κ} {β γ : Type} {round : β → Program G σ (β ⊕ γ)} {b : β}
      {rest : γ → Program G σ ρ} (hcode : s.code i = some (call, .loop round b rest)) :
      Step body s none (s.setCode i (some (call, .unroll round b rest)))
  | done {i : ι} {call : κ} {reply : ρ} (hcode : s.code i = some (call, .pure reply)) :
      Step body s (some (.done i call reply)) (s.setCode i none)

/-- In some order of the steps of all threads the calls and replies `seen` lead to `s`. -/
inductive Runs (body : κ → Program G σ ρ) (s₀ : Service ι G σ κ ρ) :
    List (Label ι κ ρ) → Service ι G σ κ ρ → Prop
  | nil : Runs body s₀ [] s₀
  | snoc {seen : List (Label ι κ ρ)} {s s' : Service ι G σ κ ρ} {label : Option (Label ι κ ρ)}
      (run : Runs body s₀ seen s) (next : Step body s label s') :
      Runs body s₀ (seen ++ label.toList) s'

/-- All threads are idle. -/
def start (shared : σ) : Service ι G σ κ ρ := ⟨shared, fun _ => none, fun _ => none⟩

/-- Whose turn it is. -/
inductive Turn (ι κ : Type) where
  | ask (i : ι) (call : κ)
  | go (i : ι)

/-- The step of a turn, if it can be taken. -/
def next (body : κ → Program G σ ρ) (s : Service ι G σ κ ρ) :
    Turn ι κ → Option (Option (Label ι κ ρ) × Service ι G σ κ ρ)
  | .ask i call =>
      match s.code i with
      | none => some (some (.ask i call), s.setCode i (some (call, body call)))
      | some _ => none
  | .go i =>
      match s.code i with
      | none => none
      | some (call, .pure reply) => some (some (.done i call reply), s.setCode i none)
      | some (call, .lock g rest) =>
          match s.owner g with
          | none => some (none, (s.setOwner g (some i)).setCode i (some (call, rest)))
          | some _ => none
      | some (call, .unlock g rest) =>
          some (none, (s.setOwner g none).setCode i (some (call, rest)))
      | some (call, .act f rest) =>
          match f s.shared with
          | .ok (b, shared) => some (none, { s with shared }.setCode i (some (call, rest b)))
          | .error _ => none
      | some (call, .loop round b rest) =>
          some (none, s.setCode i (some (call, .unroll round b rest)))

/-- The turns one after the other, with what is seen of them. -/
def play (body : κ → Program G σ ρ) (s : Service ι G σ κ ρ) :
    List (Turn ι κ) → Option (List (Label ι κ ρ) × Service ι G σ κ ρ)
  | [] => some ([], s)
  | turn :: turns => do
      let (label, s) ← s.next body turn
      let (seen, s) ← play body s turns
      return (label.toList ++ seen, s)

theorem step_of_next {body : κ → Program G σ ρ} {s s' : Service ι G σ κ ρ} {turn : Turn ι κ}
    {label : Option (Label ι κ ρ)} (h : s.next body turn = some (label, s')) :
    Step body s label s' := by
  unfold next at h
  split at h
  · split at h
    · cases h
      exact .ask ‹_›
    · cases h
  · split at h
    · cases h
    · cases h
      exact .done ‹_›
    · split at h
      · cases h
        exact .lock ‹_› ‹_›
      · cases h
    · cases h
      exact .unlock ‹_›
    · split at h
      · cases h
        exact .act ‹_› ‹_›
      · cases h
    · cases h
      exact .loop ‹_›

theorem runs_of_play {body : κ → Program G σ ρ} {s₀ s s' : Service ι G σ κ ρ}
    {seen seen' : List (Label ι κ ρ)} {turns : List (Turn ι κ)} (run : Runs body s₀ seen s)
    (h : s.play body turns = some (seen', s')) : Runs body s₀ (seen ++ seen') s' := by
  induction turns generalizing s seen seen' with
  | nil =>
    cases h
    rwa [List.append_nil]
  | cons turn turns ih =>
    obtain ⟨⟨label, s₁⟩, hnext, h⟩ := Option.bind_eq_some_iff.mp h
    obtain ⟨⟨seen₁, s₂⟩, hplay, h⟩ := Option.bind_eq_some_iff.mp h
    cases h
    rw [← List.append_assoc]
    exact ih (.snoc run (step_of_next hnext)) hplay

/-- A passed test is about a real run. -/
theorem runs_of_test (body : κ → Program G σ ρ) (shared : σ) (turns : List (Turn ι κ))
    (test : List (Label ι κ ρ) → Service ι G σ κ ρ → Bool)
    (h : ((start shared).play body turns).any (fun r => test r.1 r.2) = true) :
    ∃ seen s, Runs body (start shared) seen s ∧ test seen s = true := by
  obtain ⟨⟨seen, s⟩, hplay, htest⟩ := (Option.any_eq_true _ _).mp h
  exact ⟨seen, s, runs_of_play .nil hplay, htest⟩

end Service

/-- What is seen of an event of a caller. -/
def Callers.Event.label {ι κ ε ρ : Type} : Callers.Event ι κ ε ρ → Option (Service.Label ι κ ρ)
  | .ask i call => some (.ask i call)
  | .effect _ _ _ => none
  | .done i call reply => some (.done i call reply)

/-! ## 2. What threads know -/

/-- How the threads share the state `σ`.  A thread may have something in `Λ` to itself. -/
structure Discipline (G Λ σ : Type) where
  inv : σ → Prop
  /-- Nothing to itself. -/
  none : Λ
  /-- Two threads may have these to themselves. -/
  apart : σ → Λ → Λ → Prop
  /-- What the others may do to the state while a thread holds some mutexes. -/
  others : List G → Λ → σ → σ → Prop
  apart_symm : ∀ {s own own'}, apart s own own' → apart s own' own
  apart_none : ∀ {s}, inv s → apart s none none
  apart_others : ∀ {s s' held held' own own'}, apart s own own' → others held own s s' →
    others held' own' s s' → apart s' own own'
  others_refl : ∀ held own s, others held own s s
  others_mono : ∀ {g held own s s'}, others (g :: held) own s s' → others held own s s'

/-- An abstract object, how a call changes it, and which effects a reply stands for. -/
structure Object (σ τ κ ε ρ : Type) where
  see : σ → τ
  step : τ → κ × ε → τ → Prop
  finished : κ → List ε → ρ → Prop

/-- Where a thread stands in its call. -/
structure Standing (G Λ ε σ : Type) where
  held : List G
  own : Λ
  effects : List ε
  knows : σ → Prop

section

variable {G Λ σ τ κ ε ρ : Type} [DecidableEq G]

/-- What the others do does not touch what the thread knows. -/
def Discipline.Stable (D : Discipline G Λ σ) (held : List G) (own : Λ) (knows : σ → Prop) : Prop :=
  ∀ s s', D.inv s → D.inv s' → D.others held own s s' → knows s → knows s'

def Discipline.entering (D : Discipline G Λ σ) : Standing G Λ ε σ := ⟨[], D.none, [], fun _ => True⟩

/-- The step from `s` to `s'` leaves alone what others may know, and is an effect of the call or
none. -/
structure Standing.Moves (D : Discipline G Λ σ) (O : Object σ τ κ ε ρ) (call : κ)
    (here : Standing G Λ ε σ) (s : σ) (next : Standing G Λ ε σ) (s' : σ) : Prop where
  inv : D.inv s'
  held : next.held = here.held
  spares : ∀ held own, (∀ g ∈ held, g ∉ here.held) → D.apart s here.own own →
    D.apart s' next.own own ∧ D.others held own s s'
  knows : next.knows s'
  stable : D.Stable next.held next.own next.knows
  effect : (next.effects = here.effects ∧ O.see s' = O.see s) ∨
    ∃ e, next.effects = here.effects ++ [e] ∧ O.step (O.see s) (call, e) (O.see s')

namespace Program

/-- From `here` the code does its call and stands at `post` when it returns. -/
def Complies (D : Discipline G Λ σ) (O : Object σ τ κ ε ρ) (call : κ) {α : Type}
    (here : Standing G Λ ε σ) (x : Program G σ α) (post : α → Standing G Λ ε σ → Prop) : Prop :=
  match x with
  | .pure a => post a here
  | .lock g rest => rest.Complies D O call { here with held := g :: here.held } post
  | .unlock g rest => g ∈ here.held ∧ ∃ knows, (∀ s, D.inv s → here.knows s → knows s) ∧
      D.Stable (here.held.erase g) here.own knows ∧
        rest.Complies D O call { here with held := here.held.erase g, knows } post
  | .act f rest => ∀ s b s', D.inv s → here.knows s → f s = .ok (b, s') → ∃ next,
      here.Moves D O call s next s' ∧ (rest b).Complies D O call next post
  | .loop (β := β) (γ := γ) body b rest => ∃ (again : β → Standing G Λ ε σ → Prop)
      (mid : γ → Standing G Λ ε σ → Prop), again b here ∧
        (∀ b here, again b here → (body b).Complies D O call here (Sum.elim again mid)) ∧
        ∀ c here, mid c here → (rest c).Complies D O call here post

namespace Complies

variable {D : Discipline G Λ σ} {O : Object σ τ κ ε ρ} {call : κ} {α β γ : Type}
  {here : Standing G Λ ε σ} {post : α → Standing G Λ ε σ → Prop} {g : G}

theorem bind {α β : Type} {here : Standing G Λ ε σ} {post : α → Standing G Λ ε σ → Prop}
    {x : Program G σ β} {mid : β → Standing G Λ ε σ → Prop} {f : β → Program G σ α}
    (hx : x.Complies D O call here mid)
    (hf : ∀ b here, mid b here → (f b).Complies D O call here post) :
    (x >>= f).Complies D O call here post := by
  show (x.bind f).Complies D O call here post
  induction x generalizing here with
  | pure a => exact hf a here hx
  | lock g rest ih => exact ih hx hf
  | unlock g rest ih =>
    obtain ⟨hmem, knows, hknows, hstable, hrest⟩ := hx
    exact ⟨hmem, knows, hknows, hstable, ih hrest hf⟩
  | act h rest ih =>
    intro s b s' hs hknows hh
    obtain ⟨next, hmoves, hrest⟩ := hx s b s' hs hknows hh
    exact ⟨next, hmoves, ih b hrest hf⟩
  | loop body b rest _ ih =>
    obtain ⟨again, mid', hfirst, hbody, hrest⟩ := hx
    exact ⟨again, mid', hfirst, hbody, fun c here hc => ih c (hrest c here hc) hf⟩

theorem weaken {x : Program G σ α} {post' : α → Standing G Λ ε σ → Prop}
    (hx : x.Complies D O call here post) (h : ∀ a here, post a here → post' a here) :
    x.Complies D O call here post' := by
  induction x generalizing here with
  | pure a => exact h a here hx
  | lock g rest ih => exact ih hx h
  | unlock g rest ih =>
    obtain ⟨hmem, knows, hknows, hstable, hrest⟩ := hx
    exact ⟨hmem, knows, hknows, hstable, ih hrest h⟩
  | act f rest ih =>
    intro s b s' hs hknows hh
    obtain ⟨next, hmoves, hrest⟩ := hx s b s' hs hknows hh
    exact ⟨next, hmoves, ih b hrest h⟩
  | loop body b rest _ ih =>
    obtain ⟨again, mid, hfirst, hbody, hrest⟩ := hx
    exact ⟨again, mid, hfirst, hbody, fun c here hc => ih c (hrest c here hc) h⟩

theorem lock {f : Unit → Program G σ α}
    (hf : (f ()).Complies D O call { here with held := g :: here.held } post) :
    (mutexLock g >>= f).Complies D O call here post := hf

/-- The mutex that was taken last is released, and something is still known. -/
theorem unlock {f : Unit → Program G σ α} {held : List G} (hheld : here.held = g :: held)
    (knows : σ → Prop) (hknows : ∀ s, D.inv s → here.knows s → knows s)
    (hstable : D.Stable held here.own knows)
    (hf : (f ()).Complies D O call { here with held, knows } post) :
    (mutexUnlock g >>= f).Complies D O call here post := by
  have herase : here.held.erase g = held := by rw [hheld, List.erase_cons_head]
  refine ⟨hheld ▸ List.mem_cons_self, knows, hknows, ?_, ?_⟩
  · rwa [herase]
  · rw [herase]
    exact hf

theorem access {h : σ → Exec (β × σ)} {f : β → Program G σ α}
    (hf : ∀ s b s', D.inv s → here.knows s → h s = .ok (b, s') → ∃ next,
      here.Moves D O call s next s' ∧ (f b).Complies D O call next post) :
    (access h >>= f).Complies D O call here post := hf

theorem stop (e : Stop) : (stop e : Program G σ α).Complies D O call here post :=
  fun _ b _ _ _ _ => b.elim

theorem ite {c : Prop} [Decidable c] {x y : Program G σ α}
    (hx : c → x.Complies D O call here post) (hy : ¬c → y.Complies D O call here post) :
    (if c then x else y).Complies D O call here post := by
  split
  · exact hx ‹_›
  · exact hy ‹_›

theorem repeatLoop {body : β → Program G σ (β ⊕ α)} {b : β}
    (again : β → Standing G Λ ε σ → Prop) (hfirst : again b here)
    (hbody : ∀ b here, again b here → (body b).Complies D O call here (Sum.elim again post)) :
    (repeatLoop body b).Complies D O call here post :=
  ⟨again, post, hfirst, hbody, fun _ _ h => h⟩

/-- One more round. -/
theorem unroll {body : β → Program G σ (β ⊕ γ)} {b : β} {rest : γ → Program G σ α}
    (h : (Program.loop body b rest).Complies D O call here post) :
    (unroll body b rest).Complies D O call here post := by
  obtain ⟨again, mid, hfirst, hbody, hrest⟩ := h
  refine bind (hbody b here hfirst) ?_
  rintro (b' | c) here hhere
  · exact ⟨again, mid, hhere, hbody, hrest⟩
  · exact hrest c here hhere

end Complies

end Program

/-! ## 3. Every order of the steps -/

/-- How the code of a call has to end. -/
def Object.returns (O : Object σ τ κ ε ρ) (D : Discipline G Λ σ) (call : κ) (reply : ρ)
    (here : Standing G Λ ε σ) : Prop :=
  here.held = [] ∧ here.own = D.none ∧ O.finished call here.effects reply

namespace Service

variable {ι : Type} [DecidableEq ι] {D : Discipline G Λ σ} {O : Object σ τ κ ε ρ}
  {s s' : Service ι G σ κ ρ} {body : κ → Program G σ ρ}

/-- The code that is left of a call fits what was done for it. -/
def Serving (D : Discipline G Λ σ) (O : Object σ τ κ ε ρ) (phase : Callers.Phase κ ε)
    (here : Standing G Λ ε σ) : Option (κ × Program G σ ρ) → Prop
  | none => phase = .idle ∧ here.held = [] ∧ here.own = D.none
  | some (call, x) => phase = .asked call here.effects ∧
      x.Complies D O call here (O.returns D call)

/-- The threads, each where `stand` says, are callers of the object. -/
structure Sound (D : Discipline G Λ σ) (O : Object σ τ κ ε ρ) (s : Service ι G σ κ ρ)
    (callers : Callers.State τ ι κ ε) (stand : ι → Standing G Λ ε σ) : Prop where
  inv : D.inv s.shared
  object : callers.object = O.see s.shared
  owners : ∀ g i, s.owner g = some i ↔ g ∈ (stand i).held
  nodup : ∀ i, (stand i).held.Nodup
  apart : ∀ i j, i ≠ j → D.apart s.shared (stand i).own (stand j).own
  knows : ∀ i, (stand i).knows s.shared
  stable : ∀ i, D.Stable (stand i).held (stand i).own (stand i).knows
  serving : ∀ i, Serving D O (callers.phase i) (stand i) (s.code i)

namespace Sound

variable {callers : Callers.State τ ι κ ε} {stand : ι → Standing G Λ ε σ}

omit [DecidableEq ι] in
/-- No two threads hold one mutex. -/
theorem notMem_held (h : Sound D O s callers stand) {i j : ι} (hij : j ≠ i) :
    ∀ g ∈ (stand j).held, g ∉ (stand i).held := by
  intro g hj hi
  have hsame : some j = some i := ((h.owners g j).mpr hj).symm.trans ((h.owners g i).mpr hi)
  exact hij (Option.some.inj hsame)

/-- Thread `i` moves on, and the others stay where they are. -/
theorem move (h : Sound D O s callers stand) {i : ι} {here : Standing G Λ ε σ}
    {phase : Callers.Phase κ ε} {code : Option (κ × Program G σ ρ)} {shared : σ}
    {owner : G → Option ι} (hinv : D.inv shared)
    (howners : ∀ g j, owner g = some j ↔ g ∈ (Function.update stand i here j).held)
    (hnodup : here.held.Nodup)
    (hspares : ∀ j, j ≠ i → D.apart shared here.own (stand j).own ∧
      D.others (stand j).held (stand j).own s.shared shared)
    (hknows : here.knows shared) (hstable : D.Stable here.held here.own here.knows)
    (hserving : Serving D O phase here code) :
    Sound D O ⟨shared, owner, Function.update s.code i code⟩
      ⟨O.see shared, Function.update callers.phase i phase⟩ (Function.update stand i here) := by
  refine ⟨hinv, rfl, howners, fun j => ?_, fun j k hjk => ?_, fun j => ?_, fun j => ?_, fun j => ?_⟩
  · by_cases hj : j = i
    · rwa [hj, Function.update_self]
    · rw [Function.update_of_ne hj]
      exact h.nodup j
  · by_cases hj : j = i
    · subst hj
      rw [Function.update_self, Function.update_of_ne (Ne.symm hjk)]
      exact (hspares k (Ne.symm hjk)).1
    · rw [Function.update_of_ne hj]
      by_cases hk : k = i
      · subst hk
        rw [Function.update_self]
        exact D.apart_symm (hspares j hj).1
      · rw [Function.update_of_ne hk]
        exact D.apart_others (h.apart j k hjk) (hspares j hj).2 (hspares k hk).2
  · by_cases hj : j = i
    · rwa [hj, Function.update_self]
    · rw [Function.update_of_ne hj]
      exact h.stable j s.shared shared h.inv hinv (hspares j hj).2 (h.knows j)
  · by_cases hj : j = i
    · rwa [hj, Function.update_self]
    · rw [Function.update_of_ne hj]
      exact h.stable j
  · show Serving D O (Function.update callers.phase i phase j) _ (Function.update s.code i code j)
    by_cases hj : j = i
    · rwa [hj, Function.update_self, Function.update_self, Function.update_self]
    · rw [Function.update_of_ne hj, Function.update_of_ne hj, Function.update_of_ne hj]
      exact h.serving j

/-- The same where the thread leaves the state, its mutexes and what it has to itself. -/
theorem stay (h : Sound D O s callers stand) {i : ι} {here : Standing G Λ ε σ}
    {phase : Callers.Phase κ ε} {code : Option (κ × Program G σ ρ)}
    (hheld : here.held = (stand i).held) (hown : here.own = (stand i).own)
    (hknows : here.knows s.shared) (hstable : D.Stable here.held here.own here.knows)
    (hserving : Serving D O phase here code) :
    Sound D O (s.setCode i code) ⟨callers.object, Function.update callers.phase i phase⟩
      (Function.update stand i here) := by
  rw [h.object]
  refine h.move h.inv (fun g j => ?_) (hheld ▸ h.nodup i) (fun j hj => ?_) hknows hstable hserving
  · rw [h.owners g j]
    by_cases hj : j = i
    · rw [hj, Function.update_self, hheld]
    · rw [Function.update_of_ne hj]
  · rw [hown]
    exact ⟨h.apart i j (Ne.symm hj), D.others_refl _ _ _⟩

/-- The thread takes a mutex or releases one. -/
theorem changeOwner (h : Sound D O s callers stand) {i : ι} {here : Standing G Λ ε σ}
    {phase : Callers.Phase κ ε} {code : Option (κ × Program G σ ρ)} {g : G} {o : Option ι}
    (howner : ∀ j, o = some j ↔ j = i ∧ g ∈ here.held) (hothers : ∀ j, j ≠ i → g ∉ (stand j).held)
    (hsame : ∀ g', g' ≠ g → (g' ∈ here.held ↔ g' ∈ (stand i).held)) (hnodup : here.held.Nodup)
    (hown : here.own = (stand i).own) (hknows : here.knows s.shared)
    (hstable : D.Stable here.held here.own here.knows) (hserving : Serving D O phase here code) :
    Sound D O ((s.setOwner g o).setCode i code)
      ⟨callers.object, Function.update callers.phase i phase⟩ (Function.update stand i here) := by
  rw [h.object]
  refine h.move h.inv (fun g' j => ?_) hnodup (fun j hj => ?_) hknows hstable hserving
  · show Function.update s.owner g o g' = some j ↔ _
    by_cases hg : g' = g
    · subst hg
      rw [Function.update_self, howner j]
      by_cases hj : j = i
      · subst hj
        simp
      · simp [hj, hothers j hj]
    · rw [Function.update_of_ne hg, h.owners g' j]
      by_cases hj : j = i
      · subst hj
        rw [Function.update_self]
        exact (hsame g' hg).symm
      · rw [Function.update_of_ne hj]
  · rw [hown]
    exact ⟨h.apart i j (Ne.symm hj), D.others_refl _ _ _⟩

/-- Every step is one of a caller, or none. -/
theorem step (hbody : ∀ call, (body call).Complies D O call D.entering (O.returns D call))
    (h : Sound D O s callers stand) {label : Option (Label ι κ ρ)} (hstep : Step body s label s') :
    ∃ (event : Option (Callers.Event ι κ ε ρ)) (callers' : Callers.State τ ι κ ε)
      (stand' : ι → Standing G Λ ε σ), event.bind Callers.Event.label = label ∧
        (event.elim (callers' = callers) fun e =>
          Callers.Step (fun o x o' => O.step o x.2 o') O.finished callers e callers') ∧
        Sound D O s' callers' stand' := by
  -- a step that the callers do not see
  have hunseen : ∀ (i : ι) (call : κ) (x y : Program G σ ρ) (here : Standing G Λ ε σ)
      (s' : Service ι G σ κ ρ), s.code i = some (call, x) → here.effects = (stand i).effects →
        (callers.phase i = .asked call here.effects → Sound D O s'
          ⟨callers.object, Function.update callers.phase i (.asked call here.effects)⟩
          (Function.update stand i here)) →
            Sound D O s' callers (Function.update stand i here) := by
    intro i call x y here s' hcode heffects hsound
    have hserving := h.serving i
    rw [hcode] at hserving
    have hphase : callers.phase i = .asked call here.effects := by
      rw [heffects]
      exact hserving.1
    have hthere := hsound hphase
    rwa [← hphase, Function.update_eq_self] at hthere
  cases hstep with
  | @ask i call hidle =>
    have hserving := h.serving i
    rw [hidle] at hserving
    obtain ⟨hphase, hheld, hown⟩ := hserving
    refine ⟨some (.ask i call), _, Function.update stand i D.entering, rfl, .ask hphase, ?_⟩
    exact h.stay hheld.symm hown.symm trivial (fun _ _ _ _ _ _ => trivial) ⟨rfl, hbody call⟩
  | @lock i call g rest hcode hfree =>
    have hserving := h.serving i
    rw [hcode] at hserving
    have hnot : ∀ j, g ∉ (stand j).held := fun j hmem => by
      rw [(h.owners g j).mpr hmem] at hfree
      cases hfree
    refine ⟨none, callers, _, rfl, rfl, hunseen i call _ rest
      { stand i with held := g :: (stand i).held } _ hcode rfl fun hphase => ?_⟩
    refine h.changeOwner (fun j => ?_) (fun j _ => hnot j) (fun g' hg => ?_)
      (List.nodup_cons.mpr ⟨hnot i, h.nodup i⟩) rfl (h.knows i) ?_ ⟨rfl, hserving.2⟩
    · simp [eq_comm]
    · simp [hg]
    · exact fun s s' hs hs' hothers => h.stable i s s' hs hs' (D.others_mono hothers)
  | @unlock i call g rest hcode =>
    have hserving := h.serving i
    rw [hcode] at hserving
    obtain ⟨-, hmem, knows, hknows, hstable, hrest⟩ := hserving
    refine ⟨none, callers, _, rfl, rfl, hunseen i call _ rest
      { stand i with held := (stand i).held.erase g, knows } _ hcode rfl fun hphase => ?_⟩
    refine h.changeOwner (fun j => ?_) (fun j hj hmem' => ?_) (fun g' hg => ?_)
      ((h.nodup i).erase g) rfl (hknows _ h.inv (h.knows i)) hstable ⟨rfl, hrest⟩
    · simp [(h.nodup i).not_mem_erase]
    · exact h.notMem_held hj g hmem' hmem
    · exact List.mem_erase_of_ne hg
  | @act i call β f rest b shared hcode hf =>
    have hserving := h.serving i
    rw [hcode] at hserving
    obtain ⟨hphase, hcomplies⟩ := hserving
    obtain ⟨here, hmoves, hrest⟩ := hcomplies s.shared b shared h.inv (h.knows i) hf
    have hsound : Sound D O ({ s with shared }.setCode i (some (call, rest b)))
        ⟨O.see shared, Function.update callers.phase i (.asked call here.effects)⟩
        (Function.update stand i here) := by
      refine h.move hmoves.inv (fun g j => ?_) (hmoves.held ▸ h.nodup i) (fun j hj => ?_)
        hmoves.knows hmoves.stable ⟨rfl, hrest⟩
      · show s.owner g = some j ↔ _
        rw [h.owners g j]
        by_cases hj : j = i
        · rw [hj, Function.update_self, hmoves.held]
        · rw [Function.update_of_ne hj]
      · exact hmoves.spares _ _ (h.notMem_held hj) (h.apart i j (Ne.symm hj))
    rcases hmoves.effect with ⟨heffects, hsee⟩ | ⟨e, heffects, hstep⟩
    · refine ⟨none, callers, Function.update stand i here, rfl, rfl, ?_⟩
      rw [hsee, ← h.object, heffects, ← hphase, Function.update_eq_self] at hsound
      exact hsound
    · refine ⟨some (.effect i call e), _, Function.update stand i here, rfl, ?_, hsound⟩
      rw [heffects]
      exact .effect hphase (by rwa [h.object])
  | @loop i call β γ round b rest hcode =>
    have hserving := h.serving i
    rw [hcode] at hserving
    refine ⟨none, callers, _, rfl, rfl, hunseen i call _ (.unroll round b rest) (stand i) _ hcode rfl
      fun hphase => ?_⟩
    exact h.stay rfl rfl (h.knows i) (h.stable i) ⟨rfl, hserving.2.unroll⟩
  | @done i call reply hcode =>
    have hserving := h.serving i
    rw [hcode] at hserving
    obtain ⟨hphase, hheld, hown, hfinished⟩ := hserving
    refine ⟨some (.done i call reply), _, Function.update stand i (stand i), rfl,
      .done hphase hfinished, ?_⟩
    exact h.stay rfl rfl (h.knows i) (h.stable i) ⟨rfl, hheld, hown⟩

end Sound

omit [DecidableEq ι] in
/-- Idle threads know nothing. -/
theorem sound_start {shared : σ} (hinv : D.inv shared) :
    Sound D O (start shared : Service ι G σ κ ρ) (Callers.start (O.see shared))
      fun _ => D.entering := by
  refine ⟨hinv, rfl, fun g i => ?_, fun _ => List.nodup_nil, fun _ _ _ => D.apart_none hinv,
    fun _ => trivial, fun _ _ _ _ _ _ _ => trivial, fun _ => ⟨rfl, rfl, rfl⟩⟩
  exact iff_of_false (fun h => by cases h) List.not_mem_nil

/-- Threads whose code complies are callers of the object. -/
theorem callers_of_runs (hbody : ∀ call, (body call).Complies D O call D.entering (O.returns D call))
    {shared : σ} (hinv : D.inv shared) {seen : List (Label ι κ ρ)}
    (run : Runs body (start shared) seen s) :
    ∃ tr callers stand, Run (Callers.Step (fun o x o' => O.step o x.2 o') O.finished)
      (Callers.start (O.see shared)) tr callers ∧
        (tr.map Prod.snd).filterMap Callers.Event.label = seen ∧ Sound D O s callers stand := by
  induction run with
  | nil => exact ⟨[], _, _, .nil, rfl, sound_start hinv⟩
  | snoc run next ih =>
    obtain ⟨tr, callers, stand, hrun, hseen, hsound⟩ := ih
    obtain ⟨event, callers', stand', hlabel, hstep, hsound'⟩ := hsound.step hbody next
    cases event with
    | none =>
      obtain rfl : callers' = callers := hstep
      rw [← hlabel]
      exact ⟨tr, _, stand', hrun, by simp [hseen], hsound'⟩
    | some e =>
      refine ⟨tr ++ [(callers, e)], callers', stand', .snoc hrun hstep, ?_, hsound'⟩
      rw [List.map_append, List.filterMap_append, hseen, ← hlabel]
      congr 1

/-- What is seen of threads whose code complies is linear. -/
theorem linear_of_runs (hbody : ∀ call, (body call).Complies D O call D.entering (O.returns D call))
    {shared : σ} (hinv : D.inv shared) {seen : List (Label ι κ ρ)}
    (run : Runs body (start shared) seen s) :
    ∃ es, es.filterMap Callers.Event.label = seen ∧
      Callers.Linear (fun o x o' => O.step o x.2 o') O.finished (O.see shared) es
        (O.see s.shared) := by
  obtain ⟨tr, callers, stand, hrun, hseen, hsound⟩ := callers_of_runs hbody hinv run
  refine ⟨_, hseen, ?_⟩
  rw [← hsound.object]
  exact Callers.linear_of_run hrun

end Service

end

end FileStorage
