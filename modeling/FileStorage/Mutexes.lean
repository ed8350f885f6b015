import FileStorage.Exec
import Mathlib.Data.List.Basic

/-!
# Mutexes — code that takes and releases mutexes

A piece of code leaves a trace of what it did to its mutexes, beside the rest of its state: `Emits`
says which.  Two judgements follow the trace from the mutexes held before the code to those held
after it: `Leaves` for any code, `Implements` for code that returns what a function without mutexes
returns.
-/

namespace FileStorage

/-! ## 1. Traces -/

inductive MutexEvent (γ : Type) where
  | lock (g : γ)
  | unlock (g : γ)
deriving DecidableEq, Repr

section

variable {γ : Type} [DecidableEq γ]

/-- The mutexes held after a trace, the one taken last first.  `none` when the trace takes a mutex
that it holds, which blocks for ever, or releases one that it does not hold, which is undefined. -/
def heldAfter (held : List γ) : List (MutexEvent γ) → Option (List γ)
  | [] => some held
  | .lock g :: events => if g ∈ held then none else heldAfter (g :: held) events
  | .unlock g :: events => if g ∈ held then heldAfter (held.erase g) events else none

theorem heldAfter_append (held : List γ) (events more : List (MutexEvent γ)) :
    heldAfter held (events ++ more) = (heldAfter held events).bind (heldAfter · more) := by
  induction events generalizing held with
  | nil => rfl
  | cons event events ih =>
    cases event with
    | lock g =>
      simp only [List.cons_append, heldAfter]
      split
      · rfl
      · exact ih _
    | unlock g =>
      simp only [List.cons_append, heldAfter]
      split
      · exact ih _
      · rfl

end

/-! ## 2. Code with mutexes -/

structure Logged (γ σ : Type) where
  events : List (MutexEvent γ)
  rest : σ

abbrev Locking (γ σ α : Type) := StateT (Logged γ σ) Exec α

section

variable {γ σ α β : Type}

def pthreadMutexLock (g : γ) : Locking γ σ Unit :=
  modify fun s => { s with events := s.events ++ [.lock g] }

def pthreadMutexUnlock (g : γ) : Locking γ σ Unit :=
  modify fun s => { s with events := s.events ++ [.unlock g] }

theorem Locking.bind_eq_ok {x : Locking γ σ α} {f : α → Locking γ σ β} {s s'' : Logged γ σ}
    {b : β} :
    (x >>= f) s = .ok (b, s'') ↔ ∃ a s', x s = .ok (a, s') ∧ f a s' = .ok (b, s'') := by
  show (x s >>= fun p => f p.1 p.2) = _ ↔ _
  rw [Exec.bind_eq_ok]
  constructor
  · rintro ⟨⟨a, s'⟩, hx, hf⟩
    exact ⟨a, s', hx, hf⟩
  · rintro ⟨a, s', hx, hf⟩
    exact ⟨(a, s'), hx, hf⟩

theorem Locking.lift_eq_ok {e : Exec α} {s s' : Logged γ σ} {a : α} :
    (liftM e : Locking γ σ α) s = .ok (a, s') ↔ e = .ok a ∧ s' = s := by
  show (e >>= fun a => pure (a, s)) = _ ↔ _
  rw [Exec.bind_eq_ok]
  constructor
  · rintro ⟨a', he, hpure⟩
    cases hpure
    exact ⟨he, rfl⟩
  · rintro ⟨he, rfl⟩
    exact ⟨a, he, rfl⟩

/-- Code without mutexes in front of other code. -/
theorem Locking.lift_bind_eq_ok {e : Exec α} {f : α → Locking γ σ β} {s s'' : Logged γ σ}
    {b : β} :
    ((liftM e : Locking γ σ α) >>= f) s = .ok (b, s'') ↔ ∃ a, e = .ok a ∧ f a s = .ok (b, s'') := by
  rw [Locking.bind_eq_ok]
  constructor
  · rintro ⟨a, s', hlift, hf⟩
    obtain ⟨he, rfl⟩ := Locking.lift_eq_ok.mp hlift
    exact ⟨a, he, hf⟩
  · rintro ⟨a, he, hf⟩
    exact ⟨a, s, Locking.lift_eq_ok.mpr ⟨he, rfl⟩, hf⟩

/-! ## 3. The trace of code that returns -/

/-- The code returns `a` and leaves this trace, whatever is held before. -/
def Emits (x : Locking γ σ α) (events : List (MutexEvent γ)) (a : α) : Prop :=
  ∀ s, x s = .ok (a, ⟨s.events ++ events, s.rest⟩)

namespace Emits

theorem pure (a : α) : Emits (pure a : Locking γ σ α) [] a := by
  intro s
  rw [List.append_nil]
  rfl

theorem bind {x : Locking γ σ α} {f : α → Locking γ σ β} {events more : List (MutexEvent γ)}
    {a : α} {b : β} (hx : Emits x events a) (hf : Emits (f a) more b) :
    Emits (x >>= f) (events ++ more) b := by
  intro s
  show (x s >>= fun p => f p.1 p.2) = _
  rw [hx s, Exec.ok_bind, hf, List.append_assoc]

/-- Code without mutexes in front of other code. -/
theorem lift_bind {e : Exec α} {f : α → Locking γ σ β} {events : List (MutexEvent γ)} {a : α} {b : β}
    (he : e = .ok a) (hf : Emits (f a) events b) :
    Emits ((liftM e : Locking γ σ α) >>= f) events b := by
  intro s
  rw [← hf s]
  exact congrArg (· >>= fun p => f p.1 p.2) (show (liftM e : Locking γ σ α) s = .ok (a, s) from
    Locking.lift_eq_ok.mpr ⟨he, rfl⟩)

theorem lock (g : γ) : Emits (pthreadMutexLock g : Locking γ σ Unit) [.lock g] () := fun _ => rfl

theorem unlock (g : γ) : Emits (pthreadMutexUnlock g : Locking γ σ Unit) [.unlock g] () :=
  fun _ => rfl

end Emits

variable [DecidableEq γ]

/-- From one mutex to another. -/
theorem heldAfter_hop (g g' : γ) (held : List γ) (events : List (MutexEvent γ)) :
    heldAfter (g :: held) (.unlock g :: .lock g' :: events) =
      if g' ∈ held then none else heldAfter (g' :: held) events := by
  show (if g ∈ g :: held then heldAfter ((g :: held).erase g) (.lock g' :: events) else none) = _
  rw [if_pos List.mem_cons_self, List.erase_cons_head]
  rfl

theorem isSome_heldAfter_hop (g g' : γ) (held : List γ) (events : List (MutexEvent γ)) :
    (heldAfter (g :: held) (.unlock g :: .lock g' :: events)).isSome ↔
      g' ∉ held ∧ (heldAfter (g' :: held) events).isSome := by
  rw [heldAfter_hop]
  by_cases hg : g' ∈ held
  · simp [hg]
  · simp [hg]

/-- The mutexes that are held now. -/
def Logged.held (s : Logged γ σ) : Option (List γ) := heldAfter [] s.events

theorem Logged.held_lock {s : Logged γ σ} {held : List γ} {g : γ} (hs : s.held = some held)
    (hg : g ∉ held) :
    Logged.held { s with events := s.events ++ [.lock g] } = some (g :: held) := by
  show heldAfter [] (s.events ++ [.lock g]) = _
  rw [heldAfter_append, show heldAfter [] s.events = some held from hs]
  exact if_neg hg

theorem Logged.held_unlock {s : Logged γ σ} {held : List γ} {g : γ}
    (hs : s.held = some (g :: held)) :
    Logged.held { s with events := s.events ++ [.unlock g] } = some held := by
  show heldAfter [] (s.events ++ [.unlock g]) = _
  rw [heldAfter_append, show heldAfter [] s.events = some (g :: held) from hs]
  show (if g ∈ g :: held then some ((g :: held).erase g) else none) = _
  rw [if_pos List.mem_cons_self, List.erase_cons_head]

/-! ## 4. What is held afterwards -/

/-- From the mutexes `held` the code goes to `post a` when it returns `a`. -/
def Leaves (held : List γ) (x : Locking γ σ α) (post : α → List γ) : Prop :=
  ∀ s a s', s.held = some held → x s = .ok (a, s') → s'.held = some (post a)

variable {held : List γ} {x : Locking γ σ α} {e : Exec α} {post : α → List γ}

namespace Leaves

theorem pure (a : α) (hpost : held = post a) : Leaves held (pure a : Locking γ σ α) post := by
  intro s a' s' hs hx
  cases hx
  rw [hs, hpost]

theorem bind {mid : α → List γ} {f : α → Locking γ σ β} {post : β → List γ}
    (hx : Leaves held x mid) (hf : ∀ a, Leaves (mid a) (f a) post) :
    Leaves held (x >>= f) post := by
  intro s b s'' hs hbind
  obtain ⟨a, s', hfirst, hrest⟩ := Locking.bind_eq_ok.mp hbind
  exact hf a s' b s'' (hx s a s' hs hfirst) hrest

/-- Code without mutexes. -/
theorem lift (e : Exec α) : Leaves held (liftM e : Locking γ σ α) fun _ => held := by
  intro s a s' hs hx
  obtain ⟨-, rfl⟩ := Locking.lift_eq_ok.mp hx
  exact hs

theorem unlock {g : γ} : Leaves (g :: held) (pthreadMutexUnlock g : Locking γ σ Unit)
    fun _ => held := by
  intro s a s' hs hx
  cases hx
  exact Logged.held_unlock hs

theorem ite {c : Prop} [Decidable c] {y : Locking γ σ α} (hx : c → Leaves held x post)
    (hy : ¬c → Leaves held y post) : Leaves held (if c then x else y) post := by
  split
  · exact hx ‹_›
  · exact hy ‹_›

end Leaves

/-! ## 5. The function behind the code -/

/-- `Leaves`, and apart from its mutexes the code is the function `e`: it stops where `e` stops and
returns what `e` returns. -/
def Implements (held : List γ) (x : Locking γ σ α) (e : Exec α) (post : α → List γ) : Prop :=
  ∀ s : Logged γ σ, s.held = some held →
    (∀ stop, x s = .error stop → e = .error stop) ∧
      ∀ a s', x s = .ok (a, s') → e = .ok a ∧ s'.rest = s.rest ∧ s'.held = some (post a)

namespace Implements

theorem leaves (h : Implements held x e post) : Leaves held x post :=
  fun s a s' hs hx => ((h s hs).2 a s' hx).2.2

theorem pure (a : α) (hpost : held = post a) :
    Implements held (pure a : Locking γ σ α) (.ok a) post := by
  intro s hs
  refine ⟨fun stop hx => ?_, fun a' s' hx => ?_⟩
  · cases hx
  · cases hx
    exact ⟨rfl, rfl, by rw [hs, hpost]⟩

theorem bind {mid : α → List γ} {f : α → Locking γ σ β} {g : α → Exec β} {post : β → List γ}
    (hx : Implements held x e mid)
    (hf : ∀ a, e = .ok a → Implements (mid a) (f a) (g a) post) :
    Implements held (x >>= f) (e >>= g) post := by
  intro s hs
  obtain ⟨hstop, hreturn⟩ := hx s hs
  -- the first part stops, and with it the whole, or it returns
  cases hxs : x s with
  | error stop =>
    have hbind : (x >>= f) s = .error stop := by
      show (x s >>= fun p => f p.1 p.2) = _
      rw [hxs]
      rfl
    rw [hstop stop hxs, hbind]
    refine ⟨fun stop' h => ?_, fun b s'' h => ?_⟩
    · cases h
      rfl
    · cases h
  | ok p =>
    have hbind : (x >>= f) s = f p.1 p.2 := by
      show (x s >>= fun p => f p.1 p.2) = _
      rw [hxs]
      rfl
    obtain ⟨he, hrest, hheld⟩ := hreturn p.1 p.2 hxs
    obtain ⟨hstop', hreturn'⟩ := hf p.1 he p.2 hheld
    rw [he, Exec.ok_bind, hbind]
    refine ⟨hstop', fun b s'' h => ?_⟩
    obtain ⟨hg, hrest', hheld'⟩ := hreturn' b s'' h
    exact ⟨hg, hrest'.trans hrest, hheld'⟩

theorem pure_bind {f : α → Locking γ σ β} {g : α → Exec β} {post : β → List γ} (a : α)
    (h : Implements held (f a) (g a) post) :
    Implements held (Pure.pure a >>= f) (Pure.pure a >>= g) post := h

theorem lift (e : Exec α) : Implements held (liftM e : Locking γ σ α) e fun _ => held := by
  intro s hs
  have hlift : (liftM e : Locking γ σ α) s = e >>= fun a => Pure.pure (a, s) := rfl
  rw [hlift]
  cases e with
  | error stop =>
    refine ⟨fun stop' h => ?_, fun a s' h => ?_⟩
    · cases h
      rfl
    · cases h
  | ok a =>
    refine ⟨fun stop h => ?_, fun a' s' h => ?_⟩
    · cases h
    · cases h
      exact ⟨rfl, rfl, hs⟩

theorem throw (stop : Stop) : Implements held (throw stop : Locking γ σ α) (.error stop) post := by
  intro s hs
  refine ⟨fun stop' h => ?_, fun a s' h => ?_⟩
  · cases h
    rfl
  · cases h

/-- Taking a mutex that is not held. -/
theorem lock {g : γ} (hg : g ∉ held) {f : Unit → Locking γ σ α}
    (hf : Implements (g :: held) (f ()) e post) :
    Implements held (pthreadMutexLock g >>= f) e post :=
  fun _ hs => hf _ (Logged.held_lock hs hg)

/-- Releasing the mutex that was taken last. -/
theorem unlock {g : γ} {f : Unit → Locking γ σ α} (hf : Implements held (f ()) e post) :
    Implements (g :: held) (pthreadMutexUnlock g >>= f) e post :=
  fun _ hs => hf _ (Logged.held_unlock hs)

theorem ite {c : Prop} [Decidable c] {y : Locking γ σ α} {e' : Exec α}
    (hx : c → Implements held x e post) (hy : ¬c → Implements held y e' post) :
    Implements held (if c then x else y) (if c then e else e') post := by
  split
  · exact hx ‹_›
  · exact hy ‹_›

end Implements

end

end FileStorage
