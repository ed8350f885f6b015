import FileStorage.Exec
import FileStorage.Run

/-!
# Dialogue — programs that ask their surroundings and wait for the answers

What such a program achieves on an object that others use as well.  Every question is a step of the
object, and between two of them the others take theirs.
-/

namespace FileStorage

variable {κ σ ℓ α β : Type} {ρ : κ → Type}

/-! ## 1. Programs -/

/-- A question `q` is answered by a `ρ q`. -/
inductive Dialogue (ρ : κ → Type) (α : Type) : Type
  | done (a : α)
  | stop (e : Stop)
  | ask (q : κ) (rest : ρ q → Dialogue ρ α)

namespace Dialogue

def bind (x : Dialogue ρ β) (f : β → Dialogue ρ α) : Dialogue ρ α :=
  match x with
  | .done b => f b
  | .stop e => .stop e
  | .ask q rest => .ask q fun r => (rest r).bind f

instance : Monad (Dialogue ρ) where
  pure := .done
  bind := .bind

def query (q : κ) : Dialogue ρ (ρ q) := .ask q .done

def ofExec : Exec α → Dialogue ρ α
  | .ok a => .done a
  | .error e => .stop e

theorem ofExec_ok_bind (b : β) (f : β → Dialogue ρ α) :
    (ofExec (.ok b) : Dialogue ρ β) >>= f = f b := rfl

/-- The program returns `a` when its questions are answered as in `h`. -/
inductive Returns : Dialogue ρ α → List (Sigma ρ) → α → Prop
  | done {a : α} : Returns (.done a) [] a
  | ask {q : κ} {rest : ρ q → Dialogue ρ α} {r : ρ q} {h : List (Sigma ρ)} {a : α}
      (hrest : Returns (rest r) h a) : Returns (.ask q rest) (⟨q, r⟩ :: h) a

theorem returns_done {a b : α} {h : List (Sigma ρ)} :
    (pure a : Dialogue ρ α).Returns h b ↔ h = [] ∧ a = b := by
  constructor
  · intro hx
    cases hx
    exact ⟨rfl, rfl⟩
  · intro hx
    obtain ⟨rfl, rfl⟩ := hx
    exact .done

theorem returns_query {q : κ} {f : ρ q → Dialogue ρ α} {h : List (Sigma ρ)} {a : α} :
    (query q >>= f).Returns h a ↔ ∃ r h', h = ⟨q, r⟩ :: h' ∧ (f r).Returns h' a := by
  constructor
  · intro hx
    cases hx with
    | ask hrest => exact ⟨_, _, rfl, hrest⟩
  · intro hx
    obtain ⟨r, h', rfl, hrest⟩ := hx
    exact .ask hrest

theorem returns_bind {x : Dialogue ρ β} {f : β → Dialogue ρ α} {h : List (Sigma ρ)} {a : α} :
    (x >>= f).Returns h a ↔
      ∃ h₁ b h₂, x.Returns h₁ b ∧ (f b).Returns h₂ a ∧ h = h₁ ++ h₂ := by
  constructor
  · intro hx
    change (x.bind f).Returns h a at hx
    induction x generalizing h with
    | done b => exact ⟨[], b, h, .done, hx, rfl⟩
    | stop e => cases hx
    | ask q rest ih =>
      cases hx with
      | ask hrest =>
        obtain ⟨h₁, b, h₂, hx₁, hx₂, rfl⟩ := ih _ hrest
        exact ⟨_, b, h₂, .ask hx₁, hx₂, rfl⟩
  · intro hx
    obtain ⟨h₁, b, h₂, hx₁, hx₂, rfl⟩ := hx
    show (x.bind f).Returns (h₁ ++ h₂) a
    induction hx₁ with
    | done => exact hx₂
    | ask _ ih => exact .ask (ih hx₂)

/-! ## 2. What a program achieves -/

/-- A claim about what was said so far and the state. -/
abbrev Claim (ρ : κ → Type) (σ : Type) := List (Sigma ρ) → σ → Prop

section

variable (step : σ → Sigma ρ → σ → Prop) (rely : σ → σ → Prop)

/-- What the others do leaves the claim true. -/
def Stable (A : Claim ρ σ) : Prop := ∀ h s s', A h s → rely s s' → A h s'

theorem Stable.fact {rely : σ → σ → Prop} {A : Claim ρ σ} (hstable : Stable rely A)
    (Q : List (Sigma ρ) → Prop) : Stable rely fun h s => Q h ∧ A h s :=
  fun h s s' hs hrely => ⟨hs.1, hstable h s s' hs.2 hrely⟩

/-- From `A` the program comes to `post a` when it returns `a`. -/
def Meets (A : Claim ρ σ) (x : Dialogue ρ α) (post : α → Claim ρ σ) : Prop :=
  match x with
  | .done a => ∀ h s, A h s → post a h s
  | .stop _ => True
  | .ask q rest => ∃ B : ρ q → Claim ρ σ, (∀ r, Stable rely (B r)) ∧
      (∀ h s r s', A h s → step s ⟨q, r⟩ s' → B r (h ++ [⟨q, r⟩]) s') ∧
        ∀ r, Meets (B r) (rest r) post

end

namespace Meets

variable {step : σ → Sigma ρ → σ → Prop} {rely : σ → σ → Prop} {A A' : Claim ρ σ}
  {post post' : α → Claim ρ σ}

theorem strengthen {x : Dialogue ρ α} (hx : Meets step rely A x post)
    (hA : ∀ h s, A' h s → A h s) : Meets step rely A' x post := by
  cases x with
  | done a => exact fun h s hs => hx h s (hA h s hs)
  | stop e => exact trivial
  | ask q rest =>
    obtain ⟨B, hstable, hstep, hrest⟩ := hx
    exact ⟨B, hstable, fun h s r s' hs => hstep h s r s' (hA h s hs), hrest⟩

theorem weaken {x : Dialogue ρ α} (hx : Meets step rely A x post)
    (hpost : ∀ a h s, post a h s → post' a h s) : Meets step rely A x post' := by
  induction x generalizing A with
  | done a => exact fun h s hs => hpost a h s (hx h s hs)
  | stop e => exact trivial
  | ask q rest ih =>
    obtain ⟨B, hstable, hstep, hrest⟩ := hx
    exact ⟨B, hstable, hstep, fun r => ih r (hrest r)⟩

theorem vacuous {x : Dialogue ρ α} (hA : ∀ h s, ¬A h s) : Meets step rely A x post := by
  induction x generalizing A with
  | done a => exact fun h s hs => absurd hs (hA h s)
  | stop e => exact trivial
  | ask q rest ih =>
    exact ⟨fun _ _ _ => False, fun _ _ _ _ h => h.elim, fun h s _ _ hs => absurd hs (hA h s),
      fun r => ih r fun _ _ h => h⟩

/-- What does not depend on the state is known for good. -/
theorem fact {Q : Prop} {x : Dialogue ρ α} (hx : Q → Meets step rely A x post) :
    Meets step rely (fun h s => Q ∧ A h s) x post := by
  by_cases hQ : Q
  · exact (hx hQ).strengthen fun _ _ h => h.2
  · exact vacuous fun _ _ h => hQ h.1

theorem known {Q : Prop} {x : Dialogue ρ α} (hA : ∀ h s, A' h s → Q ∧ A h s)
    (hx : Q → Meets step rely A x post) : Meets step rely A' x post := (fact hx).strengthen hA

theorem bind {x : Dialogue ρ β} {mid : β → Claim ρ σ} {f : β → Dialogue ρ α}
    (hx : Meets step rely A x mid) (hf : ∀ b, Meets step rely (mid b) (f b) post) :
    Meets step rely A (x >>= f) post := by
  show Meets step rely A (x.bind f) post
  induction x generalizing A with
  | done b => exact (hf b).strengthen hx
  | stop e => exact trivial
  | ask q rest ih =>
    obtain ⟨B, hstable, hstep, hrest⟩ := hx
    exact ⟨B, hstable, hstep, fun r => ih r (hrest r)⟩

theorem pure {a : α} (h : ∀ h s, A h s → post a h s) :
    Meets step rely A (Pure.pure a : Dialogue ρ α) post := h

theorem query {q : κ} {f : ρ q → Dialogue ρ α} (B : ρ q → Claim ρ σ)
    (hstable : ∀ r, Stable rely (B r))
    (hstep : ∀ h s r s', A h s → step s ⟨q, r⟩ s' → B r (h ++ [⟨q, r⟩]) s')
    (hf : ∀ r, Meets step rely (B r) (f r) post) :
    Meets step rely A (Dialogue.query q >>= f) post := ⟨B, hstable, hstep, hf⟩

theorem ite {c : Prop} [Decidable c] {x y : Dialogue ρ α} (hx : c → Meets step rely A x post)
    (hy : ¬c → Meets step rely A y post) : Meets step rely A (if c then x else y) post := by
  by_cases hc : c
  · rw [if_pos hc]
    exact hx hc
  · rw [if_neg hc]
    exact hy hc

end Meets

/-! ## 3. Runs with others -/

section

variable {step : σ → Sigma ρ → σ → Prop} {rely : σ → σ → Prop} {A : Claim ρ σ}
  {post : α → Claim ρ σ} {step' : σ → ℓ → σ → Prop}

/-- What a claim needs of a run: a step that is none of the program is one of the others. -/
theorem Stable.run {h : List (Sigma ρ)} {tr : List (σ × ℓ)} {s₀ s : σ} (hstable : Stable rely A)
    (run : Run step' s₀ tr s) (hA : A h s₀)
    (hothers : ∀ y ∈ tr, ∀ s', step' y.1 y.2 s' → rely y.1 s') : A h s :=
  run.invariant (A h) (fun s l => ∀ s', step' s l s' → rely s s') hA
    (fun s _ s' hs hrely hnext => hstable h s s' hs (hrely s' hnext)) hothers

/-- A program that was told its answers by a run of the object has achieved what it is for.  The run
takes a step for each question that is `said` aloud; the others have their answers at hand. -/
theorem Meets.of_run {x : Dialogue ρ α} {h h₀ : List (Sigma ρ)} {a : α} {tr : List (σ × ℓ)}
    {s₀ s : σ} (said : Sigma ρ → Bool) (heard : σ × ℓ → Bool)
    (hmeets : Meets step rely A x post) (hstable : Stable rely A) (hreturns : x.Returns h a)
    (run : Run step' s₀ tr s) (hA : A h₀ s₀)
    (hheard : List.Forall₂ (fun e y => ∀ s', step' y.1 y.2 s' → step y.1 e s')
      (h.filter said) (tr.filter heard))
    (hlocal : ∀ e ∈ h, said e = false → ∀ s, step s e s)
    (hothers : ∀ y ∈ tr, heard y = false → ∀ s', step' y.1 y.2 s' → rely y.1 s') :
    post a (h₀ ++ h) s := by
  induction hreturns generalizing A s₀ tr h₀ with
  | done =>
    have hnone : tr.filter heard = [] := List.forall₂_nil_left_iff.mp hheard
    have hothers' : ∀ y ∈ tr, ∀ s', step' y.1 y.2 s' → rely y.1 s' := by
      intro y hy
      exact hothers y hy (eq_false_of_ne_true (List.filter_eq_nil_iff.mp hnone y hy))
    rw [List.append_nil]
    exact hmeets _ _ (hstable.run run hA hothers')
  | @ask q rest r h a hrest ih =>
    obtain ⟨B, hB, hstep, hmeets⟩ := hmeets
    have hassoc : h₀ ++ ⟨q, r⟩ :: h = (h₀ ++ [⟨q, r⟩]) ++ h := by simp
    have hlater : ∀ e ∈ h, said e = false → ∀ s, step s e s := fun e he =>
      hlocal e (List.mem_cons_of_mem _ he)
    rw [hassoc]
    cases hsaid : said ⟨q, r⟩ with
    | false =>
      rw [List.filter_cons_of_neg (by simp [hsaid])] at hheard
      have hhere := hstep _ _ _ _ hA (hlocal _ List.mem_cons_self hsaid s₀)
      exact ih (hmeets r) (hB r) run hhere hheard hlater hothers
    | true =>
      rw [List.filter_cons_of_pos hsaid] at hheard
      obtain ⟨y, ys, hown, hafter, hys⟩ := List.forall₂_cons_left_iff.mp hheard
      obtain ⟨before, after, rfl, hbefore, hy, rfl⟩ := List.filter_eq_cons_iff.mp hys
      obtain ⟨s₁, run₁, run₂⟩ := Run.append_iff.mp run
      obtain ⟨hfirst, s₂, hnext, run₃⟩ := Run.cons_iff.mp run₂
      -- the others come first, and then the step that answers the question
      have hready : A h₀ s₁ := hstable.run run₁ hA fun z hz =>
        hothers z (List.mem_append_left _ hz) (eq_false_of_ne_true (hbefore z hz))
      have hhere := hstep _ _ _ _ hready (hfirst ▸ hown s₂ (hfirst ▸ hnext))
      refine ih (hmeets r) (hB r) run₃ hhere hafter hlater fun z hz => hothers z ?_
      exact List.mem_append_right _ (List.mem_cons_of_mem _ hz)

end

end Dialogue

end FileStorage
