import FileStorage.Exec
import Mathlib.Logic.Function.Basic
import Mathlib.Logic.Relation
import Mathlib.Order.Defs.PartialOrder

/-!
# Programs — threads that share a state and mutexes

A thread is a tree of the steps it has yet to take.  Threads that take their mutexes in the order of
a rank never wait for each other in a circle, whatever they read from the state that they share.
-/

namespace FileStorage

/-! ## 1. Programs -/

/-- What a thread does until it returns: it takes and releases mutexes `g : G` and accesses the
shared state `σ`.  A loop may run for ever. -/
inductive Program (G σ : Type) : Type → Type 1
  | pure {α : Type} (a : α) : Program G σ α
  | lock {α : Type} (g : G) (rest : Program G σ α) : Program G σ α
  | unlock {α : Type} (g : G) (rest : Program G σ α) : Program G σ α
  | act {α β : Type} (f : σ → Exec (β × σ)) (rest : β → Program G σ α) : Program G σ α
  /-- The body says whether there is a further round. -/
  | loop {α β γ : Type} (body : β → Program G σ (β ⊕ γ)) (b : β) (rest : γ → Program G σ α) :
      Program G σ α

namespace Program

variable {G σ α β γ : Type}

def bind {α β : Type} (x : Program G σ α) (f : α → Program G σ β) : Program G σ β :=
  match x with
  | .pure a => f a
  | .lock g rest => .lock g (rest.bind f)
  | .unlock g rest => .unlock g (rest.bind f)
  | .act h rest => .act h fun b => (rest b).bind f
  | .loop body b rest => .loop body b fun c => (rest c).bind f

instance : Monad (Program G σ) where
  pure := .pure
  bind := .bind

/-- A loop before its next round. -/
def unroll (body : β → Program G σ (β ⊕ γ)) (b : β) (rest : γ → Program G σ α) : Program G σ α :=
  (body b).bind fun
    | .inl b => .loop body b rest
    | .inr c => rest c

def mutexLock (g : G) : Program G σ Unit := .lock g (.pure ())

def mutexUnlock (g : G) : Program G σ Unit := .unlock g (.pure ())

def access (f : σ → Exec (β × σ)) : Program G σ β := .act f .pure

def query (f : σ → Exec β) : Program G σ β :=
  access fun s => do
    let b ← f s
    return (b, s)

def update (f : σ → Exec σ) : Program G σ Unit :=
  access fun s => do
    let s ← f s
    return ((), s)

def stop (e : Stop) : Program G σ α := .act (β := Empty) (fun _ => .error e) Empty.elim

def repeatLoop (body : β → Program G σ (β ⊕ γ)) (b : β) : Program G σ γ := .loop body b .pure

end Program

/-! ## 2. Threads -/

/-- The threads `ι` with what each has yet to do; a mutex has at most one owner. -/
structure Machine (ι G σ : Type) where
  shared : σ
  owner : G → Option ι
  code : ι → Program G σ Unit

namespace Machine

variable {ι G σ : Type} [DecidableEq ι] [DecidableEq G]

def setCode (m : Machine ι G σ) (i : ι) (x : Program G σ Unit) : Machine ι G σ :=
  { m with code := Function.update m.code i x }

def setOwner (m : Machine ι G σ) (g : G) (o : Option ι) : Machine ι G σ :=
  { m with owner := Function.update m.owner g o }

/-- Thread `i` takes a step.  Code that stops, as at a failed assertion, takes none. -/
inductive Step (m : Machine ι G σ) (i : ι) : Machine ι G σ → Prop
  | lock {g : G} {rest : Program G σ Unit} (hcode : m.code i = .lock g rest)
      (hfree : m.owner g = none) : Step m i ((m.setOwner g (some i)).setCode i rest)
  | unlock {g : G} {rest : Program G σ Unit} (hcode : m.code i = .unlock g rest) :
      Step m i ((m.setOwner g none).setCode i rest)
  | act {β : Type} {f : σ → Exec (β × σ)} {rest : β → Program G σ Unit} {b : β} {s : σ}
      (hcode : m.code i = .act f rest) (hf : f m.shared = .ok (b, s)) :
      Step m i ({ m with shared := s }.setCode i (rest b))
  | loop {β γ : Type} {body : β → Program G σ (β ⊕ γ)} {b : β} {rest : γ → Program G σ Unit}
      (hcode : m.code i = .loop body b rest) : Step m i (m.setCode i (.unroll body b rest))

/-- In any order the threads take steps. -/
def Reaches : Machine ι G σ → Machine ι G σ → Prop :=
  Relation.ReflTransGen fun m m' => ∃ i, m.Step i m'

omit [DecidableEq ι] [DecidableEq G] in
/-- Thread `i` cannot go on before it has `g`. -/
def WaitsOn (m : Machine ι G σ) (i : ι) (g : G) : Prop := ∃ rest, m.code i = .lock g rest

/-- Thread `i` waits for a mutex that thread `j` holds. -/
def WaitsFor (m : Machine ι G σ) (i j : ι) : Prop := ∃ g, m.WaitsOn i g ∧ m.owner g = some j

/-- No circle of threads, each waiting for a mutex that the next one holds. -/
def DeadlockFree (m : Machine ι G σ) : Prop := ∀ i, ¬ Relation.TransGen m.WaitsFor i i

end Machine

/-! ## 3. The order of the mutexes -/

section

variable {ι G σ ρ : Type} [DecidableEq G] [Preorder ρ]

namespace Program

/-- From the mutexes `held` the code goes to `post a` when it returns `a`.  On the way it takes a
mutex only above all that it holds, releases only what it holds, and keeps `inv` of the shared
state; it relies on others for nothing else. -/
def Keeps (inv : σ → Prop) (rank : G → ρ) {α : Type} (held : List G) (x : Program G σ α)
    (post : α → List G) : Prop :=
  match x with
  | .pure a => held = post a
  | .lock g rest => (∀ h ∈ held, rank h < rank g) ∧ rest.Keeps inv rank (g :: held) post
  | .unlock g rest => g ∈ held ∧ rest.Keeps inv rank (held.erase g) post
  | .act f rest =>
      ∀ s b s', inv s → f s = .ok (b, s') → inv s' ∧ (rest b).Keeps inv rank held post
  | .loop (γ := γ) body _ rest => ∃ mid : γ → List G,
      (∀ b, (body b).Keeps inv rank held (Sum.elim (fun _ => held) mid)) ∧
        ∀ c, (rest c).Keeps inv rank (mid c) post

namespace Keeps

variable {α β γ : Type} {inv : σ → Prop} {rank : G → ρ} {held : List G} {g : G}
  {post : α → List G}

theorem bind {α β : Type} {held : List G} {post : α → List G} {x : Program G σ β}
    {mid : β → List G} {f : β → Program G σ α} (hx : x.Keeps inv rank held mid)
    (hf : ∀ b, (f b).Keeps inv rank (mid b) post) : (x >>= f).Keeps inv rank held post := by
  show (x.bind f).Keeps inv rank held post
  induction x generalizing held with
  | pure a =>
    obtain rfl : held = mid a := hx
    exact hf a
  | lock g rest ih => exact ⟨hx.1, ih hx.2 hf⟩
  | unlock g rest ih => exact ⟨hx.1, ih hx.2 hf⟩
  | act h rest ih => exact fun s b s' hs hh => ⟨(hx s b s' hs hh).1, ih b (hx s b s' hs hh).2 hf⟩
  | loop body b rest _ ih =>
    obtain ⟨mid', hbody, hrest⟩ := hx
    exact ⟨mid', hbody, fun c => ih c (hrest c) hf⟩

theorem lock {f : Unit → Program G σ α} (hrank : ∀ h ∈ held, rank h < rank g)
    (hf : (f ()).Keeps inv rank (g :: held) post) :
    (mutexLock g >>= f).Keeps inv rank held post := ⟨hrank, hf⟩

/-- The mutex that was taken last is released. -/
theorem unlock {f : Unit → Program G σ α} (hf : (f ()).Keeps inv rank held post) :
    (mutexUnlock g >>= f).Keeps inv rank (g :: held) post := by
  refine ⟨List.mem_cons_self, ?_⟩
  show (f ()).Keeps inv rank ((g :: held).erase g) post
  rwa [List.erase_cons_head]

theorem query {h : σ → Exec β} {f : β → Program G σ α}
    (hf : ∀ s b, inv s → h s = .ok b → (f b).Keeps inv rank held post) :
    (query h >>= f).Keeps inv rank held post := by
  intro s b s' hs hx
  obtain ⟨b', hb, hx⟩ := Exec.bind_eq_ok.mp hx
  cases hx
  exact ⟨hs, hf s b hs hb⟩

theorem update {h : σ → Exec σ} {f : Unit → Program G σ α}
    (hinv : ∀ s s', inv s → h s = .ok s' → inv s') (hf : (f ()).Keeps inv rank held post) :
    (update h >>= f).Keeps inv rank held post := by
  intro s b s' hs hx
  obtain ⟨s₁, hs₁, hx⟩ := Exec.bind_eq_ok.mp hx
  cases hx
  exact ⟨hinv s s' hs hs₁, hf⟩

theorem access {h : σ → Exec (β × σ)} {f : β → Program G σ α}
    (hinv : ∀ s b s', inv s → h s = .ok (b, s') → inv s')
    (hf : ∀ b, (f b).Keeps inv rank held post) : (access h >>= f).Keeps inv rank held post :=
  fun s b s' hs hx => ⟨hinv s b s' hs hx, hf b⟩

theorem stop (e : Stop) : (stop e : Program G σ α).Keeps inv rank held post :=
  fun _ b _ _ _ => b.elim

theorem ite {c : Prop} [Decidable c] {x y : Program G σ α} (hx : c → x.Keeps inv rank held post)
    (hy : ¬c → y.Keeps inv rank held post) : (if c then x else y).Keeps inv rank held post := by
  split
  · exact hx ‹_›
  · exact hy ‹_›

theorem repeatLoop {body : β → Program G σ (β ⊕ α)} {b : β}
    (hbody : ∀ b, (body b).Keeps inv rank held (Sum.elim (fun _ => held) post)) :
    (repeatLoop body b).Keeps inv rank held post := ⟨post, hbody, fun _ => rfl⟩

/-- One more round. -/
theorem unroll {body : β → Program G σ (β ⊕ γ)} {b : β} {rest : γ → Program G σ α}
    (h : (Program.loop body b rest).Keeps inv rank held post) :
    (unroll body b rest).Keeps inv rank held post := by
  obtain ⟨mid, hbody, hrest⟩ := h
  refine bind (hbody b) ?_
  rintro (b' | c)
  · exact ⟨mid, hbody, hrest⟩
  · exact hrest c

end Keeps

end Program

namespace Machine

variable [DecidableEq ι] {inv : σ → Prop} {rank : G → ρ} {m m' : Machine ι G σ} {i : ι}
  {held : ι → List G}

/-- Each thread holds the mutexes `held i` and keeps to the order from there to its end. -/
structure Ordered (inv : σ → Prop) (rank : G → ρ) (m : Machine ι G σ) (held : ι → List G) :
    Prop where
  shared : inv m.shared
  owners : ∀ g i, m.owner g = some i ↔ g ∈ held i
  nodup : ∀ i, (held i).Nodup
  code : ∀ i, (m.code i).Keeps inv rank (held i) fun _ => []

namespace Ordered

/-- A thread goes on, and what it and the others hold stays the same. -/
theorem goOn (h : Ordered inv rank m held) {x : Program G σ Unit} {s : σ} (hs : inv s)
    (hx : x.Keeps inv rank (held i) fun _ => []) :
    Ordered inv rank ({ m with shared := s }.setCode i x) held := by
  refine ⟨hs, h.owners, h.nodup, fun j => ?_⟩
  show (Function.update m.code i x j).Keeps inv rank (held j) _
  by_cases hij : j = i
  · subst hij
    rwa [Function.update_self]
  · rw [Function.update_of_ne hij]
    exact h.code j

/-- A thread takes or releases a mutex. -/
theorem changeOwner (h : Ordered inv rank m held) (gs : List G) {g : G} {o : Option ι}
    {x : Program G σ Unit} (howner : ∀ j, o = some j ↔ j = i ∧ g ∈ gs)
    (hothers : ∀ j, j ≠ i → g ∉ held j) (hsame : ∀ g', g' ≠ g → (g' ∈ gs ↔ g' ∈ held i))
    (hnodup : gs.Nodup) (hx : x.Keeps inv rank gs fun _ => []) :
    Ordered inv rank ((m.setOwner g o).setCode i x) (Function.update held i gs) := by
  refine ⟨h.shared, fun g' j => ?_, fun j => ?_, fun j => ?_⟩
  · show Function.update m.owner g o g' = some j ↔ _
    by_cases hg : g' = g
    · subst hg
      rw [Function.update_self, howner j]
      by_cases hij : j = i
      · subst hij
        simp
      · simp [hij, hothers j hij]
    · rw [Function.update_of_ne hg, h.owners g' j]
      by_cases hij : j = i
      · subst hij
        rw [Function.update_self]
        exact (hsame g' hg).symm
      · rw [Function.update_of_ne hij]
  · by_cases hij : j = i
    · subst hij
      rwa [Function.update_self]
    · rw [Function.update_of_ne hij]
      exact h.nodup j
  · show (Function.update m.code i x j).Keeps inv rank (Function.update held i gs j) _
    by_cases hij : j = i
    · subst hij
      rwa [Function.update_self, Function.update_self]
    · rw [Function.update_of_ne hij, Function.update_of_ne hij]
      exact h.code j

theorem step (h : Ordered inv rank m held) (hstep : m.Step i m') :
    ∃ held', Ordered inv rank m' held' := by
  have hcode := h.code i
  cases hstep with
  | @lock g rest hat hfree =>
    rw [hat] at hcode
    obtain ⟨hrank, hrest⟩ := hcode
    have hnot : ∀ j, g ∉ held j := fun j hmem => by
      rw [(h.owners g j).mpr hmem] at hfree
      cases hfree
    refine ⟨_, h.changeOwner (g :: held i) (fun j => ?_) (fun j _ => hnot j)
      (fun g' hg => ?_) (List.nodup_cons.mpr ⟨hnot i, h.nodup i⟩) hrest⟩
    · simp [eq_comm]
    · simp [hg]
  | @unlock g rest hat =>
    rw [hat] at hcode
    obtain ⟨hmem, hrest⟩ := hcode
    refine ⟨_, h.changeOwner ((held i).erase g) (fun j => ?_) (fun j hij hj => ?_)
      (fun g' hg => List.mem_erase_of_ne hg) ((h.nodup i).erase g) hrest⟩
    · simp [(h.nodup i).not_mem_erase]
    · exact hij (Option.some.inj (((h.owners g j).mpr hj).symm.trans ((h.owners g i).mpr hmem)))
  | @act β f rest b s hat hf =>
    rw [hat] at hcode
    obtain ⟨hs, hrest⟩ := hcode m.shared b s h.shared hf
    exact ⟨held, h.goOn hs hrest⟩
  | @loop β γ body b rest hat =>
    rw [hat] at hcode
    exact ⟨held, h.goOn h.shared hcode.unroll⟩

theorem reaches (h : Ordered inv rank m held) (hreach : m.Reaches m') :
    ∃ held', Ordered inv rank m' held' := by
  induction hreach with
  | refl => exact ⟨held, h⟩
  | tail _ hstep ih =>
    obtain ⟨held', h'⟩ := ih
    obtain ⟨i, hstep⟩ := hstep
    exact h'.step hstep

omit [DecidableEq ι] in
/-- A mutex that a thread waits for is above all that it holds. -/
theorem rank_lt (h : Ordered inv rank m held) {g g' : G} {j : ι} (howner : m.owner g = some j)
    (hwaits : m.WaitsOn j g') : rank g < rank g' := by
  obtain ⟨rest, hat⟩ := hwaits
  have hcode := h.code j
  rw [hat] at hcode
  exact hcode.1 g ((h.owners g j).mp howner)

omit [DecidableEq ι] in
/-- Along a chain of waiting threads the ranks go up. -/
theorem rank_lt_of_chain (h : Ordered inv rank m held) {i j : ι} {g g' : G} (hi : m.WaitsOn i g)
    (hchain : Relation.TransGen m.WaitsFor i j) (hj : m.WaitsOn j g') : rank g < rank g' := by
  have hsame : ∀ {i g₁ g₂}, m.WaitsOn i g₁ → m.WaitsOn i g₂ → g₁ = g₂ := by
    rintro i g₁ g₂ ⟨rest₁, h₁⟩ ⟨rest₂, h₂⟩
    exact (Program.lock.inj (h₁.symm.trans h₂)).1
  induction hchain generalizing g' with
  | single hwaits =>
    obtain ⟨g₁, hg₁, howner⟩ := hwaits
    obtain rfl := hsame hi hg₁
    exact h.rank_lt howner hj
  | tail _ hwaits ih =>
    obtain ⟨g₁, hg₁, howner⟩ := hwaits
    exact lt_trans (ih hg₁) (h.rank_lt howner hj)

omit [DecidableEq ι] in
theorem deadlockFree (h : Ordered inv rank m held) : m.DeadlockFree := by
  intro i hcircle
  obtain ⟨j, hwaits, -⟩ := Relation.TransGen.head'_iff.mp hcircle
  obtain ⟨g, hg, -⟩ := hwaits
  exact lt_irrefl _ (h.rank_lt_of_chain hg hcircle hg)

end Ordered

end Machine

end

/-! ## 4. A thread on its own -/

namespace Program

variable {G σ α β γ : Type}

/-- From the shared state `s` the program returns `a` and leaves `s'`, with no other thread in
between. -/
inductive Returns : {α : Type} → Program G σ α → σ → α → σ → Prop
  | pure {α : Type} {a : α} {s : σ} : Returns (.pure a) s a s
  | lock {α : Type} {g : G} {rest : Program G σ α} {s s' : σ} {a : α}
      (h : Returns rest s a s') : Returns (.lock g rest) s a s'
  | unlock {α : Type} {g : G} {rest : Program G σ α} {s s' : σ} {a : α}
      (h : Returns rest s a s') : Returns (.unlock g rest) s a s'
  | act {α β : Type} {f : σ → Exec (β × σ)} {rest : β → Program G σ α} {s s₁ s' : σ} {b : β} {a : α}
      (hf : f s = .ok (b, s₁)) (h : Returns (rest b) s₁ a s') : Returns (.act f rest) s a s'
  | loop {α β γ : Type} {body : β → Program G σ (β ⊕ γ)} {b : β} {rest : γ → Program G σ α}
      {s s' : σ} {a : α} (h : Returns (unroll body b rest) s a s') :
      Returns (.loop body b rest) s a s'

theorem bind_assoc (x : Program G σ α) (f : α → Program G σ β) (k : β → Program G σ γ) :
    (x.bind f).bind k = x.bind fun a => (f a).bind k := by
  induction x with
  | pure a => rfl
  | lock g rest ih => exact congrArg (Program.lock g) (ih f)
  | unlock g rest ih => exact congrArg (Program.unlock g) (ih f)
  | act h rest ih => exact congrArg (Program.act h) (funext fun b => ih b f)
  | loop body b rest _ ih => exact congrArg (Program.loop body b) (funext fun c => ih c f)

theorem unroll_bind {δ : Type} (body : β → Program G σ (β ⊕ γ)) (b : β) (rest : γ → Program G σ α)
    (f : α → Program G σ δ) :
    (unroll body b rest).bind f = unroll body b fun c => (rest c).bind f := by
  rw [unroll, bind_assoc, unroll]
  congr 1
  funext r
  cases r <;> rfl

namespace Returns

variable {s s₁ s' : σ} {a : α} {b : β}

theorem bind {α β : Type} {x : Program G σ β} {f : β → Program G σ α} {s s₁ s' : σ} {b : β} {a : α}
    (hx : x.Returns s b s₁) (hf : (f b).Returns s₁ a s') : (x >>= f).Returns s a s' := by
  show (x.bind f).Returns s a s'
  induction hx with
  | pure => exact hf
  | lock _ ih => exact .lock (ih hf)
  | unlock _ ih => exact .unlock (ih hf)
  | act hh _ ih => exact .act hh (ih hf)
  | loop _ ih =>
    refine .loop ?_
    rw [← unroll_bind]
    exact ih hf

theorem mutexLock {g : G} {f : Unit → Program G σ α} (h : (f ()).Returns s a s') :
    (mutexLock g >>= f).Returns s a s' := .lock h

theorem mutexUnlock {g : G} {f : Unit → Program G σ α} (h : (f ()).Returns s a s') :
    (mutexUnlock g >>= f).Returns s a s' := .unlock h

/-- The last round of a loop. -/
theorem done {body : β → Program G σ (β ⊕ α)} (h : (body b).Returns s (.inr a) s') :
    (repeatLoop body b).Returns s a s' := .loop (h.bind .pure)

/-- A round that is not the last one. -/
theorem again {body : β → Program G σ (β ⊕ α)} {b₁ : β} (h : (body b).Returns s (.inl b₁) s₁)
    (hrest : (repeatLoop body b₁).Returns s₁ a s') : (repeatLoop body b).Returns s a s' :=
  .loop (h.bind hrest)

end Returns

/-- On its own the program does what the function `e` does: when `e` returns `d`, the program
returns what `d` is for it. -/
def Computes {δ : Type} (s : σ) (x : Program G σ α) (e : Exec δ) (view : δ → α × σ) : Prop :=
  ∀ d, e = .ok d → x.Returns s (view d).1 (view d).2

namespace Computes

variable {δ ε : Type} {s : σ} {x : Program G σ α} {e : Exec δ} {view : δ → α × σ}

theorem pure {a : α} {d : δ} (hview : view d = (a, s)) :
    Computes s (Pure.pure a : Program G σ α) (.ok d) view := by
  intro d' hd
  cases hd
  rw [hview]
  exact Returns.pure

theorem bind {f : α → Program G σ β} {g : δ → Exec ε} {view' : ε → β × σ}
    (hx : Computes s x e view)
    (hf : ∀ d, e = .ok d → Computes (view d).2 (f (view d).1) (g d) view') :
    Computes s (x >>= f) (e >>= g) view' := by
  intro d' hd
  obtain ⟨d, he, hd⟩ := Exec.bind_eq_ok.mp hd
  exact (hx d he).bind (hf d he d' hd)

theorem throw (stop : Stop) : Computes s x (.error stop) view := fun _ hd => by cases hd

theorem lock {g : G} {f : Unit → Program G σ α} (hf : Computes s (f ()) e view) :
    Computes s (mutexLock g >>= f) e view := fun d hd => .mutexLock (hf d hd)

theorem unlock {g : G} {f : Unit → Program G σ α} (hf : Computes s (f ()) e view) :
    Computes s (mutexUnlock g >>= f) e view := fun d hd => .mutexUnlock (hf d hd)

/-- A step whose result the function has already. -/
theorem step {h : σ → Exec (β × σ)} {f : β → Program G σ α} {b : β} {s₁ : σ}
    (hh : h s = .ok (b, s₁)) (hf : Computes s₁ (f b) e view) :
    Computes s (access h >>= f) e view :=
  fun d hd => .act hh (hf d hd)

theorem access {h : σ → Exec (β × σ)} {f : β → Program G σ α} {g : δ → Exec ε}
    {view : ε → α × σ} (step : δ → β × σ) (hh : h s = e.map step)
    (hf : ∀ d, e = .ok d → Computes (step d).2 (f (step d).1) (g d) view) :
    Computes s (Program.access h >>= f) (e >>= g) view := by
  intro d' hd
  obtain ⟨d, rfl, hd⟩ := Exec.bind_eq_ok.mp hd
  exact .act hh (hf d rfl d' hd)

theorem ite {c : Prop} [Decidable c] {y : Program G σ α} {e' : Exec δ}
    (hx : c → Computes s x e view) (hy : ¬c → Computes s y e' view) :
    Computes s (if c then x else y) (if c then e else e') view := by
  split
  · exact hx ‹_›
  · exact hy ‹_›

end Computes

end Program

namespace Machine

variable {ι G σ ρ : Type} [DecidableEq ι] [DecidableEq G] [Preorder ρ]
  {inv : σ → Prop} {rank : G → ρ} {m : Machine ι G σ} {i : ι} {held : ι → List G}

/-- One step of `i`, and then the rest of its run. -/
theorem Ordered.runs_after (h : Ordered inv rank m held) {m₁ : Machine ι G σ}
    {x : Program G σ Unit} (hstep : m.Step i m₁) (hcode : m₁.code = Function.update m.code i x)
    {s' : σ} {y : Program G σ Unit} (hrest : ∀ held₁, Ordered inv rank m₁ held₁ → m₁.code i = x →
      ∃ m', m₁.Reaches m' ∧ m'.shared = s' ∧ m'.code i = y ∧ ∀ j, j ≠ i → m'.code j = m₁.code j) :
    ∃ m', m.Reaches m' ∧ m'.shared = s' ∧ m'.code i = y ∧ ∀ j, j ≠ i → m'.code j = m.code j := by
  obtain ⟨held₁, h₁⟩ := h.step hstep
  obtain ⟨m', hreach, hshared, hy, hothers⟩ := hrest held₁ h₁ (by rw [hcode, Function.update_self])
  refine ⟨m', .head ⟨i, hstep⟩ hreach, hshared, hy, fun j hj => ?_⟩
  rw [hothers j hj, hcode, Function.update_of_ne hj]

/-- What a program returns on its own it returns as a thread that the others leave alone. -/
theorem Ordered.runs_alone {α : Type} {x : Program G σ α} {s s' : σ} {a : α}
    (hx : x.Returns s a s') {k : α → Program G σ Unit} (h : Ordered inv rank m held)
    (halone : ∀ g j, m.owner g = some j → j = i) (hcode : m.code i = x.bind k)
    (hs : m.shared = s) :
    ∃ m', m.Reaches m' ∧ m'.shared = s' ∧ m'.code i = k a ∧ ∀ j, j ≠ i → m'.code j = m.code j := by
  induction hx generalizing m held with
  | pure => exact ⟨m, .refl, hs, hcode, fun _ _ => rfl⟩
  | @lock g rest _ _ _ _ ih =>
    have hfree : m.owner g = none := by
      cases howner : m.owner g with
      | none => rfl
      | some j =>
        obtain rfl := halone g j howner
        exact absurd (h.rank_lt howner ⟨_, hcode⟩) (lt_irrefl _)
    refine h.runs_after (.lock hcode hfree) rfl fun held₁ h₁ hcode₁ =>
      ih h₁ (fun g' j hj => ?_) hcode₁ hs
    by_cases hg : g' = g
    · subst hg
      have hj : Function.update m.owner g' (some i) g' = some j := hj
      rw [Function.update_self] at hj
      exact (Option.some.inj hj).symm
    · have hj : Function.update m.owner g (some i) g' = some j := hj
      rw [Function.update_of_ne hg] at hj
      exact halone g' j hj
  | @unlock g rest _ _ _ _ ih =>
    refine h.runs_after (.unlock hcode) rfl fun held₁ h₁ hcode₁ =>
      ih h₁ (fun g' j hj => ?_) hcode₁ hs
    have hj : Function.update m.owner g none g' = some j := hj
    by_cases hg : g' = g
    · subst hg
      rw [Function.update_self] at hj
      cases hj
    · rw [Function.update_of_ne hg] at hj
      exact halone g' j hj
  | act hf _ ih =>
    subst hs
    exact h.runs_after (.act hcode hf) rfl fun held₁ h₁ hcode₁ => ih h₁ halone hcode₁ rfl
  | loop _ ih =>
    refine h.runs_after (.loop hcode) rfl fun held₁ h₁ hcode₁ => ih h₁ halone ?_ hs
    rw [hcode₁, Program.unroll_bind]

end Machine

end FileStorage
