import FileStorage.Memory.Heap
import Mathlib.Logic.Function.Basic

/-!
# Path — chains of blocks along one pointer field

`link a` is the content of the field at the block `a`, `none` when there is no block at `a`.  A
path visits blocks by following that field; a list is a path that ends in `NULL`.
-/

namespace FileStorage.Memory

/-- Following `link` from `p` visits the blocks `as` in order and stops at the pointer `q`. -/
def Path (link : Addr → Option Ptr) : Ptr → List Addr → Ptr → Prop
  | p, [], q => p = q
  | p, a :: as, q => p = some a ∧ ∃ n, link a = some n ∧ Path link n as q

/-- The addresses met from `p`, at most `fuel` of them. -/
def walk (link : Addr → Option Ptr) : Nat → Ptr → List Addr
  | 0, _ => []
  | _ + 1, none => []
  | fuel + 1, some a =>
      match link a with
      | none => []
      | some p => a :: walk link fuel p

namespace Path

variable {link link' : Addr → Option Ptr} {p q n : Ptr} {a b : Addr} {as bs : List Addr}

@[simp] theorem nil_iff : Path link p [] q ↔ p = q := Iff.rfl

theorem cons_iff :
    Path link p (a :: as) q ↔ p = some a ∧ ∃ n, link a = some n ∧ Path link n as q := Iff.rfl

theorem append_iff : Path link p (as ++ bs) q ↔ ∃ m, Path link p as m ∧ Path link m bs q := by
  induction as generalizing p with
  | nil => simp
  | cons a as ih =>
    simp only [List.cons_append, cons_iff, ih]
    constructor
    · rintro ⟨hp, n, hn, m, has, hbs⟩
      exact ⟨m, ⟨hp, n, hn, has⟩, hbs⟩
    · rintro ⟨m, ⟨hp, n, hn, has⟩, hbs⟩
      exact ⟨hp, n, hn, m, has, hbs⟩

theorem append (h₁ : Path link p as n) (h₂ : Path link n bs q) : Path link p (as ++ bs) q :=
  append_iff.mpr ⟨n, h₁, h₂⟩

/-- A path only looks at the blocks it visits. -/
theorem congr (h : Path link p as q) (hsame : ∀ a ∈ as, link' a = link a) :
    Path link' p as q := by
  induction as generalizing p with
  | nil => exact h
  | cons a as ih =>
    obtain ⟨hp, n, hn, hrest⟩ := h
    refine ⟨hp, n, ?_, ih hrest fun b hb => hsame b (List.mem_cons_of_mem a hb)⟩
    rw [hsame a List.mem_cons_self, hn]

theorem mono (h : Path link p as q) (hmore : ∀ a n, link a = some n → link' a = some n) :
    Path link' p as q := by
  induction as generalizing p with
  | nil => exact h
  | cons a as ih =>
    obtain ⟨hp, n, hn, hrest⟩ := h
    exact ⟨hp, n, hmore a n hn, ih hrest⟩

theorem start_eq_head (h : Path link p as none) : p = as.head? := by
  cases as with
  | nil => exact h
  | cons a as => exact h.1

/-- Two lists from one pointer are the same list. -/
theorem unique (h₁ : Path link p as none) (h₂ : Path link p bs none) : as = bs := by
  induction as generalizing p bs with
  | nil =>
    cases bs with
    | nil => rfl
    | cons b bs => simp [cons_iff, show p = none from h₁] at h₂
  | cons a as ih =>
    obtain ⟨rfl, n, hn, hrest⟩ := h₁
    cases bs with
    | nil => simp at h₂
    | cons b bs =>
      obtain ⟨hb, m, hm, hrest'⟩ := h₂
      obtain rfl := Option.some.inj hb
      obtain rfl := Option.some.inj (hn.symm.trans hm)
      rw [ih hrest hrest']

/-- A list never meets a block twice: the two tails would be one list of two lengths. -/
theorem nodup (h : Path link p as none) : as.Nodup := by
  induction as generalizing p with
  | nil => exact List.nodup_nil
  | cons a as ih =>
    obtain ⟨rfl, n, hn, hrest⟩ := h
    refine List.nodup_cons.mpr ⟨fun hmem => ?_, ih hrest⟩
    obtain ⟨xs, ys, rfl⟩ := List.append_of_mem hmem
    obtain ⟨m, -, hm⟩ := append_iff.mp hrest
    have hstart : m = some a := hm.1
    subst hstart
    have hwhole : Path link (some a) (a :: (xs ++ a :: ys)) none := ⟨rfl, n, hn, hrest⟩
    have hlen := congrArg List.length (unique hwhole hm)
    simp only [List.length_cons, List.length_append] at hlen
    omega

theorem walk_eq (h : Path link p as none) {fuel : Nat} (hfuel : as.length ≤ fuel) :
    walk link fuel p = as := by
  induction as generalizing p fuel with
  | nil =>
    have hp : p = none := h
    subst hp
    cases fuel <;> rfl
  | cons a as ih =>
    obtain ⟨rfl, n, hn, hrest⟩ := h
    cases fuel with
    | zero => simp at hfuel
    | succ fuel =>
      simp only [walk, hn]
      rw [ih hrest (by simpa using hfuel)]

theorem link_head (h : Path link p (a :: as) none) : link a = some as.head? := by
  obtain ⟨-, n, hn, hrest⟩ := h
  rw [hn, start_eq_head hrest]

/-- Cutting `a` out: the block before `a`, or the start pointer when there is none, takes over
`a`'s link.  What the link of `a` itself becomes does not matter. -/
theorem unlink (h : Path link p (as ++ a :: bs) none)
    (hlast : ∀ b, as.getLast? = some b → link' b = some bs.head?)
    (hframe : ∀ c, as.getLast? ≠ some c → c ≠ a → link' c = link c) :
    Path link' (if as = [] then bs.head? else p) (as ++ bs) none := by
  have hnodup := List.nodup_append.mp (nodup h)
  have hcons := List.nodup_cons.mp hnodup.2.1
  obtain ⟨m, has, ha⟩ := append_iff.mp h
  obtain ⟨rfl, n, hn, hbs⟩ := ha
  rw [start_eq_head hbs] at hbs
  have hdisj : ∀ c ∈ bs, as.getLast? ≠ some c := by
    intro c hc he
    exact hnodup.2.2 c (List.mem_of_getLast? he) c (List.mem_cons_of_mem a hc) rfl
  have hbs' : Path link' bs.head? bs none :=
    hbs.congr fun c hc => hframe c (hdisj c hc) fun he => hcons.1 (he ▸ hc)
  rcases List.eq_nil_or_concat as with rfl | ⟨xs, b, rfl⟩
  · simpa using hbs'
  · simp only [List.concat_eq_append] at *
    have hlast' : (xs ++ [b]).getLast? = some b := by simp
    obtain ⟨k, hxs, hb⟩ := append_iff.mp has
    obtain ⟨rfl, -⟩ := hb
    have hnotXs : ∀ c ∈ xs, c ≠ b := by
      intro c hc
      exact (List.nodup_append.mp hnodup.1).2.2 c hc b List.mem_cons_self
    have hxs' : Path link' p xs (some b) := by
      refine hxs.congr fun c hc => hframe c ?_ ?_
      · rw [hlast']
        exact fun he => hnotXs c hc (Option.some.inj he).symm
      · exact hnodup.2.2 c (List.mem_append_left _ hc) a List.mem_cons_self
    simp only [List.append_eq_nil_iff, List.cons_ne_nil, and_false, if_false, List.append_assoc]
    exact append hxs' ⟨rfl, bs.head?, hlast b hlast', hbs'⟩

end Path

end FileStorage.Memory
