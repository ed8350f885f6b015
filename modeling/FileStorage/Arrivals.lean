import Mathlib.Data.List.Nodup
import Mathlib.Data.List.Range
import Mathlib.Data.List.Perm.Basic

/-!
# Arrivals — in which order those who wait are served

Those who arrive are numbered.  They wait on a stack, so the latest is served first.
-/

namespace FileStorage

structure Arrivals where
  count : Nat
  waiting : List Nat  -- the latest first
  served : List Nat   -- the first one first
deriving DecidableEq

/-- Whoever is served comes after all who arrived earlier. -/
def ServedInOrder (served : List Nat) : Prop :=
  ∀ before i after, served = before ++ i :: after → ∀ j < i, j ∈ before

theorem servedInOrder_nil : ServedInOrder [] := by
  intro before i after h
  simp at h

theorem ServedInOrder.append_singleton_iff {served : List Nat} {i : Nat}
    (h : ServedInOrder served) : ServedInOrder (served ++ [i]) ↔ ∀ j < i, j ∈ served := by
  constructor
  · exact fun hall => hall served i [] rfl
  · intro hi before k after heq
    rcases List.eq_nil_or_concat after with rfl | ⟨after', x, rfl⟩
    · obtain ⟨rfl, rfl⟩ : served = before ∧ i = k := by simpa using heq
      exact hi
    · refine h before k after' ?_
      have hsplit : served ++ [i] = (before ++ k :: after') ++ [x] := by simpa using heq
      exact (List.append_inj' hsplit rfl).1

namespace Arrivals

/-- `n` wait already. -/
def start (n : Nat) : Arrivals := ⟨n, (List.range n).reverse, []⟩

def arrive (a : Arrivals) : Arrivals :=
  { a with count := a.count + 1, waiting := a.count :: a.waiting }

/-- The latest is served, if anybody waits. -/
def serve (a : Arrivals) : Arrivals :=
  { a with waiting := a.waiting.tail, served := a.served ++ a.waiting.head?.toList }

/-- Everybody who arrived either waits or was served. -/
structure Wf (a : Arrivals) : Prop where
  latest : a.waiting.Pairwise (· > ·)
  all : (a.waiting ++ a.served).Perm (List.range a.count)

theorem wf_start (n : Nat) : (start n).Wf where
  latest := List.pairwise_reverse.mpr List.pairwise_lt_range
  all := by
    show ((List.range n).reverse ++ []).Perm _
    rw [List.append_nil]
    exact List.reverse_perm _

namespace Wf

variable {a : Arrivals}

theorem mem_iff (h : a.Wf) {i : Nat} : i ∈ a.waiting ∨ i ∈ a.served ↔ i < a.count := by
  rw [← List.mem_append, h.all.mem_iff, List.mem_range]

theorem not_mem_served (h : a.Wf) {i : Nat} (hi : i ∈ a.waiting) : i ∉ a.served := by
  have hnodup : (a.waiting ++ a.served).Nodup := h.all.nodup_iff.mpr List.nodup_range
  exact fun hmem => (List.nodup_append.mp hnodup).2.2 i hi i hmem rfl

theorem arrive (h : a.Wf) : a.arrive.Wf where
  latest := List.pairwise_cons.mpr ⟨fun i hi => h.mem_iff.mp (Or.inl hi), h.latest⟩
  all := by
    show (a.count :: (a.waiting ++ a.served)).Perm (List.range (a.count + 1))
    rw [List.range_succ]
    exact (h.all.cons _).trans (List.perm_append_singleton _ _).symm

theorem serve (h : a.Wf) : a.serve.Wf := by
  cases hwaiting : a.waiting with
  | nil =>
    have hsame : a.serve = a := by
      cases a
      simp_all [Arrivals.serve]
    rwa [hsame]
  | cons i rest =>
    refine ⟨?_, ?_⟩
    · show a.waiting.tail.Pairwise _
      rw [hwaiting]
      exact (List.pairwise_cons.mp (hwaiting ▸ h.latest)).2
    · have hall := h.all
      show (a.waiting.tail ++ (a.served ++ a.waiting.head?.toList)).Perm _
      rw [hwaiting] at hall ⊢
      refine List.Perm.trans ?_ hall
      show (rest ++ (a.served ++ [i])).Perm (i :: (rest ++ a.served))
      rw [← List.append_assoc]
      exact List.perm_append_singleton _ _

/-- Serving the latest keeps the order exactly when nobody else waits. -/
theorem serve_inOrder_iff (h : a.Wf) (hin : ServedInOrder a.served) :
    ServedInOrder a.serve.served ↔ a.waiting.length ≤ 1 := by
  show ServedInOrder (a.served ++ a.waiting.head?.toList) ↔ _
  cases hwaiting : a.waiting with
  | nil => simpa using hin
  | cons i rest =>
    rw [List.head?_cons, Option.toList_some, hin.append_singleton_iff]
    have hmem : i ∈ a.waiting := hwaiting ▸ List.mem_cons_self
    cases rest with
    | nil =>
      refine iff_of_true (fun j hj => ?_) (Nat.le_refl _)
      -- an earlier one does not wait any more
      have hold := h.mem_iff.mpr (Nat.lt_trans hj (h.mem_iff.mp (Or.inl hmem)))
      refine hold.resolve_left fun hwaits => ?_
      rw [hwaiting, List.mem_singleton] at hwaits
      exact absurd hj (hwaits ▸ Nat.lt_irrefl _)
    | cons j rest =>
      refine iff_of_false (fun hall => ?_) (by simp)
      have hlatest := h.latest
      rw [hwaiting, List.pairwise_cons] at hlatest
      have hwaits : j ∈ a.waiting := by simp [hwaiting]
      exact h.not_mem_served hwaits (hall j (hlatest.1 j List.mem_cons_self))

end Wf

end Arrivals

end FileStorage
