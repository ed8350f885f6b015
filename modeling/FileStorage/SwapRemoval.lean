import Mathlib.Data.List.Perm.Basic
import Mathlib.Data.List.Count

/-!
# SwapRemoval — one pass that moves the last entry into every gap

The pass goes over an array from the front.  An entry that is to go is replaced by the last one, and
the pass goes on behind it: what was moved there is not looked at.
-/

namespace FileStorage.SwapRemoval

variable {α : Type} (dead : α → Bool)

/-- What the pass leaves. -/
def kept : List α → List α
  | [] => []
  | x :: xs =>
      if dead x then
        match xs.getLast? with
        | none => []
        | some last => last :: kept xs.dropLast
      else
        x :: kept xs
termination_by xs => xs.length
decreasing_by all_goals simp only [List.length_cons, List.length_dropLast]; omega

/-- What the pass takes out, in this order. -/
def removed : List α → List α
  | [] => []
  | x :: xs => if dead x then x :: removed xs.dropLast else removed xs
termination_by xs => xs.length
decreasing_by all_goals simp only [List.length_cons, List.length_dropLast]; omega

variable {dead} {x last : α} {xs : List α}

/-! ## 1. One entry -/

@[simp] theorem kept_nil : kept dead [] = [] := by rw [kept]

@[simp] theorem removed_nil : removed dead [] = [] := by rw [removed]

theorem kept_live (h : dead x = false) : kept dead (x :: xs) = x :: kept dead xs := by
  rw [kept, if_neg (by rw [h]; exact Bool.false_ne_true)]

theorem removed_live (h : dead x = false) : removed dead (x :: xs) = removed dead xs := by
  rw [removed, if_neg (by rw [h]; exact Bool.false_ne_true)]

theorem kept_alone (h : dead x = true) : kept dead [x] = [] := by
  rw [kept, if_pos h]
  rfl

theorem removed_alone (h : dead x = true) : removed dead [x] = [x] := by
  rw [removed, if_pos h, List.dropLast_nil, removed_nil]

theorem kept_swap (h : dead x = true) : kept dead (x :: (xs ++ [last])) = last :: kept dead xs := by
  rw [kept, if_pos h, List.getLast?_concat, List.dropLast_concat]

theorem removed_swap (h : dead x = true) :
    removed dead (x :: (xs ++ [last])) = x :: removed dead xs := by
  rw [removed, if_pos h, List.dropLast_concat]

/-- By the length of what is yet to be looked at: nothing, an entry that stays, the last one that
goes, and one that is replaced. -/
theorem pass_induction (dead : α → Bool) {motive : List α → Prop} (nil : motive [])
    (live : ∀ x xs, dead x = false → motive xs → motive (x :: xs))
    (alone : ∀ x, dead x = true → motive [x])
    (swap : ∀ x xs last, dead x = true → motive xs → motive (x :: (xs ++ [last]))) (l : List α) :
    motive l := by
  induction h : l.length using Nat.strongRecOn generalizing l with
  | ind n ih =>
    subst h
    cases l with
    | nil => exact nil
    | cons x xs =>
      cases hx : dead x with
      | false => exact live x xs hx (ih xs.length (Nat.lt_succ_self _) xs rfl)
      | true =>
        rcases List.eq_nil_or_concat xs with rfl | ⟨ys, last, rfl⟩
        · exact alone x hx
        · rw [List.concat_eq_append] at ih ⊢
          refine swap x ys last hx (ih ys.length ?_ ys rfl)
          simp only [List.length_cons, List.length_append, List.length_nil]
          omega

/-! ## 2. Nothing is lost -/

theorem kept_append_removed (dead : α → Bool) (l : List α) : (kept dead l ++ removed dead l).Perm l := by
  induction l using pass_induction dead with
  | nil => simp
  | live x xs hx ih =>
    rw [kept_live hx, removed_live hx]
    exact ih.cons x
  | alone x hx =>
    rw [kept_alone hx, removed_alone hx]
    exact List.Perm.refl _
  | swap x xs last hx ih =>
    rw [kept_swap hx, removed_swap hx]
    have hmoved : (x :: last :: xs).Perm (x :: (xs ++ [last])) :=
      (List.perm_append_singleton last xs).symm.cons x
    exact (List.perm_middle.trans ((ih.cons last).cons x)).trans hmoved

theorem dead_of_mem_removed {l : List α} : ∀ x ∈ removed dead l, dead x = true := by
  induction l using pass_induction dead with
  | nil => simp
  | live x xs hx ih =>
    rw [removed_live hx]
    exact ih
  | alone x hx =>
    rw [removed_alone hx]
    exact List.forall_mem_singleton.mpr hx
  | swap x xs last hx ih =>
    rw [removed_swap hx]
    exact List.forall_mem_cons.mpr ⟨hx, ih⟩

/-- The pass only looks at whether an entry is to go. -/
theorem map_pass {β : Type} (dead : α → Bool) (f : β → α) (l : List β) :
    kept dead (l.map f) = (kept (dead ∘ f) l).map f ∧
      removed dead (l.map f) = (removed (dead ∘ f) l).map f := by
  induction l using pass_induction (dead ∘ f) with
  | nil => simp
  | live x xs hx ih =>
    have hfx : dead (f x) = false := hx
    rw [List.map_cons, kept_live hfx, removed_live hfx, kept_live hx, removed_live hx, ih.1, ih.2]
    exact ⟨rfl, rfl⟩
  | alone x hx =>
    have hfx : dead (f x) = true := hx
    rw [List.map_singleton, kept_alone hfx, removed_alone hfx, kept_alone hx, removed_alone hx]
    exact ⟨rfl, rfl⟩
  | swap x xs last hx ih =>
    have hfx : dead (f x) = true := hx
    rw [List.map_cons, List.map_append, List.map_singleton, kept_swap hfx, removed_swap hfx,
      kept_swap hx, removed_swap hx, ih.1, ih.2]
    exact ⟨rfl, rfl⟩

/-! ## 3. When everything goes that is to go -/

/-- The entries that fill gaps are the last ones: all of these must stay, save one that may end up in
its own gap. -/
theorem kept_clean_iff (l : List α) :
    (∀ x ∈ kept dead l, dead x = false) ↔
      ∀ x ∈ l.drop (l.length + 1 - l.countP dead), dead x = false := by
  induction l using pass_induction dead with
  | nil => simp
  | live x xs hx ih =>
    have hle : xs.countP dead ≤ xs.length := List.countP_le_length
    have hdrop : (x :: xs).length + 1 - (x :: xs).countP dead =
        (xs.length + 1 - xs.countP dead) + 1 := by
      rw [List.countP_cons_of_neg (by rw [hx]; exact Bool.false_ne_true), List.length_cons]
      omega
    rw [kept_live hx, List.forall_mem_cons, hdrop, List.drop_succ_cons, ih]
    exact and_iff_right hx
  | alone x hx => simp [kept_alone hx, hx]
  | swap x xs last hx ih =>
    have hle : xs.countP dead ≤ xs.length := List.countP_le_length
    rw [kept_swap hx, List.forall_mem_cons, ih]
    cases hlast : dead last with
    | true =>
      -- the entry that is moved is to go itself
      have hmem : last ∈ (x :: (xs ++ [last])).drop
          ((x :: (xs ++ [last])).length + 1 - (x :: (xs ++ [last])).countP dead) := by
        have hcount : (x :: (xs ++ [last])).countP dead = xs.countP dead + 2 := by
          rw [List.countP_cons_of_pos hx, List.countP_append, List.countP_singleton, if_pos hlast]
        rw [hcount, ← List.cons_append, List.drop_append_of_le_length (by simp)]
        exact List.mem_append_right _ (List.mem_singleton.mpr rfl)
      refine ⟨fun h => absurd h.1 (by simp), fun h => ?_⟩
      rw [h last hmem] at hlast
      cases hlast
    | false =>
      have hcount : (x :: (xs ++ [last])).countP dead = xs.countP dead + 1 := by
        rw [List.countP_cons_of_pos hx, List.countP_append, List.countP_singleton,
          if_neg (by rw [hlast]; exact Bool.false_ne_true)]
      have hdrop : (x :: (xs ++ [last])).length + 1 - (x :: (xs ++ [last])).countP dead =
          (xs.length + 1 - xs.countP dead) + 1 := by
        rw [hcount]
        simp only [List.length_cons, List.length_append, List.length_nil]
        omega
      rw [hdrop, List.drop_succ_cons, List.drop_append]
      simp only [true_and, List.forall_mem_append]
      refine (and_iff_left ?_).symm
      intro y hy
      rw [List.mem_singleton.mp (List.mem_of_mem_drop hy), hlast]

variable {l : List α}

theorem kept_perm_of_clean (h : ∀ x ∈ kept dead l, dead x = false) :
    (kept dead l).Perm (l.filter fun x => !dead x) := by
  have hperm := (kept_append_removed dead l).filter fun x => !dead x
  rw [List.filter_append, List.filter_eq_self.mpr fun x hx => by rw [h x hx]; rfl,
    List.filter_eq_nil_iff.mpr fun x hx => by rw [dead_of_mem_removed x hx]; exact Bool.false_ne_true,
    List.append_nil] at hperm
  exact hperm

theorem removed_perm_of_clean (h : ∀ x ∈ kept dead l, dead x = false) :
    (removed dead l).Perm (l.filter dead) := by
  have hperm := (kept_append_removed dead l).filter dead
  rw [List.filter_append, List.filter_eq_self.mpr dead_of_mem_removed,
    List.filter_eq_nil_iff.mpr fun x hx => by rw [h x hx]; exact Bool.false_ne_true,
    List.nil_append] at hperm
  exact hperm

end FileStorage.SwapRemoval
