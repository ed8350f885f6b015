import Mathlib.Data.List.Nodup
import Mathlib.Data.List.Basic

/-!
# Heap — blocks of one type behind C pointers

A heap keeps every block that was ever allocated under an address of its own.  Freeing a block
leaves its address empty for good, so reading through a stale pointer finds no block instead of
somebody else's.
-/

namespace FileStorage.Memory

abbrev Addr := Nat

/-- A C pointer; `none` is `NULL`. -/
abbrev Ptr := Option Addr

structure Heap (α : Type) where
  cells : List (Option α)
deriving DecidableEq, Repr

namespace Heap

variable {α β : Type}

def empty : Heap α := ⟨[]⟩

def read (h : Heap α) (a : Addr) : Option α := h.cells[a]?.join

/-- The address of the next block to be allocated. -/
def fresh (h : Heap α) : Addr := h.cells.length

def alloc (h : Heap α) (x : α) : Heap α := ⟨h.cells ++ [some x]⟩

def modify (h : Heap α) (a : Addr) (f : α → α) : Heap α := ⟨h.cells.modify a (Option.map f)⟩

/-- The same write through a pointer that may be `NULL`, which is then skipped. -/
def modifyAt (h : Heap α) (p : Ptr) (f : α → α) : Heap α := p.elim h fun a => h.modify a f

def free (h : Heap α) (a : Addr) : Heap α := ⟨h.cells.set a none⟩

/-- How many blocks are allocated and not yet freed. -/
def live (h : Heap α) : Nat := h.cells.countP Option.isSome

/-- One field of the block at `a`. -/
def field (h : Heap α) (f : α → β) (a : Addr) : Option β := (h.read a).map f

/-! ## 1. What each operation does to a read -/

@[simp] theorem read_empty (a : Addr) : (empty : Heap α).read a = none := by
  simp [empty, read]

theorem lt_fresh_of_read {h : Heap α} {a : Addr} {x : α} (hr : h.read a = some x) :
    a < h.fresh := by
  by_contra hge
  have hnone : h.cells[a]? = none := List.getElem?_eq_none (Nat.not_lt.mp hge)
  simp [read, hnone] at hr

@[simp] theorem read_fresh (h : Heap α) : h.read h.fresh = none := by
  simp [read, fresh]

theorem read_alloc (h : Heap α) (x : α) (a : Addr) :
    (h.alloc x).read a = if a = h.fresh then some x else h.read a := by
  unfold read alloc fresh
  rcases Nat.lt_trichotomy a h.cells.length with hlt | heq | hgt
  · rw [List.getElem?_append_left hlt, if_neg (Nat.ne_of_lt hlt)]
  · rw [if_pos heq, heq]
    simp
  · rw [if_neg (Nat.ne_of_gt hgt), List.getElem?_eq_none (by simp; omega),
      List.getElem?_eq_none (by omega)]

theorem read_modify (h : Heap α) (a : Addr) (f : α → α) (b : Addr) :
    (h.modify a f).read b = if a = b then (h.read b).map f else h.read b := by
  unfold read modify
  simp only [List.getElem?_modify]
  split
  · cases h.cells[b]? with
    | none => rfl
    | some c => cases c <;> rfl
  · cases h.cells[b]? with
    | none => rfl
    | some c => cases c <;> rfl

theorem read_free (h : Heap α) (a b : Addr) :
    (h.free a).read b = if a = b then none else h.read b := by
  unfold read free
  rw [List.getElem?_set]
  split
  · rename_i hab
    split <;> rfl
  · rfl

@[simp] theorem read_modify_self (h : Heap α) (a : Addr) (f : α → α) :
    (h.modify a f).read a = (h.read a).map f := by
  rw [read_modify, if_pos rfl]

theorem read_modify_of_ne (h : Heap α) {a b : Addr} (f : α → α) (hab : a ≠ b) :
    (h.modify a f).read b = h.read b := by
  rw [read_modify, if_neg hab]

theorem read_free_of_ne (h : Heap α) {a b : Addr} (hab : a ≠ b) :
    (h.free a).read b = h.read b := by
  rw [read_free, if_neg hab]

@[simp] theorem fresh_modify (h : Heap α) (a : Addr) (f : α → α) :
    (h.modify a f).fresh = h.fresh := by
  simp [fresh, modify]

@[simp] theorem fresh_free (h : Heap α) (a : Addr) : (h.free a).fresh = h.fresh := by
  simp [fresh, free]

@[simp] theorem fresh_alloc (h : Heap α) (x : α) : (h.alloc x).fresh = h.fresh + 1 := by
  simp [fresh, alloc]

theorem read_modifyAt_of_ne (h : Heap α) {p : Ptr} {b : Addr} (f : α → α) (hpb : p ≠ some b) :
    (h.modifyAt p f).read b = h.read b := by
  cases p with
  | none => rfl
  | some a => exact read_modify_of_ne h f fun hab => hpb (congrArg some hab)

theorem read_modifyAt_some {h : Heap α} {a : Addr} {x : α} (hr : h.read a = some x) (p : Ptr)
    (f : α → α) : ∃ y, (h.modifyAt p f).read a = some y := by
  by_cases hpa : p = some a
  · subst hpa
    exact ⟨f x, by simp [modifyAt, hr]⟩
  · exact ⟨x, (read_modifyAt_of_ne h f hpa).trans hr⟩

/-! ## 2. Fields -/

theorem field_eq_of_read {h : Heap α} {a : Addr} {x : α} (hr : h.read a = some x) (f : α → β) :
    h.field f a = some (f x) := by
  simp [field, hr]

theorem field_alloc (h : Heap α) (x : α) (f : α → β) (a : Addr) :
    (h.alloc x).field f a = if a = h.fresh then some (f x) else h.field f a := by
  unfold field
  rw [read_alloc]
  split <;> rfl

theorem field_modify (h : Heap α) (a : Addr) (g : α → α) (f : α → β) (b : Addr) :
    (h.modify a g).field f b = if a = b then h.field (f ∘ g) b else h.field f b := by
  unfold field
  rw [read_modify]
  split <;> simp [Function.comp_def]

theorem field_modify_of_ne (h : Heap α) {a b : Addr} (g : α → α) (f : α → β) (hab : a ≠ b) :
    (h.modify a g).field f b = h.field f b := by
  rw [field_modify, if_neg hab]

/-- A write to another field of a block leaves this field as it was. -/
theorem field_modify_frame (h : Heap α) (a : Addr) (g : α → α) (f : α → β)
    (hfg : ∀ x, f (g x) = f x) : (h.modify a g).field f = h.field f := by
  funext b
  rw [field_modify]
  split
  · simp [field, Function.comp_def, hfg]
  · rfl

theorem field_congr {h h' : Heap α} {a : Addr} (hr : h'.read a = h.read a) (f : α → β) :
    h'.field f a = h.field f a := by
  rw [field, hr, field]

theorem field_eq_some {h : Heap α} {a : Addr} {f : α → β} {y : β} (hf : h.field f a = some y) :
    ∃ x, h.read a = some x ∧ f x = y := by
  simpa [field] using hf

/-- What can still be read was there before the block was freed. -/
theorem field_of_free {h : Heap α} {a b : Addr} {f : α → β} {y : β}
    (hf : (h.free a).field f b = some y) : h.field f b = some y := by
  by_cases hab : a = b
  · simp [field, read_free, hab] at hf
  · rwa [field, read_free_of_ne h hab] at hf

theorem field_modifyAt_frame (h : Heap α) (p : Ptr) (g : α → α) (f : α → β)
    (hfg : ∀ x, f (g x) = f x) : (h.modifyAt p g).field f = h.field f := by
  cases p with
  | none => rfl
  | some a => exact field_modify_frame h a g f hfg

theorem field_modifyAt_self {h : Heap α} {a : Addr} {x : α} (hr : h.read a = some x) (g : α → α)
    (f : α → β) : (h.modifyAt (some a) g).field f a = some (f (g x)) := by
  simp [modifyAt, field, hr]

/-! ## 3. Counting the live blocks -/

theorem live_alloc (h : Heap α) (x : α) : (h.alloc x).live = h.live + 1 := by
  simp [live, alloc, List.countP_append]

theorem live_modify (h : Heap α) (a : Addr) (f : α → α) : (h.modify a f).live = h.live := by
  unfold live modify
  simp only
  rw [List.modify_eq_take_drop]
  conv_rhs => rw [← List.take_append_drop a h.cells]
  rw [List.countP_append, List.countP_append]
  congr 1
  cases h.cells.drop a with
  | nil => rfl
  | cons c cs => cases c <;> simp

@[simp] theorem live_modifyAt (h : Heap α) (p : Ptr) (f : α → α) :
    (h.modifyAt p f).live = h.live := by
  cases p with
  | none => rfl
  | some a => exact live_modify h a f

theorem live_free {h : Heap α} {a : Addr} {x : α} (hr : h.read a = some x) :
    (h.free a).live + 1 = h.live := by
  have hlt : a < h.cells.length := lt_fresh_of_read hr
  have hget : h.cells[a] = some x := by
    simpa [read, List.getElem?_eq_getElem hlt] using hr
  unfold live free
  simp only
  rw [List.set_eq_take_append_cons_drop, if_pos hlt]
  conv_rhs => rw [← List.take_append_drop a h.cells, List.drop_eq_getElem_cons hlt, hget]
  simp [List.countP_append]
  omega

/-- Distinct live addresses are no more than the live blocks. -/
theorem length_le_live (h : Heap α) (as : List Addr) (hnodup : as.Nodup)
    (hlive : ∀ a ∈ as, (h.read a).isSome) : as.length ≤ h.live := by
  induction as generalizing h with
  | nil => exact Nat.zero_le _
  | cons a as ih =>
    obtain ⟨x, hx⟩ := Option.isSome_iff_exists.mp (hlive a List.mem_cons_self)
    have hnot := (List.nodup_cons.mp hnodup).1
    have hrest : ∀ b ∈ as, ((h.free a).read b).isSome := by
      intro b hb
      have hne : a ≠ b := fun he => hnot (he ▸ hb)
      rw [read_free_of_ne h hne]
      exact hlive b (List.mem_cons_of_mem a hb)
    have hle := ih (h.free a) (List.nodup_cons.mp hnodup).2 hrest
    have hdec := live_free hx
    simp only [List.length_cons]
    omega

/-- Distinct live addresses, as many as the live blocks, are all of them. -/
theorem mem_of_live_le (h : Heap α) {as : List Addr} (hnodup : as.Nodup)
    (hlive : ∀ a ∈ as, (h.read a).isSome) (hle : h.live ≤ as.length) {a : Addr}
    (ha : (h.read a).isSome) : a ∈ as := by
  by_contra hnot
  have hmore := length_le_live h (a :: as) (List.nodup_cons.mpr ⟨hnot, hnodup⟩)
    (List.forall_mem_cons.mpr ⟨ha, hlive⟩)
  rw [List.length_cons] at hmore
  omega

/-- Distinct addresses of blocks are fewer than all addresses ever handed out. -/
theorem length_le_fresh (h : Heap α) (as : List Addr) (hnodup : as.Nodup)
    (hlive : ∀ a ∈ as, (h.read a).isSome) : as.length ≤ h.fresh :=
  Nat.le_trans (length_le_live h as hnodup hlive) List.countP_le_length

/-- The addresses of all blocks are as many as the live blocks. -/
theorem live_eq_length (h : Heap α) (as : List Addr) (hnodup : as.Nodup)
    (hlive : ∀ a, a ∈ as ↔ (h.read a).isSome) : h.live = as.length := by
  induction as generalizing h with
  | nil =>
    refine List.countP_eq_zero.mpr fun cell hcell hsome => ?_
    obtain ⟨a, ha⟩ := List.mem_iff_getElem?.mp hcell
    have hread : h.read a = cell := by rw [read, ha, Option.join_some]
    exact List.not_mem_nil ((hlive a).mpr (hread ▸ hsome))
  | cons a as ih =>
    obtain ⟨hnot, hnodup'⟩ := List.nodup_cons.mp hnodup
    obtain ⟨x, hx⟩ := Option.isSome_iff_exists.mp ((hlive a).mp List.mem_cons_self)
    have hrest := ih (h.free a) hnodup' fun b => by
      by_cases hab : a = b
      · subst hab
        simp [read_free, hnot]
      · rw [read_free_of_ne h hab, ← hlive, List.mem_cons]
        simp [Ne.symm hab]
    have hdec := live_free hx
    rw [List.length_cons]
    omega

end Heap

end FileStorage.Memory
