/-!
# Word — 64-bit unsigned arithmetic on naturals
-/

namespace FileStorage

/-- One more than the largest `size_t`, 2^64. -/
abbrev wordSize : Nat := 0x10000000000000000

/-- One more than the largest `unsigned`, 2^32. -/
abbrev unsignedSize : Nat := 0x100000000

/-- `a + b` on `size_t` operands. -/
def wadd (a b : Nat) : Nat := (a + b) % wordSize

/-- `a - b` on `size_t` operands. -/
def wsub (a b : Nat) : Nat := if b ≤ a then a - b else a + wordSize - b

theorem wordSize_pos : 0 < wordSize := Nat.zero_lt_succ _

theorem wadd_lt (a b : Nat) : wadd a b < wordSize := Nat.mod_lt _ wordSize_pos

theorem wadd_of_lt {a b : Nat} (h : a + b < wordSize) : wadd a b = a + b := Nat.mod_eq_of_lt h

theorem wsub_of_le {a b : Nat} (h : b ≤ a) : wsub a b = a - b := if_pos h

theorem wsub_pos {a b : Nat} (hb : b < wordSize) (hne : a ≠ b) : 0 < wsub a b := by
  simp only [wsub]
  split <;> omega

theorem wsub_eq_zero {a b : Nat} (hb : b < wordSize) : wsub a b = 0 ↔ a = b := by
  constructor
  · intro hzero
    exact Decidable.byContradiction fun hne => absurd hzero (Nat.ne_of_gt (wsub_pos hb hne))
  · rintro rfl
    rw [wsub_of_le (Nat.le_refl _), Nat.sub_self]

theorem wadd_wsub_self {a b : Nat} (ha : a < wordSize) (hb : b < wordSize) :
    wadd b (wsub a b) = a := by
  simp only [wadd, wsub, wordSize] at *
  split <;> omega

/-- When taking `b` off the sum again stays below it, the sum did not wrap. -/
theorem add_lt_of_wsub_wadd {a b : Nat} (ha : a < wordSize)
    (h : wsub (wadd a b) b + b ≤ wadd a b) : a + b < wordSize := by
  refine Nat.lt_of_not_le fun hover => ?_
  have hlt := wadd_lt a b
  have hwrapped : wadd a b < b := by
    simp only [wadd, wordSize] at *
    omega
  rw [wsub, if_neg (Nat.not_le.mpr hwrapped)] at h
  omega

/-- Both operations are the ones on integers, modulo 2^64. -/
theorem wadd_emod {a b : Nat} {x : Int} (h : (a : Int) = x % wordSize) :
    (wadd a b : Int) = (x + b) % wordSize := by
  simp only [wadd, wordSize] at *
  omega

theorem wsub_emod {a b : Nat} {x : Int} (h : (a : Int) = x % wordSize) (hb : b < wordSize) :
    (wsub a b : Int) = (x - b) % wordSize := by
  simp only [wsub, wordSize] at *
  split <;> omega

end FileStorage
