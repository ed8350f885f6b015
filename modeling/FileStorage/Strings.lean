import FileStorage.Utilities

/-!
# Strings — literals, searches and numbers in C strings
-/

namespace FileStorage

/-- A string literal. -/
def CStr.literal (s : String) : CStr := bufToStr (s.toList.map fun c => c.toNat.toUInt8)

/-! ## 1. Searching -/

/-- Where the last `c` stands. -/
def strrchr : List UInt8 → UInt8 → Option Nat
  | [], _ => none
  | b :: s, c =>
      match strrchr s c with
      | some i => some (i + 1)
      | none => if b = c then some 0 else none

theorem strrchr_eq_none {s : List UInt8} {c : UInt8} : strrchr s c = none ↔ c ∉ s := by
  induction s with
  | nil => simp [strrchr]
  | cons b s ih =>
    rw [strrchr]
    cases hs : strrchr s c with
    | some i =>
      have hmem : c ∈ s := by
        rw [hs] at ih
        simpa using ih
      simp [hmem]
    | none =>
      have hnot : c ∉ s := ih.mp hs
      simp [hnot, eq_comm]

/-- The last `c` has no other behind it. -/
theorem strrchr_eq_some {s : List UInt8} {c : UInt8} {i : Nat} :
    strrchr s c = some i ↔ ∃ before behind, s = before ++ c :: behind ∧ before.length = i ∧
      c ∉ behind := by
  induction s generalizing i with
  | nil => simp [strrchr]
  | cons b s ih =>
    rw [strrchr]
    cases hs : strrchr s c with
    | some j =>
      obtain ⟨before, behind, rfl, rfl, hnot⟩ := ih.mp hs
      constructor
      · intro h
        cases h
        exact ⟨b :: before, behind, rfl, rfl, hnot⟩
      · rintro ⟨before', behind', heq, rfl, hnot'⟩
        cases before' with
        | nil =>
          obtain ⟨-, rfl⟩ := List.cons.inj heq
          simp at hnot'
        | cons b' before' =>
          obtain ⟨-, heq⟩ := List.cons.inj heq
          have hsame := ih.mpr ⟨before', behind', heq, rfl, hnot'⟩
          rw [hs, Option.some.injEq] at hsame
          simp [hsame]
    | none =>
      have hnot : c ∉ s := strrchr_eq_none.mp hs
      constructor
      · intro h
        by_cases hb : b = c
        · rw [if_pos hb] at h
          cases h
          exact ⟨[], s, by rw [hb]; rfl, rfl, hnot⟩
        · rw [if_neg hb] at h
          cases h
      · rintro ⟨before, behind, heq, rfl, -⟩
        cases before with
        | nil =>
          obtain ⟨rfl, -⟩ := List.cons.inj heq
          simp
        | cons b' before =>
          obtain ⟨-, rfl⟩ := List.cons.inj heq
          simp at hnot

/-- The GNU one: the part behind the last slash, the string itself when there is none. -/
def basename (s : List UInt8) : List UInt8 :=
  match strrchr s 47 with
  | none => s
  | some i => s.drop (i + 1)

/-- The first call: the first token of a string. -/
def strtok (s : CStr) (delim : UInt8) : Option CStr :=
  let tokens := s.bytes.dropWhile (· = delim)
  if tokens = [] then none else some (bufToStr (tokens.takeWhile (· ≠ delim)))

/-! ## 2. Numbers -/

def isSpace (b : UInt8) : Bool := b = 32 ∨ 9 ≤ b ∧ b ≤ 13

def isDigit (b : UInt8) : Bool := 48 ≤ b ∧ b ≤ 57

/-- The number that decimal digits stand for. -/
def digitsValue (digits : List UInt8) : Nat :=
  digits.foldl (fun n b => 10 * n + (b.toNat - 48)) 0

/-- `(int) strtol(s, NULL, 10)`: spaces, a sign, digits; a number that is no `long` becomes the
closest one. -/
def atoi (s : List UInt8) : Int32 :=
  let s := s.dropWhile isSpace
  let digits := if s.head? = some 43 ∨ s.head? = some 45 then s.tail else s
  let number : Int := digitsValue (digits.takeWhile isDigit)
  if s.head? = some 45 then
    Int32.ofInt (max Int64.minValue.toInt (-number))
  else
    Int32.ofInt (min Int64.maxValue.toInt number)

end FileStorage
