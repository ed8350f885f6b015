import FileStorage.Server.Worker

/-!
# WriteSizes — the two sizes in a `writeFile` payload

The handler adds both sizes to 16 as `size_t` and compares the sum with the length of the payload.
-/

namespace FileStorage.Server

/-- The payload starts with these two numbers. -/
structure HasSizes (buffer : List UInt8) (arg1Size arg2Size : Nat) : Prop where
  header : 16 ≤ buffer.length
  arg1 : bigEndianToU64 buffer = .ok arg1Size
  arg2 : bigEndianToU64 (buffer.drop 8) = .ok arg2Size

/-- The path and the contents lie inside the payload and, with the header, make it up. -/
structure SlicesCover (buffer : List UInt8) (arg1Size arg2Size : Nat) : Prop where
  path : 16 + arg1Size ≤ buffer.length
  contents : 16 + arg1Size + arg2Size ≤ buffer.length
  cover : 16 + arg1Size + arg2Size = buffer.length

theorem bigEndianToU64_lt {bytes : List UInt8} {n : Nat} (h : bigEndianToU64 bytes = .ok n) :
    n < wordSize := by
  have hlen : 8 ≤ bytes.length := by
    have := (u64ToBigEndian_bigEndianToU64 h).length_le
    simpa using this
  obtain ⟨m, hm, hread⟩ := bigEndianToU64_of_length hlen
  have hsame : (.ok m : Exec Nat) = .ok n := by
    rw [← h, ← hread [], List.append_nil]
  obtain rfl := Except.ok.inj hsame
  exact hm

namespace HasSizes

variable {buffer : List UInt8} {arg1Size arg2Size : Nat}

/-- What the handler makes of a payload with these sizes. -/
theorem writeFileArgs_eq (h : HasSizes buffer arg1Size arg2Size) :
    writeFileArgs buffer =
      if buffer.length ≠ wadd (wadd 16 arg1Size) arg2Size then .ok none
      else if buffer.length < 16 + arg1Size then .error .fault
      else .ok (some (bufToStr ((buffer.drop 16).take arg1Size),
        (buffer.drop (16 + arg1Size)).take arg2Size)) := by
  have hheader := h.header
  unfold writeFileArgs
  rw [if_neg (by omega), h.arg1, h.arg2]
  simp only [Exec.ok_bind, Exec.pure_eq_ok, Exec.throw_eq_error, List.length_drop,
    List.drop_drop]
  split
  · rfl
  · by_cases hfits : buffer.length < 16 + arg1Size
    · rw [if_pos hfits, if_pos (by omega)]
      rfl
    · rw [if_neg hfits, if_neg (by omega)]

/-- The checks of the handler are one equation of words. -/
theorem passes_iff (h : HasSizes buffer arg1Size arg2Size) :
    writeFileArgs buffer ≠ .ok none ↔ buffer.length = wadd (wadd 16 arg1Size) arg2Size := by
  rw [h.writeFileArgs_eq]
  split
  · rename_i hdiffer
    simp [hdiffer]
  · rename_i hsame
    rw [Decidable.not_not] at hsame
    split <;> simp [hsame]

/-- A sum that wraps sends the path behind the payload: both sizes are words. -/
theorem behind_of_wrap (h : HasSizes buffer arg1Size arg2Size)
    (hpass : buffer.length = wadd (wadd 16 arg1Size) arg2Size)
    (hwrap : wordSize ≤ 16 + arg1Size + arg2Size) : buffer.length < 16 + arg1Size := by
  have harg2 := bigEndianToU64_lt h.arg2
  simp only [wadd, wordSize] at *
  omega

end HasSizes

/-- A payload that passes the checks is the header, the path and the contents exactly when the sum
of the sizes is a word; it is then split there.  Otherwise the handler does not get as far as the
contents: the path is copied from behind the payload, or there is no block for it. -/
theorem writeFileArgs_slices {buffer : List UInt8} {arg1Size arg2Size : Nat}
    (hsizes : HasSizes buffer arg1Size arg2Size) (hpass : writeFileArgs buffer ≠ .ok none) :
    (SlicesCover buffer arg1Size arg2Size ↔ 16 + arg1Size + arg2Size < wordSize) ∧
      (SlicesCover buffer arg1Size arg2Size →
        writeFileArgs buffer = .ok (some (bufToStr ((buffer.drop 16).take arg1Size),
          (buffer.drop (16 + arg1Size)).take arg2Size))) ∧
      (¬ SlicesCover buffer arg1Size arg2Size → ∀ args, writeFileArgs buffer ≠ .ok args) := by
  rw [hsizes.passes_iff] at hpass
  have hiff : SlicesCover buffer arg1Size arg2Size ↔ 16 + arg1Size + arg2Size < wordSize := by
    constructor
    · intro hcover
      rw [hcover.cover, hpass]
      exact wadd_lt _ _
    · intro hlt
      rw [wadd_of_lt (show 16 + arg1Size < wordSize by omega), wadd_of_lt hlt] at hpass
      exact ⟨by omega, by omega, hpass.symm⟩
  refine ⟨hiff, fun hcover => ?_, fun hwrap => ?_⟩
  · have hpath := hcover.path
    rw [hsizes.writeFileArgs_eq, if_neg (by simpa using hpass), if_neg (by omega)]
  · rw [hiff, Nat.not_lt] at hwrap
    rw [hsizes.writeFileArgs_eq, if_neg (by simpa using hpass),
      if_pos (hsizes.behind_of_wrap hpass hwrap)]
    exact nofun

/-- Sizes 1 and 2 and three bytes behind them. -/
theorem writeFileArgs_slices_three :
    SlicesCover (u64ToBigEndian 1 ++ u64ToBigEndian 2 ++ [97, 7, 8]) 1 2 := by
  have hsizes : HasSizes (u64ToBigEndian 1 ++ u64ToBigEndian 2 ++ [97, 7, 8]) 1 2 :=
    ⟨by decide, by decide, by decide⟩
  exact (writeFileArgs_slices hsizes (by decide)).1.mpr (by decide)

/-- Sizes 2^64 - 1 and 1 pass the checks of a payload that is only the header. -/
theorem writeFileArgs_wraps :
    ¬ ∀ buffer arg1Size arg2Size, HasSizes buffer arg1Size arg2Size →
      writeFileArgs buffer ≠ .ok none → SlicesCover buffer arg1Size arg2Size := by
  intro hall
  have hsizes : HasSizes (u64ToBigEndian (2 ^ 64 - 1) ++ u64ToBigEndian 1) (2 ^ 64 - 1) 1 :=
    ⟨by decide, by decide, by decide⟩
  have hcover := hall _ _ _ hsizes (by decide)
  exact absurd hcover.path (by decide)

end FileStorage.Server
