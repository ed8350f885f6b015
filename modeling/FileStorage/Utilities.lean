import FileStorage.Exec
import FileStorage.Word
import Mathlib.Algebra.GroupWithZero.Nat
import Mathlib.Data.List.Induction
import Mathlib.Data.List.TakeWhile

/-!
# Utilities — strings, byte buffers and the fallible allocator
-/

namespace FileStorage

/-- A C string: the bytes before its terminating NUL. -/
structure CStr where
  bytes : List UInt8
  noNul : 0 ∉ bytes
deriving DecidableEq

def CStr.strlen (s : CStr) : Nat := s.bytes.length

/-- The NUL that `buf_to_str` appends ends the string unless the buffer holds an earlier one. -/
def bufToStr (buf : List UInt8) : CStr where
  bytes := buf.takeWhile (· ≠ 0)
  noNul := fun hmem => by simpa using List.mem_takeWhile_imp hmem

/-- What the table calls outside this repository: the XXH64 hash and the allocator's `realloc`. -/
structure Platform where
  xxh64 : CStr → Nat
  /-- Whether `realloc` of a block, or of `NULL` (`true`), to this many bytes succeeds. -/
  grants : Bool → Nat → Bool

/-- XXH64 with seed 0 of fewer than four bytes. -/
def xxh64Short (bytes : List UInt8) : Nat :=
  let mixed := bytes.foldl (fun h b =>
    let x := h ^^^ (b.toNat * 0x27D4EB2F165667C5 % wordSize)
    (x <<< 11 % wordSize ||| x >>> 53) * 0x9E3779B185EBCA87 % wordSize)
    ((0x27D4EB2F165667C5 + bytes.length) % wordSize)
  let h := (mixed ^^^ mixed >>> 33) * 0xC2B2AE3D27D4EB4F % wordSize
  let h := (h ^^^ h >>> 29) * 0x165667B19E3779F9 % wordSize
  h ^^^ h >>> 32

/-- A platform to run examples on: the hash is exact on keys of fewer than four bytes, and only
shrinking a block to nothing gives `NULL`. -/
def samplePlatform : Platform where
  xxh64 := fun key => xxh64Short key.bytes
  grants := fun isNull size => isNull || decide (0 < size)

/-- The old bytes that still fit; fresh bytes are indeterminate, here 0. -/
def resize (block : List UInt8) (size : Nat) : List UInt8 :=
  block.take size ++ List.replicate (size - block.length) 0

/-- `size` is a `size_t`: no allocator grants a block of 2^64 bytes. -/
def xrealloc (P : Platform) (buf : Option (List UInt8)) (size : Nat) : Exec (List UInt8) :=
  if size < wordSize ∧ P.grants buf.isNone size then
    .ok (resize (buf.getD []) size)
  else
    .error .exit

/-- `memcpy` of the whole of `src` to `dst + offset`. -/
def memcpy (dst : List UInt8) (offset : Nat) (src : List UInt8) : Exec (List UInt8) :=
  if offset + src.length ≤ dst.length then
    .ok (dst.take offset ++ src ++ dst.drop (offset + src.length))
  else
    .error .fault

/-- `n |= (uint64_t)(bytes[i]) << (56 - 8 * i)` over the eight bytes. -/
def bigEndianToU64 (bytes : List UInt8) : Exec Nat :=
  match bytes with
  | b0 :: b1 :: b2 :: b3 :: b4 :: b5 :: b6 :: b7 :: _ =>
      .ok (b0.toNat <<< 56 ||| b1.toNat <<< 48 ||| b2.toNat <<< 40 ||| b3.toNat <<< 32 |||
        b4.toNat <<< 24 ||| b5.toNat <<< 16 ||| b6.toNat <<< 8 ||| b7.toNat)
  | _ => .error .fault

def u64ToBigEndian (data : Nat) : List UInt8 :=
  [(data >>> 56).toUInt8, (data >>> 48).toUInt8, (data >>> 40).toUInt8, (data >>> 32).toUInt8,
    (data >>> 24).toUInt8, (data >>> 16).toUInt8, (data >>> 8).toUInt8, data.toUInt8]

/-- `nanosleep` refuses a negative interval every time; the product wraps. -/
def waitMsec (msec : Int32) : Exec Unit :=
  let tvNsec := msec * 1000 % 1000000
  let tvSec := msec / 1000
  if tvNsec < 0 ∨ tvSec < 0 then
    .error .diverge
  else
    .ok ()

theorem resize_length (block : List UInt8) (size : Nat) : (resize block size).length = size := by
  simp [resize]
  omega

theorem resize_of_ge {block : List UInt8} {size : Nat} (h : block.length ≤ size) :
    resize block size = block ++ List.replicate (size - block.length) 0 := by
  rw [resize, List.take_of_length_le h]

theorem xrealloc_eq_ok {P : Platform} {buf : Option (List UInt8)} {size : Nat}
    {block : List UInt8} :
    xrealloc P buf size = .ok block ↔
      (size < wordSize ∧ P.grants buf.isNone size) ∧ block = resize (buf.getD []) size := by
  unfold xrealloc
  split
  · rename_i h
    simp [h, eq_comm]
  · rename_i h
    simp [h]

/-- The source replaces as many bytes behind `old`. -/
theorem memcpy_behind (old : List UInt8) {pad src : List UInt8} (h : src.length ≤ pad.length) :
    memcpy (old ++ pad) old.length src = .ok (old ++ src ++ pad.drop src.length) := by
  unfold memcpy
  rw [if_pos (by rw [List.length_append]; omega), List.take_left, ← List.drop_drop,
    List.drop_left]

/-- Overwriting a whole block leaves exactly the source. -/
theorem memcpy_zero {dst src : List UInt8} (h : dst.length = src.length) :
    memcpy dst 0 src = .ok src := by
  have hcopy := memcpy_behind [] (Nat.le_of_eq h.symm)
  rwa [List.drop_eq_nil_of_le (Nat.le_of_eq h), List.append_nil] at hcopy

/-- Filling the room behind `old` appends the source to it. -/
theorem memcpy_append (old src pad : List UInt8) (h : pad.length = src.length) :
    memcpy (old ++ pad) old.length src = .ok (old ++ src) := by
  rw [memcpy_behind old (Nat.le_of_eq h.symm), List.drop_eq_nil_of_le (Nat.le_of_eq h),
    List.append_nil]

theorem memcpy_inside {dst src block : List UInt8} {offset : Nat}
    (h : memcpy dst offset src = .ok block) : offset + src.length ≤ dst.length := by
  unfold memcpy at h
  split at h
  · assumption
  · cases h

/-! ## Big endian numbers -/

/-- Bits below a shifted number are added to it. -/
theorem shiftLeft_or {x y i : Nat} (h : y < 2 ^ i) : x <<< i ||| y = x * 2 ^ i + y := by
  rw [← Nat.shiftLeft_add_eq_or_of_lt h, Nat.shiftLeft_eq]

theorem bigEndianToU64_cons (b0 b1 b2 b3 b4 b5 b6 b7 : UInt8) (rest : List UInt8) :
    bigEndianToU64 (b0 :: b1 :: b2 :: b3 :: b4 :: b5 :: b6 :: b7 :: rest) =
      .ok (b0.toNat * 2 ^ 56 + (b1.toNat * 2 ^ 48 + (b2.toNat * 2 ^ 40 + (b3.toNat * 2 ^ 32 +
        (b4.toNat * 2 ^ 24 + (b5.toNat * 2 ^ 16 + (b6.toNat * 2 ^ 8 + b7.toNat))))))) := by
  have h1 := b1.toNat_lt
  have h2 := b2.toNat_lt
  have h3 := b3.toNat_lt
  have h4 := b4.toNat_lt
  have h5 := b5.toNat_lt
  have h6 := b6.toNat_lt
  have h7 := b7.toNat_lt
  unfold bigEndianToU64
  simp only [Nat.or_assoc]
  -- from the last byte to the first, each byte lies above the sum so far
  rw [shiftLeft_or (x := b6.toNat) (i := 8) (by omega),
    shiftLeft_or (x := b5.toNat) (i := 16) (by omega),
    shiftLeft_or (x := b4.toNat) (i := 24) (by omega),
    shiftLeft_or (x := b3.toNat) (i := 32) (by omega),
    shiftLeft_or (x := b2.toNat) (i := 40) (by omega),
    shiftLeft_or (x := b1.toNat) (i := 48) (by omega),
    shiftLeft_or (x := b0.toNat) (i := 56) (by omega)]

@[simp] theorem u64ToBigEndian_length (n : Nat) : (u64ToBigEndian n).length = 8 := rfl

/-- The number that bytes stand for, the most significant one first. -/
def bigEndianValue (bytes : List UInt8) : Nat := bytes.foldl (fun n b => n * 256 + b.toNat) 0

theorem bigEndianValue_concat (bytes : List UInt8) (b : UInt8) :
    bigEndianValue (bytes ++ [b]) = bigEndianValue bytes * 256 + b.toNat := by
  rw [bigEndianValue, List.foldl_append]
  rfl

theorem bigEndianValue_append (xs ys : List UInt8) :
    bigEndianValue (xs ++ ys) = bigEndianValue xs * 256 ^ ys.length + bigEndianValue ys := by
  induction ys using List.reverseRecOn with
  | nil => simp [bigEndianValue]
  | append_singleton ys b ih =>
    rw [← List.append_assoc, bigEndianValue_concat, bigEndianValue_concat, ih, List.length_append,
      List.length_singleton, Nat.pow_succ, Nat.add_mul, Nat.mul_assoc, Nat.add_assoc]

theorem bigEndianValue_lt (bytes : List UInt8) : bigEndianValue bytes < 256 ^ bytes.length := by
  induction bytes using List.reverseRecOn with
  | nil => exact Nat.one_pos
  | append_singleton bytes b ih =>
    have hb := b.toNat_lt
    rw [bigEndianValue_concat, List.length_append, List.length_singleton, Nat.pow_succ]
    omega

theorem bigEndianValue_zeros (bytes : List UInt8) (k : Nat) :
    bigEndianValue (bytes ++ List.replicate k 0) = bigEndianValue bytes * 256 ^ k := by
  induction k with
  | zero => rw [List.replicate_zero, List.append_nil, Nat.pow_zero, Nat.mul_one]
  | succ k ih =>
    rw [List.replicate_succ', ← List.append_assoc, bigEndianValue_concat, ih, Nat.pow_succ,
      Nat.mul_assoc]
    rfl

theorem bigEndianToU64_append {bytes : List UInt8} (h : bytes.length = 8) (rest : List UInt8) :
    bigEndianToU64 (bytes ++ rest) = .ok (bigEndianValue bytes) := by
  match bytes, h with
  | [b0, b1, b2, b3, b4, b5, b6, b7], _ =>
    refine (bigEndianToU64_cons b0 b1 b2 b3 b4 b5 b6 b7 rest).trans (congrArg Except.ok ?_)
    simp only [bigEndianValue, List.foldl_cons, List.foldl_nil]
    omega

theorem u64ToBigEndian_eq_map (n : Nat) :
    u64ToBigEndian n = (List.range 8).map fun k => (n >>> (8 * (7 - k))).toUInt8 := rfl

theorem toNat_toUInt8_shiftRight (n k : Nat) :
    (n >>> (8 * k)).toUInt8.toNat = n / 256 ^ k % 256 := by
  rw [Nat.toUInt8_eq, UInt8.toNat_ofNat', Nat.shiftRight_eq_div_pow, Nat.pow_mul]

/-- The first `j` bytes of a number are what is left of it without the other ones. -/
theorem bigEndianValue_take {n : Nat} (hn : n < wordSize) {j : Nat} (hj : j ≤ 8) :
    bigEndianValue ((u64ToBigEndian n).take j) = n / 256 ^ (8 - j) := by
  induction j with
  | zero => exact (Nat.div_eq_of_lt hn).symm
  | succ j ih =>
    have hstep : (u64ToBigEndian n).take (j + 1) =
        (u64ToBigEndian n).take j ++ [(n >>> (8 * (7 - j))).toUInt8] := by
      rw [List.take_add_one, u64ToBigEndian_eq_map, List.getElem?_map,
        List.getElem?_range (by omega)]
      rfl
    have hpow : 256 ^ (8 - j) = 256 ^ (7 - j) * 256 := by
      rw [← Nat.pow_succ, show 8 - j = (7 - j).succ by omega]
    rw [hstep, bigEndianValue_concat, ih (by omega), hpow, ← Nat.div_div_eq_div_mul,
      toNat_toUInt8_shiftRight, show 8 - (j + 1) = 7 - j by omega]
    exact Nat.div_add_mod' _ 256

theorem bigEndianToU64_u64ToBigEndian {n : Nat} (h : n < wordSize) (rest : List UInt8) :
    bigEndianToU64 (u64ToBigEndian n ++ rest) = .ok n := by
  have hvalue := bigEndianValue_take h (Nat.le_refl 8)
  rw [List.take_of_length_le (Nat.le_of_eq (u64ToBigEndian_length n)), Nat.sub_self, Nat.pow_zero,
    Nat.div_one] at hvalue
  rw [bigEndianToU64_append (u64ToBigEndian_length n), hvalue]

/-- Eight bytes are those of their number. -/
theorem u64ToBigEndian_bigEndianValue {bytes : List UInt8} (h : bytes.length = 8) :
    u64ToBigEndian (bigEndianValue bytes) = bytes := by
  refine List.ext_getElem h.symm fun k _ hk => ?_
  -- the bytes up to this one are the number without those behind it
  have hlength : (bytes.drop (k + 1)).length = 7 - k := by
    rw [List.length_drop]
    omega
  have hlt := bigEndianValue_lt (bytes.drop (k + 1))
  have hsplit := bigEndianValue_append (bytes.take (k + 1)) (bytes.drop (k + 1))
  rw [List.take_append_drop, hlength] at hsplit
  rw [hlength] at hlt
  have hdiv : bigEndianValue bytes / 256 ^ (7 - k) = bigEndianValue (bytes.take (k + 1)) := by
    rw [hsplit, Nat.mul_comm, Nat.mul_add_div (Nat.pow_pos (by decide)), Nat.div_eq_of_lt hlt,
      Nat.add_zero]
  have hbyte := (bytes[k]).toNat_lt
  rw [List.take_succ_eq_append_getElem hk, bigEndianValue_concat] at hdiv
  simp only [u64ToBigEndian_eq_map, List.getElem_map, List.getElem_range]
  rw [← UInt8.toNat_inj, toNat_toUInt8_shiftRight, hdiv]
  omega

theorem bigEndianToU64_short {bytes : List UInt8} (h : bytes.length < 8) :
    bigEndianToU64 bytes = .error .fault := by
  unfold bigEndianToU64
  split
  · simp only [List.length_cons] at h
    omega
  · rfl

/-- A number is read off eight bytes, and others may follow. -/
theorem bigEndianToU64_eq_ok {bytes : List UInt8} {n : Nat} :
    bigEndianToU64 bytes = .ok n ↔ 8 ≤ bytes.length ∧ bigEndianValue (bytes.take 8) = n := by
  rcases Nat.lt_or_ge bytes.length 8 with hlt | hge
  · rw [bigEndianToU64_short hlt]
    exact iff_of_false nofun fun h => absurd h.1 (Nat.not_le.mpr hlt)
  · have happend := bigEndianToU64_append (List.length_take_of_le hge) (bytes.drop 8)
    rw [List.take_append_drop] at happend
    rw [happend, Except.ok.injEq, and_iff_right hge]

/-- The number of eight bytes has these bytes. -/
theorem u64ToBigEndian_bigEndianToU64 {bytes : List UInt8} {n : Nat}
    (hx : bigEndianToU64 bytes = .ok n) : u64ToBigEndian n <+: bytes := by
  obtain ⟨hlength, rfl⟩ := bigEndianToU64_eq_ok.mp hx
  rw [u64ToBigEndian_bigEndianValue (List.length_take_of_le hlength)]
  exact List.take_prefix 8 bytes

/-- Eight bytes are a number, whatever follows them. -/
theorem bigEndianToU64_of_length {bytes : List UInt8} (h : 8 ≤ bytes.length) :
    ∃ n < wordSize, ∀ rest, bigEndianToU64 (bytes ++ rest) = .ok n := by
  refine ⟨bigEndianValue (bytes.take 8), ?_, fun rest => bigEndianToU64_eq_ok.mpr ⟨?_, ?_⟩⟩
  · have hlt := bigEndianValue_lt (bytes.take 8)
    rwa [List.length_take_of_le h] at hlt
  · rw [List.length_append]
    omega
  · rw [List.take_append_of_le_length h]

end FileStorage
