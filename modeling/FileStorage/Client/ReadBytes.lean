import FileStorage.Client.EndOfStream
import Mathlib.Data.Set.Finite.Lattice

/-!
# ReadBytes — the read loop on a descriptor that can fail

A `read` gives some of the bytes that it was asked for, or it is interrupted, fails or meets the end
of the stream.  `read_bytes` keeps the number of bytes of one `read` in an `int`, and it returns its
`size_t` as one.
-/

namespace FileStorage.Client.ReadBytes

/-! ## 1. The code -/

/-- What one `read` gives. -/
inductive Answer where
  | bytes (first : UInt8) (rest : List UInt8)
  | interrupted   -- -1 with `EINTR`
  | failed        -- -1 with any other `errno`
  | endOfStream
deriving DecidableEq

/-- The bytes that come in when `left` are asked for. -/
def Answer.given (left : Nat) : Answer → List UInt8
  | .bytes first rest => (first :: rest).take left
  | _ => []

/-- The variables of `read_bytes`.  The block at `buf` has `size` bytes, `bufptr` is counted from its
start, and `eintr` is whether `errno` is `EINTR`. -/
structure Loop where
  left : Nat
  bufptr : Int
  buf : List UInt8
  eintr : Bool

/-- Where `read_bytes` is: in front of a `read`, or done. -/
inductive Point where
  | reading (l : Loop)
  | returned (result : Int32) (buf : List UInt8)
  | fault   -- bytes were stored outside of the block

/-- The condition of the loop, and the `return` behind it. -/
def Loop.test (size : Nat) (l : Loop) : Point :=
  if 0 < l.left then .reading l else .returned (Int32.ofNat size) l.buf

def storeAt (buf : List UInt8) (bufptr : Int) (bytes : List UInt8) : Exec (List UInt8) :=
  if bufptr < 0 then .error .fault else memcpy buf bufptr.toNat bytes

/-- One `read` and what follows it. -/
def Loop.next (size : Nat) (l : Loop) : Answer → Point
  | .interrupted => Loop.test size { l with eintr := true }
  | .failed => .returned (-1) l.buf
  | .endOfStream => .returned 0 l.buf
  | .bytes first rest =>
      let bytes := (Answer.bytes first rest).given l.left
      match storeAt l.buf l.bufptr bytes with
      | .error _ => .fault
      | .ok buf =>
          -- the `ssize_t` of `read` goes into an `int`
          let r := Int32.ofNat bytes.length
          if r = -1 then
            -- `errno` is still that of an earlier call
            if l.eintr then Loop.test size { l with buf } else .returned (-1) buf
          else if r = 0 then
            .returned 0 buf
          else
            Loop.test size
              { l with
                left := (((l.left : Int) - r.toInt) % wordSize).toNat
                bufptr := l.bufptr + r.toInt
                buf }

/-- `read_bytes` into the whole of `buf`, after `n` reads; `eintr` is what `errno` was before. -/
def readBytes (answers : Nat → Answer) (eintr : Bool) (buf : List UInt8) : Nat → Point
  | 0 => Loop.test buf.length { left := buf.length, bufptr := 0, buf, eintr }
  | n + 1 =>
      match readBytes answers eintr buf n with
      | .reading l => l.next buf.length (answers n)
      | p => p

/-! ## 2. What has come in -/

/-- The bytes of the first `n` reads, when each asks for those that are still missing. -/
def delivered (answers : Nat → Answer) (size : Nat) : Nat → List UInt8
  | 0 => []
  | n + 1 => delivered answers size n ++
      (answers n).given (size - (delivered answers size n).length)

/-- How many bytes the `n`-th read gives. -/
def count (answers : Nat → Answer) (size n : Nat) : Nat :=
  ((answers n).given (size - (delivered answers size n).length)).length

/-- The block with these bytes in front. -/
def filled (answers : Nat → Answer) (buf : List UInt8) (n : Nat) : List UInt8 :=
  delivered answers buf.length n ++ buf.drop (delivered answers buf.length n).length

inductive Ending where
  | whole
  | endOfStream
  | failed
deriving DecidableEq

/-- The outcome, if the `n`-th read settles it. -/
def decides (answers : Nat → Answer) (size n : Nat) : Option Ending :=
  match answers n with
  | .bytes _ _ => if (delivered answers size (n + 1)).length = size then some .whole else none
  | .interrupted => none
  | .failed => some .failed
  | .endOfStream => some .endOfStream

def Undecided (answers : Nat → Answer) (size n : Nat) : Prop :=
  ∀ i < n, decides answers size i = none

/-- The `n`-th read settles the outcome, and no earlier one does. -/
def ComesFirst (answers : Nat → Answer) (size n : Nat) (e : Ending) : Prop :=
  decides answers size n = some e ∧ Undecided answers size n

/-- What `read_bytes` is for. -/
structure ReadsRight (answers : Nat → Answer) (eintr : Bool) (buf : List UInt8) : Prop where
  terminates : {i | answers i = .interrupted}.Finite →
    ∃ n result buf', readBytes answers eintr buf n = .returned result buf'
  inBounds : ∀ n, readBytes answers eintr buf n ≠ .fault
  /-- Every `read` is asked to fill the rest of the block, behind the bytes that came in. -/
  contiguous : ∀ n l, readBytes answers eintr buf n = .reading l →
    l.bufptr = (delivered answers buf.length n).length ∧
      l.left + (delivered answers buf.length n).length = buf.length ∧
      l.buf = filled answers buf n
  /-- After the last `read` the block holds what came in, and the result tells the outcome. -/
  result : ∀ n l result buf', readBytes answers eintr buf n = .reading l →
    readBytes answers eintr buf (n + 1) = .returned result buf' →
    buf' = filled answers buf (n + 1) ∧ (∃ e, ComesFirst answers buf.length n e) ∧
      (result.toInt = buf.length ↔ ComesFirst answers buf.length n .whole) ∧
      (result = 0 ↔ ComesFirst answers buf.length n .endOfStream) ∧
      (result = -1 ↔ ComesFirst answers buf.length n .failed)

/-- No read gives 2^31 bytes or more while the outcome is open. -/
def Narrow (answers : Nat → Answer) (size : Nat) : Prop :=
  ∀ n, Undecided answers size n → count answers size n < 2 ^ 31

/-! ## 3. The bytes that came in -/

variable {answers : Nat → Answer} {eintr : Bool} {buf : List UInt8} {size n : Nat}

theorem given_length_le (left : Nat) (answer : Answer) : (answer.given left).length ≤ left := by
  cases answer with
  | bytes first rest => exact List.length_take_le _ _
  | interrupted | failed | endOfStream => exact Nat.zero_le _

theorem given_pos {left : Nat} (h : 0 < left) (first : UInt8) (rest : List UInt8) :
    0 < ((Answer.bytes first rest).given left).length := by
  rw [Answer.given, List.length_take, List.length_cons]
  omega

theorem delivered_length_succ (answers : Nat → Answer) (size n : Nat) :
    (delivered answers size (n + 1)).length =
      (delivered answers size n).length + count answers size n := by
  rw [delivered, List.length_append, count]

theorem delivered_succ_of_nil
    (h : (answers n).given (size - (delivered answers size n).length) = []) :
    delivered answers size (n + 1) = delivered answers size n := by
  rw [delivered, h, List.append_nil]

theorem count_le (answers : Nat → Answer) (size n : Nat) :
    count answers size n ≤ size - (delivered answers size n).length := given_length_le _ _

theorem count_pos {first : UInt8} {rest : List UInt8} (hanswer : answers n = .bytes first rest)
    (hlt : (delivered answers size n).length < size) : 0 < count answers size n := by
  rw [count, hanswer]
  exact given_pos (Nat.sub_pos_of_lt hlt) first rest

theorem Undecided.succ (h : Undecided answers size n) (hnone : decides answers size n = none) :
    Undecided answers size (n + 1) := by
  intro i hi
  by_cases heq : i = n
  · rw [heq, hnone]
  · exact h i (by omega)

theorem Undecided.of_succ (h : Undecided answers size (n + 1)) :
    decides answers size n = none ∧ Undecided answers size n :=
  ⟨h n (Nat.lt_succ_self n), fun i hi => h i (Nat.lt_succ_of_lt hi)⟩

/-- While the outcome is open, bytes are missing. -/
theorem delivered_lt (hpos : 0 < size) (h : Undecided answers size n) :
    (delivered answers size n).length < size := by
  induction n with
  | zero => exact hpos
  | succ n ih =>
    have hlt := ih h.of_succ.2
    have hnone := h.of_succ.1
    have hle := count_le answers size n
    have hsucc := delivered_length_succ answers size n
    -- the read that fills the block settles the outcome
    have hne : (delivered answers size (n + 1)).length ≠ size := by
      intro heq
      rw [decides] at hnone
      cases hanswer : answers n with
      | bytes first rest => simp [hanswer, heq] at hnone
      | interrupted | failed | endOfStream =>
        have hsame : delivered answers size (n + 1) = delivered answers size n :=
          delivered_succ_of_nil (by rw [hanswer]; rfl)
        rw [hsame] at heq
        omega
    omega

/-- Either the outcome is still open after `n` reads, or one of them settled it. -/
theorem undecided_or (answers : Nat → Answer) (size n : Nat) :
    Undecided answers size n ∨ ∃ m < n, ∃ e, ComesFirst answers size m e := by
  induction n with
  | zero => exact Or.inl fun i hi => absurd hi (Nat.not_lt_zero i)
  | succ n ih =>
    rcases ih with hund | ⟨m, hm, hfirst⟩
    · cases hdec : decides answers size n with
      | none => exact Or.inl (hund.succ hdec)
      | some e => exact Or.inr ⟨n, Nat.lt_succ_self n, e, hdec, hund⟩
    · exact Or.inr ⟨m, Nat.lt_succ_of_lt hm, hfirst⟩

theorem ComesFirst.unique {e e' : Ending} (h : ComesFirst answers size n e)
    (h' : ComesFirst answers size n e') : e = e' := Option.some.inj (h.1.symm.trans h'.1)

/-- Once no read is interrupted any more, each one settles the outcome or brings a byte. -/
theorem exists_comesFirst (hpos : 0 < size) (h : {i | answers i = .interrupted}.Finite) :
    ∃ n e, ComesFirst answers size n e := by
  obtain ⟨N, hN⟩ := h.bddAbove
  by_contra hnone
  have hund : ∀ n, Undecided answers size n := by
    intro n
    rcases undecided_or answers size n with hund | ⟨m, -, e, hfirst⟩
    · exact hund
    · exact absurd ⟨m, e, hfirst⟩ hnone
  -- as no read settles it, each one behind the last interruption brings a byte
  have hcount : ∀ k, k ≤ (delivered answers size (N + 1 + k)).length := by
    intro k
    induction k with
    | zero => exact Nat.zero_le _
    | succ k ih =>
      have hlt := delivered_lt hpos (hund (N + 1 + k))
      have hdec := (hund (N + 1 + k + 1)).of_succ.1
      have hsucc := delivered_length_succ answers size (N + 1 + k)
      show k + 1 ≤ (delivered answers size (N + 1 + k + 1)).length
      rw [decides] at hdec
      cases hanswer : answers (N + 1 + k) with
      | bytes first rest =>
        have hsome := count_pos hanswer hlt
        omega
      | interrupted =>
        have hle : N + 1 + k ≤ N := hN hanswer
        omega
      | failed | endOfStream => simp [hanswer] at hdec
  have hlt := delivered_lt hpos (hund (N + 1 + size))
  have hge := hcount size
  omega

/-! ## 4. One read -/

/-- What the variables hold as long as every count fits an `int`. -/
def inStep (answers : Nat → Answer) (buf : List UInt8) (n : Nat) (eintr : Bool) : Loop where
  left := buf.length - (delivered answers buf.length n).length
  bufptr := (delivered answers buf.length n).length
  buf := filled answers buf n
  eintr := eintr

/-- What `read_bytes` returns for an outcome. -/
def Ending.result (size : Nat) : Ending → Int32
  | .whole => Int32.ofNat size
  | .endOfStream => 0
  | .failed => -1

theorem test_inStep (hund : Undecided answers buf.length n) (hpos : 0 < buf.length) :
    Loop.test buf.length (inStep answers buf n eintr) = .reading (inStep answers buf n eintr) := by
  have hlt := delivered_lt hpos hund
  exact if_pos (show 0 < buf.length - (delivered answers buf.length n).length by omega)

/-- The bytes go behind those that came in before. -/
theorem storeAt_filled (answers : Nat → Answer) (buf : List UInt8) (n : Nat) :
    storeAt (filled answers buf n) (delivered answers buf.length n).length
      ((answers n).given (buf.length - (delivered answers buf.length n).length)) =
        .ok (filled answers buf (n + 1)) := by
  have hle := given_length_le (buf.length - (delivered answers buf.length n).length) (answers n)
  unfold storeAt
  rw [if_neg (by omega), Int.toNat_natCast, filled, memcpy_behind _ (by rw [List.length_drop]; omega),
    List.drop_drop, ← count, ← delivered_length_succ]
  rfl

/-- A count that fits an `int` is taken off and added as it is. -/
theorem Loop.next_bytes {l : Loop} {first : UInt8} {rest buf' : List UInt8}
    (hstore : storeAt l.buf l.bufptr ((Answer.bytes first rest).given l.left) = .ok buf')
    (hpos : 0 < l.left) (hsize : l.left < wordSize)
    (hfit : ((Answer.bytes first rest).given l.left).length < 2 ^ 31) :
    l.next size (.bytes first rest) = Loop.test size
      { l with
        left := l.left - ((Answer.bytes first rest).given l.left).length
        bufptr := l.bufptr + ((Answer.bytes first rest).given l.left).length
        buf := buf' } := by
  have hle := given_length_le l.left (.bytes first rest)
  have hsome := given_pos hpos first rest
  have hint := Int32.toInt_ofNat_of_lt hfit
  have hminus : Int32.ofNat ((Answer.bytes first rest).given l.left).length ≠ -1 := by
    intro heq
    rw [heq] at hint
    have hneg : (-1 : Int32).toInt = -1 := rfl
    omega
  have hzero : Int32.ofNat ((Answer.bytes first rest).given l.left).length ≠ 0 := by
    intro heq
    rw [heq, Int32.toInt_zero] at hint
    omega
  have hleft : (((l.left : Int) - ((Answer.bytes first rest).given l.left).length) %
      wordSize).toNat = l.left - ((Answer.bytes first rest).given l.left).length := by
    rw [Int.emod_eq_of_lt (by omega) (by omega)]
    omega
  rw [Loop.next]
  simp only [hstore, if_neg hminus, if_neg hzero, hint, hleft]

/-- A read of fewer than 2^31 bytes that came behind those before it. -/
theorem next_inStep {first : UInt8} {rest : List UInt8} (hanswer : answers n = .bytes first rest)
    (hlt : (delivered answers buf.length n).length < buf.length) (hsize : buf.length < wordSize)
    (hfit : count answers buf.length n < 2 ^ 31) :
    (inStep answers buf n eintr).next buf.length (answers n) =
      Loop.test buf.length (inStep answers buf (n + 1) eintr) := by
  have hstore := storeAt_filled answers buf n
  have hsucc := delivered_length_succ answers buf.length n
  rw [count, hanswer] at hsucc hfit
  rw [hanswer] at hstore
  have hpos : 0 < (inStep answers buf n eintr).left := Nat.sub_pos_of_lt hlt
  have hleft : (inStep answers buf n eintr).left < wordSize :=
    Nat.lt_of_le_of_lt (Nat.sub_le _ _) hsize
  rw [hanswer, Loop.next_bytes hstore hpos hleft hfit]
  congr 1
  simp only [inStep, hsucc, Nat.sub_add_eq, Int.natCast_add]

/-- A read that leaves the outcome open. -/
theorem next_undecided (hund : Undecided answers buf.length (n + 1)) (hpos : 0 < buf.length)
    (hsize : buf.length < wordSize)
    (hfit : count answers buf.length n < 2 ^ 31) :
    ∃ eintr', (inStep answers buf n eintr).next buf.length (answers n) =
      .reading (inStep answers buf (n + 1) eintr') := by
  have hlt := delivered_lt hpos hund.of_succ.2
  have hdec := hund.of_succ.1
  rw [decides] at hdec
  cases hanswer : answers n with
  | bytes first rest =>
    refine ⟨eintr, ?_⟩
    rw [← hanswer, next_inStep hanswer hlt hsize hfit, test_inStep hund hpos]
  | interrupted =>
    -- nothing came in, and only `errno` is new
    refine ⟨true, ?_⟩
    have hsame : delivered answers buf.length (n + 1) = delivered answers buf.length n :=
      delivered_succ_of_nil (by rw [hanswer]; rfl)
    have hstep : inStep answers buf (n + 1) true =
        { inStep answers buf n eintr with eintr := true } := by
      simp only [inStep, filled, hsame]
    rw [← test_inStep hund hpos, hstep]
    rfl
  | failed | endOfStream => simp [hanswer] at hdec

/-- A read that settles it. -/
theorem next_decided {e : Ending} (hfirst : ComesFirst answers buf.length n e)
    (hpos : 0 < buf.length) (hsize : buf.length < wordSize)
    (hfit : count answers buf.length n < 2 ^ 31) :
    (inStep answers buf n eintr).next buf.length (answers n) =
      .returned (e.result buf.length) (filled answers buf (n + 1)) := by
  have hlt := delivered_lt hpos hfirst.2
  have hdec := hfirst.1
  rw [decides] at hdec
  cases hanswer : answers n with
  | bytes first rest =>
    simp only [hanswer] at hdec
    split at hdec
    · rename_i heq
      cases hdec
      rw [← hanswer, next_inStep hanswer hlt hsize hfit, Loop.test, if_neg]
      · rfl
      · show ¬ 0 < buf.length - (delivered answers buf.length (n + 1)).length
        omega
    · cases hdec
  | interrupted => simp [hanswer] at hdec
  | failed | endOfStream =>
    simp only [hanswer, Option.some.injEq] at hdec
    have hsame : delivered answers buf.length (n + 1) = delivered answers buf.length n :=
      delivered_succ_of_nil (by rw [hanswer]; rfl)
    subst hdec
    simp only [Loop.next, inStep, filled, hsame, Ending.result]

/-! ## 5. All reads -/

theorem readBytes_succ {l : Loop} (h : readBytes answers eintr buf n = .reading l) :
    readBytes answers eintr buf (n + 1) = l.next buf.length (answers n) := by
  rw [readBytes, h]

/-- While the outcome is open, every read is asked for what is missing. -/
theorem readBytes_undecided (eintr : Bool) (hpos : 0 < buf.length) (hsize : buf.length < wordSize)
    (hfit : ∀ i < n, count answers buf.length i < 2 ^ 31) (hund : Undecided answers buf.length n) :
    ∃ eintr', readBytes answers eintr buf n = .reading (inStep answers buf n eintr') := by
  induction n with
  | zero => exact ⟨eintr, test_inStep hund hpos⟩
  | succ n ih =>
    obtain ⟨eintr', hread⟩ := ih (fun i hi => hfit i (Nat.lt_succ_of_lt hi)) hund.of_succ.2
    rw [readBytes_succ hread]
    exact next_undecided hund hpos hsize (hfit n (Nat.lt_succ_self n))

theorem readBytes_returned {result : Int32} {buf' : List UInt8} {m : Nat} (hnm : n ≤ m)
    (h : readBytes answers eintr buf n = .returned result buf') :
    readBytes answers eintr buf m = .returned result buf' := by
  induction m, hnm using Nat.le_induction with
  | base => exact h
  | succ m _ ih => rw [readBytes, ih]

/-- From the read on that settles the outcome, it has returned. -/
theorem readBytes_decided (eintr : Bool) {e : Ending} {m : Nat} (hpos : 0 < buf.length)
    (hsize : buf.length < wordSize) (hfit : ∀ i ≤ n, count answers buf.length i < 2 ^ 31)
    (hfirst : ComesFirst answers buf.length n e) (hnm : n < m) :
    readBytes answers eintr buf m =
      .returned (e.result buf.length) (filled answers buf (n + 1)) := by
  obtain ⟨eintr', hread⟩ :=
    readBytes_undecided eintr hpos hsize (fun i hi => hfit i (Nat.le_of_lt hi)) hfirst.2
  refine readBytes_returned hnm ?_
  rw [readBytes_succ hread]
  exact next_decided hfirst hpos hsize (hfit n (Nat.le_refl n))

/-! ## 6. When the result is right -/

theorem Undecided.mono {m : Nat} (h : Undecided answers size n) (hmn : m ≤ n) :
    Undecided answers size m := fun i hi => h i (Nat.lt_of_lt_of_le hi hmn)

theorem Narrow.fits (h : Narrow answers size) (hund : Undecided answers size n) {i : Nat}
    (hi : i ≤ n) : count answers size i < 2 ^ 31 := h i (hund.mono hi)

/-- The three results are different, and they are told apart by an `int` that holds the size. -/
theorem result_iff {e : Ending} (hpos : 0 < size) (hfit : e = .whole → size < 2 ^ 31) :
    ((e.result size).toInt = size ↔ e = .whole) ∧ (e.result size = 0 ↔ e = .endOfStream) ∧
      (e.result size = -1 ↔ e = .failed) := by
  have hneg : (-1 : Int32).toInt = -1 := rfl
  cases e with
  | whole =>
    have hint := Int32.toInt_ofNat_of_lt (hfit rfl)
    refine ⟨iff_of_true hint rfl, iff_of_false (fun heq => ?_) nofun,
      iff_of_false (fun heq => ?_) nofun⟩
    · rw [show Int32.ofNat size = 0 from heq, Int32.toInt_zero] at hint
      omega
    · rw [show Int32.ofNat size = -1 from heq] at hint
      omega
  | endOfStream =>
    refine ⟨iff_of_false ?_ nofun, iff_of_true rfl rfl, iff_of_false ?_ nofun⟩
    · show (0 : Int32).toInt ≠ size
      rw [Int32.toInt_zero]
      omega
    · show (0 : Int32) ≠ -1
      decide
  | failed =>
    refine ⟨iff_of_false ?_ nofun, iff_of_false ?_ nofun, iff_of_true rfl rfl⟩
    · show (-1 : Int32).toInt ≠ size
      omega
    · show (-1 : Int32) ≠ 0
      decide

/-- What is read is right as long as every count fits an `int`, and so does the size if all of it
comes in. -/
theorem readsRight_of_narrow (hpos : 0 < buf.length) (hsize : buf.length < wordSize)
    (hnarrow : Narrow answers buf.length)
    (hwhole : ∀ n, ComesFirst answers buf.length n .whole → buf.length < 2 ^ 31) :
    ReadsRight answers eintr buf := by
  have hopen : ∀ n, Undecided answers buf.length n →
      ∃ eintr', readBytes answers eintr buf n = .reading (inStep answers buf n eintr') :=
    fun n hund => readBytes_undecided eintr hpos hsize (fun i hi => hnarrow.fits hund hi.le) hund
  have hdone : ∀ m n e, m < n → ComesFirst answers buf.length m e →
      readBytes answers eintr buf n =
        .returned (e.result buf.length) (filled answers buf (m + 1)) :=
    fun m n e hmn hfirst =>
      readBytes_decided eintr hpos hsize (fun i hi => hnarrow.fits hfirst.2 hi) hfirst hmn
  -- a call that is still reading has not settled the outcome
  have hund : ∀ n l, readBytes answers eintr buf n = .reading l →
      Undecided answers buf.length n := by
    intro n l hread
    rcases undecided_or answers buf.length n with hund | ⟨m, hmn, e, hfirst⟩
    · exact hund
    · rw [hdone m n e hmn hfirst] at hread
      cases hread
  refine ⟨fun hfinite => ?_, fun n hfault => ?_, fun n l hread => ?_,
    fun n l result buf' hread hret => ?_⟩
  · -- the call returns
    obtain ⟨n, e, hfirst⟩ := exists_comesFirst hpos hfinite
    exact ⟨n + 1, _, _, hdone n (n + 1) e (Nat.lt_succ_self n) hfirst⟩
  · rcases undecided_or answers buf.length n with hund | ⟨m, hmn, e, hfirst⟩
    · obtain ⟨eintr', hread⟩ := hopen n hund
      rw [hread] at hfault
      cases hfault
    · rw [hdone m n e hmn hfirst] at hfault
      cases hfault
  · -- the variables are those of `inStep`
    obtain ⟨eintr', hread'⟩ := hopen n (hund n l hread)
    rw [hread'] at hread
    cases hread
    have hlt := delivered_lt hpos (hund n _ hread')
    exact ⟨rfl, Nat.sub_add_cancel hlt.le, rfl⟩
  · cases hdec : decides answers buf.length n with
    | none =>
      obtain ⟨eintr', hread'⟩ := hopen (n + 1) ((hund n l hread).succ hdec)
      rw [hread'] at hret
      cases hret
    | some e =>
      have hfirst : ComesFirst answers buf.length n e := ⟨hdec, hund n l hread⟩
      rw [hdone n (n + 1) e (Nat.lt_succ_self n) hfirst] at hret
      cases hret
      have hiff : ∀ e', ComesFirst answers buf.length n e' ↔ e = e' :=
        fun e' => ⟨fun h => hfirst.unique h, fun h => h ▸ hfirst⟩
      refine ⟨rfl, ⟨e, hfirst⟩, ?_⟩
      simp only [hiff]
      exact result_iff hpos fun he => hwhole n (he ▸ hfirst)

/-- A read of 2^31 bytes or more moves `bufptr` by another number, or not at all. -/
theorem Loop.next_bufptr {l l' : Loop} {first : UInt8} {rest : List UInt8}
    (h : l.next size (.bytes first rest) = .reading l') :
    l'.bufptr = l.bufptr ∨ ∃ r : Int32, l'.bufptr = l.bufptr + r.toInt := by
  have htest : ∀ l₁ : Loop, Loop.test size l₁ = .reading l' → l' = l₁ := by
    intro l₁ htest
    unfold Loop.test at htest
    split at htest
    · cases htest
      rfl
    · cases htest
  unfold Loop.next at h
  dsimp only at h
  split at h
  · cases h
  · split at h
    · split at h
      · exact Or.inl (by rw [htest _ h])
      · cases h
    · split at h
      · cases h
      · exact Or.inr ⟨_, by rw [htest _ h]⟩

/-- An `int` is never 2^31 or more. -/
theorem toInt_ne_of_ge (r : Int32) (h : 2 ^ 31 ≤ size) : r.toInt ≠ size := by
  have hlt := r.toInt_lt
  omega

/-- When it returns behind bytes, all of them have come in, and the result is their number. -/
theorem ReadsRight.lt_of_returned {l : Loop} {first : UInt8} {rest buf' : List UInt8}
    {result : Int32} (h : ReadsRight answers eintr buf) (hanswer : answers n = .bytes first rest)
    (hread : readBytes answers eintr buf n = .reading l)
    (hret : readBytes answers eintr buf (n + 1) = .returned result buf') :
    buf.length < 2 ^ 31 := by
  obtain ⟨-, ⟨e, hfirst⟩, hwhole, -, -⟩ := h.result n l result buf' hread hret
  have hdec := hfirst.1
  have hend : e = .whole := by
    simp only [decides, hanswer] at hdec
    split at hdec
    · exact (Option.some.inj hdec).symm
    · cases hdec
  subst hend
  by_contra hge
  exact toInt_ne_of_ge result (Nat.not_lt.mp hge) (hwhole.mpr hfirst)

theorem ReadsRight.narrow (h : ReadsRight answers eintr buf) (hpos : 0 < buf.length)
    (hsize : buf.length < wordSize) : Narrow answers buf.length := by
  intro n
  -- the reads before this one fit, so that this one goes where it should
  induction n using Nat.strongRecOn with
  | ind n ih =>
    intro hund
    obtain ⟨eintr', hread⟩ := readBytes_undecided eintr hpos hsize
      (fun i hi => ih i hi (hund.mono hi.le)) hund
    by_contra hwide
    have hle := count_le answers buf.length n
    have hsucc := delivered_length_succ answers buf.length n
    cases hanswer : answers n with
    | bytes first rest =>
      have hnext := readBytes_succ hread
      cases hpoint : readBytes answers eintr buf (n + 1) with
      | fault => exact h.inBounds _ hpoint
      | returned result buf' =>
        have hlt := h.lt_of_returned hanswer hread hpoint
        omega
      | reading l =>
        -- the pointer has not moved by the number of bytes
        have hbufptr := (h.contiguous _ l hpoint).1
        rw [hanswer, hpoint] at hnext
        rcases Loop.next_bufptr hnext.symm with hstay | ⟨r, hmove⟩
        · rw [hstay] at hbufptr
          simp only [inStep] at hbufptr
          omega
        · rw [hmove] at hbufptr
          simp only [inStep] at hbufptr
          have hr := r.toInt_lt
          omega
    | interrupted | failed | endOfStream =>
      simp only [count, hanswer, Answer.given, List.length_nil] at hwide
      omega

theorem ReadsRight.lt_of_whole (h : ReadsRight answers eintr buf) (hpos : 0 < buf.length)
    (hsize : buf.length < wordSize) (hfirst : ComesFirst answers buf.length n .whole) :
    buf.length < 2 ^ 31 := by
  have hnarrow := h.narrow hpos hsize
  obtain ⟨eintr', hread⟩ := readBytes_undecided eintr hpos hsize
    (fun i hi => hnarrow.fits hfirst.2 hi.le) hfirst.2
  have hret := readBytes_decided eintr hpos hsize
    (fun i hi => hnarrow.fits hfirst.2 hi) hfirst (Nat.lt_succ_self n)
  cases hanswer : answers n with
  | bytes first rest => exact h.lt_of_returned hanswer hread hret
  | interrupted | failed | endOfStream => simp [ComesFirst, decides, hanswer] at hfirst

/-- The call is right for every size below 2^31, and for the others as long as the block is not
filled and no read gives too much for an `int`. -/
theorem readBytes_right_iff (hpos : 0 < buf.length) (hsize : buf.length < wordSize) :
    ReadsRight answers eintr buf ↔ buf.length < 2 ^ 31 ∨
      ((∀ n, ¬ ComesFirst answers buf.length n .whole) ∧ Narrow answers buf.length) := by
  constructor
  · intro h
    by_cases hfit : buf.length < 2 ^ 31
    · exact Or.inl hfit
    · exact Or.inr ⟨fun n hfirst => hfit (h.lt_of_whole hpos hsize hfirst), h.narrow hpos hsize⟩
  · rintro (hfit | ⟨hnot, hnarrow⟩)
    · refine readsRight_of_narrow hpos hsize (fun n _ => ?_) fun _ _ => hfit
      have hle := count_le answers buf.length n
      omega
    · exact readsRight_of_narrow hpos hsize hnarrow fun n hfirst => absurd hfirst (hnot n)

/-- Two bytes, with an interruption between them. -/
theorem readBytes_right_two :
    ReadsRight (fun n => if n = 1 then .interrupted else .bytes 5 []) false [0, 0] :=
  (readBytes_right_iff (by decide) (by decide)).mpr (Or.inl (by decide))

/-- Byte by byte the block is filled with the last one. -/
theorem ones_whole (b : UInt8) (hpos : 0 < size) :
    ComesFirst (fun _ => .bytes b []) size (size - 1) .whole := by
  have hlength : ∀ n ≤ size, (delivered (fun _ => .bytes b []) size n).length = n := by
    intro n hn
    induction n with
    | zero => rfl
    | succ n ih =>
      have hmissing : 0 < size - (delivered (fun _ => .bytes b []) size n).length := by
        rw [ih (by omega)]
        omega
      rw [delivered_length_succ, ih (by omega), count, Answer.given,
        List.take_of_length_le (Nat.succ_le_of_lt hmissing)]
      rfl
  refine ⟨?_, fun i hi => ?_⟩
  · simp only [decides, Nat.sub_add_cancel hpos]
    rw [if_pos (hlength size (Nat.le_refl _))]
  · simp only [decides]
    rw [if_neg]
    rw [hlength (i + 1) (by omega)]
    omega

/-- A block of 2 GiB is filled byte by byte, and the result is negative. -/
theorem readBytes_misreports :
    ¬ ReadsRight (fun _ => .bytes 7 []) false (List.replicate (2 ^ 31) 0) := by
  intro h
  have hlength : (List.replicate (2 ^ 31) (0 : UInt8)).length = 2 ^ 31 := List.length_replicate
  have hlt := h.lt_of_whole (by rw [hlength]; decide) (by rw [hlength]; decide)
    (ones_whole 7 (by rw [hlength]; decide))
  rw [hlength] at hlt
  exact Nat.lt_irrefl _ hlt

/-! ## 7. A connection that only ends -/

open EndOfStream (Chunks)

/-- The answers of a connection when `left` bytes are missing. -/
def answersOf (s : Chunks) (left : Nat) : Nat → Answer
  | 0 =>
      match (EndOfStream.read s left).1 with
      | [] => .endOfStream
      | first :: rest => .bytes first rest
  | n + 1 =>
      answersOf (EndOfStream.read s left).2 (left - (EndOfStream.read s left).1.length) n

theorem given_answersOf (s : Chunks) {left : Nat} (hpos : 0 < left) :
    (answersOf s left 0).given left = (EndOfStream.read s left).1 := by
  obtain ⟨-, hle, -⟩ := EndOfStream.read_spec s hpos
  rw [answersOf]
  split
  · rename_i hnil
    rw [hnil]
    rfl
  · rename_i first rest hcons
    rw [hcons] at hle ⊢
    exact List.take_of_length_le hle

/-- No chunk has 2^31 bytes. -/
def SmallChunks (s : Chunks) : Prop := ∀ chunk ∈ s, chunk.bytes.length < 2 ^ 31

theorem SmallChunks.read {s : Chunks} (h : SmallChunks s) (size : Nat) :
    (EndOfStream.read s size).1.length < 2 ^ 31 ∧ SmallChunks (EndOfStream.read s size).2 := by
  cases s with
  | nil => exact ⟨Nat.two_pow_pos 31, h⟩
  | cons chunk s =>
    have hchunk := h chunk List.mem_cons_self
    have hrest : SmallChunks s := fun c hc => h c (List.mem_cons_of_mem _ hc)
    rw [EndOfStream.read]
    split
    · exact ⟨hchunk, hrest⟩
    · rename_i first rest hdrop
      refine ⟨Nat.lt_of_le_of_lt (List.length_take_le' _ _) hchunk, fun c hc => ?_⟩
      rcases List.mem_cons.mp hc with rfl | hc
      · -- what is left of the chunk
        have hlength := congrArg List.length hdrop
        rw [List.length_drop] at hlength
        show (first :: rest).length < 2 ^ 31
        omega
      · exact hrest c hc

/-- After some reads the connection has what they did not take. -/
theorem answersOf_after (s : Chunks) (hsmall : SmallChunks s) {size n : Nat} (hpos : 0 < size)
    (hund : Undecided (answersOf s size) size n) :
    ∃ s', SmallChunks s' ∧ s.bytes = delivered (answersOf s size) size n ++ s'.bytes ∧
      ∀ k, answersOf s size (n + k) =
        answersOf s' (size - (delivered (answersOf s size) size n).length) k := by
  induction n with
  | zero => exact ⟨s, hsmall, rfl, fun k => by rw [Nat.zero_add]; rfl⟩
  | succ n ih =>
    obtain ⟨s', hsmall', hsplit, hrest⟩ := ih hund.of_succ.2
    have hmissing := Nat.sub_pos_of_lt (delivered_lt hpos hund.of_succ.2)
    have hgiven := given_answersOf s' hmissing
    rw [← hrest 0, Nat.add_zero] at hgiven
    obtain ⟨hread, -, -⟩ := EndOfStream.read_spec s' hmissing
    refine ⟨(EndOfStream.read s' (size - (delivered (answersOf s size) size n).length)).2,
      (hsmall'.read _).2, ?_, fun k => ?_⟩
    · rw [hsplit, hread, delivered, hgiven, List.append_assoc]
    · rw [Nat.add_right_comm, Nat.add_assoc, hrest (k + 1), answersOf, delivered_length_succ,
        count, hgiven, Nat.sub_add_eq]

/-- A connection gives bytes until it ends. -/
theorem answersOf_cases (s : Chunks) (left n : Nat) :
    answersOf s left n = .endOfStream ∨ ∃ first rest, answersOf s left n = .bytes first rest := by
  induction n generalizing s left with
  | zero =>
    rw [answersOf]
    split
    · exact Or.inl rfl
    · exact Or.inr ⟨_, _, rfl⟩
  | succ n ih => exact ih _ _

/-- What the next read finds. -/
theorem answersOf_next (s : Chunks) (hsmall : SmallChunks s) {size n : Nat} (hpos : 0 < size)
    (hund : Undecided (answersOf s size) size n) :
    count (answersOf s size) size n < 2 ^ 31 ∧
      (∃ rest, s.bytes = delivered (answersOf s size) size (n + 1) ++ rest) ∧
      (answersOf s size n = .endOfStream → s.bytes = delivered (answersOf s size) size n) := by
  obtain ⟨s', hsmall', hsplit, hrest⟩ := answersOf_after s hsmall hpos hund
  have hmissing := Nat.sub_pos_of_lt (delivered_lt hpos hund)
  have hgiven := given_answersOf s' hmissing
  rw [← hrest 0, Nat.add_zero] at hgiven
  obtain ⟨hread, -, hend⟩ := EndOfStream.read_spec s' hmissing
  have htaken : s.bytes = delivered (answersOf s size) size (n + 1) ++ (EndOfStream.read s'
      (size - (delivered (answersOf s size) size n).length)).2.bytes := by
    rw [delivered, hgiven, List.append_assoc, ← hread]
    exact hsplit
  refine ⟨?_, ⟨_, htaken⟩, fun hanswer => ?_⟩
  · rw [count, hgiven]
    exact (hsmall'.read _).1
  · rw [hanswer] at hgiven
    rw [hsplit, hend hgiven.symm, List.append_nil]

/-- On a connection that only ends, with no chunk too long for an `int`, the loop does what the
model of the responses says. -/
theorem readBytes_of_chunks {s : Chunks} (hsmall : SmallChunks s) (hpos : 0 < buf.length)
    (hsize : buf.length < wordSize) :
    ∃ n result buf' s', EndOfStream.readBytes s buf = .ok (result, buf', s') ∧
      readBytes (answersOf s buf.length) eintr buf n = .returned result buf' := by
  have hnarrow : Narrow (answersOf s buf.length) buf.length :=
    fun n hund => (answersOf_next s hsmall hpos hund).1
  have hnone : {i | answersOf s buf.length i = .interrupted} = ∅ := by
    refine Set.eq_empty_of_forall_notMem fun i hi => ?_
    rcases answersOf_cases s buf.length i with hend | ⟨first, rest, hbytes⟩
    · cases hend.symm.trans hi
    · cases hbytes.symm.trans hi
  obtain ⟨n, e, hfirst⟩ := exists_comesFirst hpos (hnone ▸ Set.finite_empty)
  have hret := readBytes_decided eintr hpos hsize
    (fun i hi => hnarrow.fits hfirst.2 hi) hfirst (Nat.lt_succ_self n)
  obtain ⟨-, ⟨rest, hsplit⟩, hend⟩ := answersOf_next s hsmall hpos hfirst.2
  have hdec := hfirst.1
  rcases answersOf_cases s buf.length n with hanswer | ⟨first, rest', hanswer⟩
  · -- the stream ended, and what came in is all of it
    simp only [decides, hanswer, Option.some.injEq] at hdec
    subst hdec
    have hall := hend hanswer
    have hlt := delivered_lt hpos hfirst.2
    rw [← hall] at hlt
    obtain ⟨s', hread, -⟩ := EndOfStream.readBytes_short buf hlt
    refine ⟨n + 1, 0, _, s', hread, hret.trans ?_⟩
    have hsame : delivered (answersOf s buf.length) buf.length (n + 1) = s.bytes :=
      (delivered_succ_of_nil (by rw [hanswer]; rfl)).trans hall.symm
    rw [filled, hsame]
    rfl
  · -- the block is full
    simp only [decides, hanswer] at hdec
    split at hdec
    · rename_i hlength
      cases hdec
      obtain ⟨s', hread, -⟩ := EndOfStream.readBytes_full buf hsplit hlength
      refine ⟨n + 1, _, _, s', hread, hret.trans ?_⟩
      rw [filled, hlength, List.drop_length, List.append_nil]
      rfl
    · cases hdec

end FileStorage.Client.ReadBytes
