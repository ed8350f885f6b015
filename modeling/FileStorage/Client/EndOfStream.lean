import FileStorage.Client.Responses
import FileStorage.Strings
import Mathlib.Logic.Function.Basic

/-!
# EndOfStream — what the client library reads on a connection that can end

The bytes of the server arrive in chunks, and behind the last one every `read` returns 0.  The local
files that a response with evicted files is written to are part of the state.
-/

namespace FileStorage.Client.EndOfStream

open Server

/-! ## 1. The connection -/

/-- What one `read` can return: at least one byte. -/
structure Chunk where
  first : UInt8
  rest : List UInt8
deriving DecidableEq

def Chunk.bytes (chunk : Chunk) : List UInt8 := chunk.first :: chunk.rest

abbrev Chunks := List Chunk

/-- What the server sent before it closed the connection. -/
def Chunks.bytes (s : Chunks) : List UInt8 := s.flatMap Chunk.bytes

/-- `read` of at most `size` bytes. -/
def read (s : Chunks) (size : Nat) : List UInt8 × Chunks :=
  match s with
  | [] => ([], [])
  | chunk :: s =>
      match chunk.bytes.drop size with
      | [] => (chunk.bytes, s)
      | first :: rest => (chunk.bytes.take size, ⟨first, rest⟩ :: s)

/-- The loop of `read_bytes`: whether it got `left` bytes, and those that it got. -/
def readLoop : Nat → Nat → Chunks → Exec (Bool × List UInt8 × Chunks)
  | _, 0, s => .ok (true, [], s)
  | 0, _ + 1, _ => .error .diverge
  | fuel + 1, left + 1, s =>
      match read s (left + 1) with
      -- end of file
      | ([], s) => .ok (false, [], s)
      | (bytes, s) => do
          let (whole, more, s) ← readLoop fuel (left + 1 - bytes.length) s
          return (whole, bytes ++ more, s)

/-- `read_bytes` into the whole of `buf`.  The end of the stream is a result of 0 and leaves the rest
of the buffer as it was. -/
def readBytes (s : Chunks) (buf : List UInt8) : Exec (Int32 × List UInt8 × Chunks) := do
  let (whole, bytes, s) ← readLoop buf.length buf.length s
  return (if whole then Int32.ofNat buf.length else 0, bytes ++ buf.drop bytes.length, s)

/-! ## 2. Local files -/

/-- What the client meets on its own machine. -/
structure Machine where
  /-- For the `i`-th local file of a response: `fopen` fails, or how many bytes `fwrite` takes. -/
  answer : Nat → Option Nat
  /-- The bytes of a fresh block, which are indeterminate. -/
  garbage : Nat → UInt8

def Machine.xmalloc (m : Machine) (size : Nat) : List UInt8 := (List.range size).map m.garbage

/-- The local files and their contents. -/
abbrev Files := List UInt8 → Option (List UInt8)

/-- `dirname`, a slash and the base name of the path. -/
def localPath (dirname : CStr) (pathname : List UInt8) : List UInt8 :=
  dirname.bytes ++ 47 :: basename (bufToStr pathname).bytes

/-- `strlen(dirname)` comes before any test.  `fopen` empties the file, and a file to which no byte
was written counts as a failure. -/
def writeFileToDir (m : Machine) (i : Nat) (dirname : Option CStr) (files : Files)
    (pathname contents : List UInt8) : Exec (Int32 × Files) :=
  match dirname with
  | none => .error .fault
  | some dirname =>
      match m.answer i with
      | none => .ok (-1, files)
      | some n =>
          let numBytesWritten := min n contents.length
          let files := Function.update files (localPath dirname pathname)
            (some (contents.take numBytesWritten))
          if numBytesWritten = 0 then
            .ok (-1, files)
          else
            .ok (0, files)

/-! ## 3. The replies -/

/-- The loop over the files; `i` counts them. -/
def readFiles (m : Machine) (dirname : Option CStr) :
    Nat → Nat → Int32 → Files → Chunks → Exec (Int32 × Files × Chunks)
  | 0, _, _, files, s => .ok (0, files, s)
  | numFiles + 1, i, err, files, s => do
      let (result, bufferLengths, s) ← readBytes s (List.replicate 16 0)
      let err := err ||| result
      if err < 0 then
        return (-1, files, s)
      let lenPath ← bigEndianToU64 bufferLengths
      let lenContents ← bigEndianToU64 (bufferLengths.drop 8)
      let (result, buffer, s) ← readBytes s (m.xmalloc (wadd lenPath lenContents))
      let err := err ||| result
      -- meant for the end of the stream, but the results before this one are still in `err`
      if err = 0 then
        return (-1, files, s)
      if buffer.length < lenPath + lenContents then
        throw .fault
      let (result, files) ← writeFileToDir m i dirname files (buffer.take lenPath)
        ((buffer.drop lenPath).take lenContents)
      let err := err ||| result
      if err < 0 then
        return (-1, files, s)
      readFiles m dirname numFiles (i + 1) err files s

def handleResponseWithFiles (m : Machine) (dirname : Option CStr) (files : Files) (s : Chunks) :
    Exec (Int32 × Files × Chunks) := do
  let (result, bufferResponseCode, s) ← readBytes s [0]
  let err := 0 ||| result
  if err < 0 ∨ bufferResponseCode = [responseErr] then
    return (-1, files, s)
  let (result, bufferNumFiles, s) ← readBytes s (List.replicate 8 0)
  let err := err ||| result
  if err < 0 then
    return (-1, files, s)
  let numFiles ← bigEndianToU64 bufferNumFiles
  readFiles m dirname numFiles 0 err files s

/-- The response half of `make_simple_request`: one `read`, behind writes that gave 1. -/
def simpleResponse (s : Chunks) : Int32 × Chunks :=
  let (bytes, s) := read s 1
  let buffer := bytes ++ [0].drop bytes.length
  let err := 1 ||| Int32.ofNat bytes.length
  if err < 0 then
    (-1, s)
  else if buffer = [responseErr] then
    (-1, s)
  else
    (0, s)

/-- The response half of `readFile`, with `*buf`. -/
def readFileResponse (m : Machine) (s : Chunks) : Exec (Int32 × List UInt8 × Chunks) := do
  let (err, s) := simpleResponse s
  if err < 0 then
    return (-1, [], s)
  let (result, bufferLen, s) ← readBytes s (List.replicate 8 0)
  let err := err ||| result
  if err < 0 then
    return (-1, [], s)
  let size ← bigEndianToU64 bufferLen
  let (result, buf, s) ← readBytes s (m.xmalloc size)
  let err := err ||| result
  if err < 0 then
    return (-1, buf, s)
  return (0, buf, s)

/-! ## 4. What a read gives -/

@[simp] theorem Machine.xmalloc_length (m : Machine) (size : Nat) :
    (m.xmalloc size).length = size := by
  simp [Machine.xmalloc]

theorem Chunks.bytes_cons (chunk : Chunk) (s : Chunks) :
    Chunks.bytes (chunk :: s) = chunk.bytes ++ s.bytes := rfl

/-- One `read` takes bytes off the stream, none only at its end. -/
theorem read_spec (s : Chunks) {size : Nat} (hpos : 0 < size) :
    s.bytes = (read s size).1 ++ (read s size).2.bytes ∧ (read s size).1.length ≤ size ∧
      ((read s size).1 = [] → s.bytes = []) := by
  cases s with
  | nil => simp [read, Chunks.bytes]
  | cons chunk s =>
    rw [read]
    split
    · rename_i hdrop
      refine ⟨rfl, by simpa using hdrop, fun hnil => ?_⟩
      simp [Chunk.bytes] at hnil
    · rename_i first rest hdrop
      refine ⟨?_, List.length_take_le _ _, fun hnil => ?_⟩
      · rw [Chunks.bytes_cons, Chunks.bytes_cons, ← List.append_assoc]
        congr 1
        show chunk.bytes = chunk.bytes.take size ++ first :: rest
        rw [← hdrop, List.take_append_drop]
      · rcases List.take_eq_nil_iff.mp hnil with hzero | hnil
        · omega
        · simp [Chunk.bytes] at hnil

theorem readLoop_eq {fuel left : Nat} (hfuel : left ≤ fuel) (s : Chunks) :
    ∃ s', readLoop fuel left s =
      .ok (decide (left ≤ s.bytes.length), s.bytes.take left, s') ∧
        s'.bytes = s.bytes.drop left := by
  -- every round but the last takes at least one byte
  induction fuel generalizing left s with
  | zero =>
    obtain rfl : left = 0 := Nat.le_zero.mp hfuel
    exact ⟨s, by simp [readLoop], by simp⟩
  | succ fuel ih =>
    cases left with
    | zero => exact ⟨s, by simp [readLoop], by simp⟩
    | succ left =>
      obtain ⟨hsplit, hle, hend⟩ := read_spec s (Nat.succ_pos left)
      rw [readLoop]
      split
      · rename_i s' hread
        rw [hread] at hsplit hend
        have hempty := hend rfl
        refine ⟨s', ?_, ?_⟩
        · simp [hempty]
        · simp only [List.nil_append] at hsplit
          rw [← hsplit, hempty, List.drop_nil]
      · rename_i bytes s' hnonempty hread
        rw [hread] at hsplit hle
        simp only at hsplit hle
        have hpos : 0 < bytes.length := List.length_pos_iff.mpr hnonempty
        obtain ⟨s'', hloop, hrest⟩ := ih (show left + 1 - bytes.length ≤ fuel by omega) s'
        refine ⟨s'', ?_, ?_⟩
        · have hcount : decide (left + 1 - bytes.length ≤ s'.bytes.length) =
              decide (left + 1 ≤ bytes.length + s'.bytes.length) := decide_eq_decide.mpr (by omega)
          rw [hloop, hsplit, List.length_append, List.take_append]
          simp only [Exec.ok_bind, Exec.pure_eq_ok, List.take_of_length_le hle, hcount]
        · rw [hrest, hsplit, List.drop_append, List.drop_eq_nil_of_le hle, List.nil_append]

/-- When the stream has the bytes, the chunks do not matter. -/
theorem readBytes_full {s : Chunks} {bytes rest : List UInt8} (buf : List UInt8)
    (hs : s.bytes = bytes ++ rest) (hlength : bytes.length = buf.length) :
    ∃ s', readBytes s buf = .ok (Int32.ofNat buf.length, bytes, s') ∧ s'.bytes = rest := by
  obtain ⟨s', hloop, hrest⟩ := readLoop_eq (Nat.le_refl buf.length) s
  refine ⟨s', ?_, ?_⟩
  · rw [readBytes, hloop, hs, List.take_left' hlength]
    simp [hlength]
  · rw [hrest, hs, List.drop_left' hlength]

/-- At the end of the stream it gives what is there and a result of 0. -/
theorem readBytes_short {s : Chunks} (buf : List UInt8) (hshort : s.bytes.length < buf.length) :
    ∃ s', readBytes s buf = .ok (0, s.bytes ++ buf.drop s.bytes.length, s') ∧ s'.bytes = [] := by
  obtain ⟨s', hloop, hrest⟩ := readLoop_eq (Nat.le_refl buf.length) s
  refine ⟨s', ?_, ?_⟩
  · rw [readBytes, hloop, List.take_of_length_le (Nat.le_of_lt hshort)]
    simp [Nat.not_le.mpr hshort]
  · rw [hrest, List.drop_eq_nil_of_le (Nat.le_of_lt hshort)]

/-- Nothing comes behind the end. -/
theorem readBytes_empty {s : Chunks} (hs : s.bytes = []) (buf : List UInt8) :
    ∃ s', readBytes s buf = .ok (0, buf, s') ∧ s'.bytes = [] := by
  cases buf with
  | nil => exact readBytes_full [] (by rw [hs]; rfl) rfl
  | cons b buf =>
    have hlt : s.bytes.length < (b :: buf).length := by
      rw [hs]
      simp
    have hshort := readBytes_short (b :: buf) hlt
    simpa [hs] using hshort

/-! ## 5. Signs -/

/-- As an `int` the number is not negative. -/
def FitsInt (n : Nat) : Prop := n % 2 ^ 32 < 2 ^ 31

instance (n : Nat) : Decidable (FitsInt n) := inferInstanceAs (Decidable (_ < _))

theorem neg_iff {a : Int32} : a < 0 ↔ a.toBitVec.msb = true := by
  rw [← Bool.not_eq_false, ← nonneg_iff, Int32.not_le]

/-- One negative result is enough. -/
theorem or_neg_iff {a b : Int32} : a ||| b < 0 ↔ a < 0 ∨ b < 0 := by
  rw [neg_iff, neg_iff, neg_iff, Int32.toBitVec_or, BitVec.msb_or, Bool.or_eq_true]

theorem ofNat_nonneg_iff {n : Nat} : 0 ≤ Int32.ofNat n ↔ FitsInt n := by
  rw [nonneg_iff, Int32.toBitVec_ofNat', BitVec.msb_eq_decide, FitsInt, BitVec.toNat_ofNat]
  simp

/-! ## 6. One round of the loop -/

/-- How many bytes of the `i`-th local file are written, when it has `size` bytes. -/
def Machine.written (m : Machine) (i size : Nat) : Nat := min ((m.answer i).getD 0) size

/-- The local files after the `i`-th of them. -/
def Machine.store (m : Machine) (i : Nat) (dirname : CStr) (files : Files)
    (pathname contents : List UInt8) : Files :=
  match m.answer i with
  | none => files
  | some n => Function.update files (localPath dirname pathname)
      (some (contents.take (min n contents.length)))

variable {m : Machine} {dirname : CStr} {files : Files} {s s₁ s₂ : Chunks} {err : Int32}
  {i numFiles : Nat}

theorem writeFileToDir_eq (pathname contents : List UInt8) :
    writeFileToDir m i (some dirname) files pathname contents =
      .ok (if m.written i contents.length = 0 then -1 else 0,
        m.store i dirname files pathname contents) := by
  unfold writeFileToDir Machine.written Machine.store
  cases m.answer i with
  | none => simp
  | some n =>
    simp only [Option.getD_some]
    split <;> rfl

/-- What the two reads of a round give, whether it was sent or not. -/
structure Reads (m : Machine) (s : Chunks) (lenPath lenContents : Nat) (buffer : List UInt8)
    (result : Int32) (s' : Chunks) : Prop where
  header : ∃ result₁ bufferLengths s₁, 0 ≤ result₁ ∧
    readBytes s (List.replicate 16 0) = .ok (result₁, bufferLengths, s₁) ∧
    bigEndianToU64 bufferLengths = .ok lenPath ∧
    bigEndianToU64 (bufferLengths.drop 8) = .ok lenContents ∧
    readBytes s₁ (m.xmalloc (lenPath + lenContents)) = .ok (result, buffer, s')
  sum : lenPath + lenContents < wordSize
  buffer : buffer.length = lenPath + lenContents

namespace Reads

variable {lenPath lenContents : Nat} {buffer : List UInt8} {result : Int32} {s' : Chunks}

theorem nonzero_of_fine {a b : Int32} (ha : Fine a) : ¬ (a ||| b = 0) := by
  intro heq
  have hbits := congrArg Int32.toBitVec heq
  rw [Int32.toBitVec_or] at hbits
  exact ha.2 (Int32.toBitVec_inj.mp (BitVec.or_eq_zero_iff.mp hbits).1)

/-- The rest of the round: the local file, and on to the next one. -/
theorem round (h : Reads m s lenPath lenContents buffer result s') (herr : Fine err)
    (dirname : CStr) (files : Files) (numFiles i : Nat) :
    ∃ err', (0 ≤ result → Fine err') ∧
      readFiles m (some dirname) (numFiles + 1) i err files s =
        if m.written i lenContents = 0 ∨ result < 0 then
          .ok (-1, m.store i dirname files (buffer.take lenPath)
            ((buffer.drop lenPath).take lenContents), s')
        else
          readFiles m (some dirname) numFiles (i + 1) err' (m.store i dirname files
            (buffer.take lenPath) ((buffer.drop lenPath).take lenContents)) s' := by
  obtain ⟨result₁, bufferLengths, s₁, hresult, hheader, hpath, hcontents, hbody⟩ := h.header
  have herr₁ := herr.or hresult
  have hlength : ((buffer.drop lenPath).take lenContents).length = lenContents := by
    rw [List.length_take, List.length_drop, h.buffer]
    omega
  refine ⟨err ||| result₁ ||| result ||| 0, fun hpos => ?_, ?_⟩
  · exact (herr₁.or hpos).or (by decide)
  · rw [readFiles, hheader]
    simp only [Exec.ok_bind, if_neg herr₁.not_neg, hpath, hcontents, wadd_of_lt h.sum, hbody,
      if_neg (nonzero_of_fine herr₁), h.buffer, Nat.lt_irrefl, if_false, writeFileToDir_eq, hlength,
      Exec.pure_eq_ok]
    by_cases hwritten : m.written i lenContents = 0
    · have hneg : err ||| result₁ ||| result ||| -1 < 0 := or_neg_iff.mpr (Or.inr (by decide))
      rw [if_pos hwritten, if_pos hneg, if_pos (Or.inl hwritten)]
    · by_cases hneg : result < 0
      · have hneg' : err ||| result₁ ||| result ||| 0 < 0 :=
          or_neg_iff.mpr (Or.inl (or_neg_iff.mpr (Or.inr hneg)))
        rw [if_neg hwritten, if_pos hneg', if_pos (Or.inr hneg)]
      · have hpos : 0 ≤ result := Int32.not_lt.mp hneg
        have hfine : Fine (err ||| result₁ ||| result ||| 0) := (herr₁.or hpos).or (by decide)
        rw [if_neg hwritten, if_neg hfine.not_neg, if_neg (not_or.mpr ⟨hwritten, hneg⟩)]

/-- Without a directory the round ends in `strlen(NULL)`. -/
theorem round_null (h : Reads m s lenPath lenContents buffer result s') (herr : Fine err) :
    readFiles m none (numFiles + 1) i err files s = .error .fault := by
  obtain ⟨result₁, bufferLengths, s₁, hresult, hheader, hpath, hcontents, hbody⟩ := h.header
  have herr₁ := herr.or hresult
  rw [readFiles, hheader]
  simp only [Exec.ok_bind, if_neg herr₁.not_neg, hpath, hcontents, wadd_of_lt h.sum, hbody,
    if_neg (nonzero_of_fine herr₁), h.buffer, Nat.lt_irrefl, if_false, writeFileToDir]
  rfl

/-- A record that was sent. -/
theorem of_record {pair : List UInt8 × List UInt8} {rest : List UInt8}
    (hs : s.bytes = record pair ++ rest) (hsum : pair.1.length + pair.2.length < wordSize) :
    ∃ s', Reads m s pair.1.length pair.2.length (pair.1 ++ pair.2)
      (Int32.ofNat (pair.1.length + pair.2.length)) s' ∧ s'.bytes = rest := by
  rw [record, List.append_assoc] at hs
  obtain ⟨s₁, hheader, hs₁⟩ := readBytes_full (List.replicate 16 0) hs (by simp)
  obtain ⟨s₂, hbody, hs₂⟩ := readBytes_full (m.xmalloc (pair.1.length + pair.2.length)) hs₁
    (by simp)
  have hsecond := bigEndianToU64_u64ToBigEndian (show pair.2.length < wordSize by omega) []
  rw [List.append_nil] at hsecond
  refine ⟨s₂, ⟨⟨_, _, s₁, ?_, hheader, ?_, ?_, ?_⟩, hsum, List.length_append⟩, hs₂⟩
  · decide
  · exact bigEndianToU64_u64ToBigEndian (by omega) _
  · rw [List.drop_left' (u64ToBigEndian_length _)]
    exact hsecond
  · rw [Machine.xmalloc_length] at hbody
    exact hbody

/-- Behind the end of the stream the lengths are zero. -/
theorem of_empty (hs : s.bytes = []) : ∃ s', Reads m s 0 0 [] 0 s' ∧ s'.bytes = [] := by
  obtain ⟨s₁, hheader, hs₁⟩ := readBytes_empty hs (List.replicate 16 0)
  obtain ⟨s₂, hbody, hs₂⟩ := readBytes_empty hs₁ (m.xmalloc 0)
  refine ⟨s₂, ⟨⟨_, _, s₁, ?_, hheader, ?_, ?_, hbody⟩, wordSize_pos, rfl⟩, hs₂⟩
  · decide
  · decide
  · decide

end Reads

/-! ## 7. Files that were sent whole -/

/-- A file as it is sent: its path and its contents. -/
abbrev Pair := List UInt8 × List UInt8

/-- The reply to `writeFile` with these evicted files. -/
def response (pairs : List Pair) : List UInt8 :=
  [responseOk] ++ (u64ToBigEndian pairs.length ++ pairs.flatMap record)

/-- The round of the `i`-th file goes on to the next one: a byte is written, and what `read_bytes`
returns is not negative as an `int`. -/
def Machine.Takes (m : Machine) (i : Nat) (pair : Pair) : Prop :=
  m.written i pair.2.length ≠ 0 ∧ FitsInt (pair.1.length + pair.2.length)

instance (m : Machine) (i : Nat) (pair : Pair) : Decidable (m.Takes i pair) :=
  inferInstanceAs (Decidable (_ ∧ _))

/-- The same for all of these files, the first of which is the `i`-th. -/
def Machine.TakesAll (m : Machine) : Nat → List Pair → Prop
  | _, [] => True
  | i, pair :: pairs => m.Takes i pair ∧ m.TakesAll (i + 1) pairs

/-- The local files after all of these. -/
def Machine.storeAll (m : Machine) (dirname : CStr) : Nat → Files → List Pair → Files
  | _, files, [] => files
  | i, files, pair :: pairs =>
      m.storeAll dirname (i + 1) (m.store i dirname files pair.1 pair.2) pairs

theorem Machine.takesAll_append {pairs pairs' : List Pair} :
    m.TakesAll i (pairs ++ pairs') ↔ m.TakesAll i pairs ∧ m.TakesAll (i + pairs.length) pairs' := by
  induction pairs generalizing i with
  | nil => simp [TakesAll]
  | cons pair pairs ih =>
    rw [List.cons_append, TakesAll, TakesAll, ih, and_assoc, List.length_cons]
    rw [show i + 1 + pairs.length = i + (pairs.length + 1) by omega]

theorem Machine.storeAll_append {pairs pairs' : List Pair} :
    m.storeAll dirname i files (pairs ++ pairs') =
      m.storeAll dirname (i + pairs.length) (m.storeAll dirname i files pairs) pairs' := by
  induction pairs generalizing i files with
  | nil => rfl
  | cons pair pairs ih =>
    rw [List.cons_append, storeAll, storeAll, ih, List.length_cons,
      show i + 1 + pairs.length = i + (pairs.length + 1) by omega]

/-- The first file whose round does not go on. -/
theorem Machine.not_takesAll {pairs : List Pair} (h : ¬ m.TakesAll i pairs) :
    ∃ before pair after, pairs = before ++ pair :: after ∧ m.TakesAll i before ∧
      ¬ m.Takes (i + before.length) pair := by
  induction pairs generalizing i with
  | nil => exact absurd trivial h
  | cons pair pairs ih =>
    by_cases htakes : m.Takes i pair
    · obtain ⟨before, pair', after, rfl, hbefore, hpair⟩ := ih fun hall => h ⟨htakes, hall⟩
      refine ⟨pair :: before, pair', after, rfl, ⟨htakes, hbefore⟩, ?_⟩
      rwa [List.length_cons, show i + (before.length + 1) = i + 1 + before.length by omega]
    · exact ⟨[], pair, pairs, rfl, trivial, htakes⟩

theorem readFiles_record (dirname : CStr) (files : Files) (numFiles i : Nat) {pair : Pair}
    {rest : List UInt8} (herr : Fine err) (hs : s.bytes = record pair ++ rest)
    (hsum : pair.1.length + pair.2.length < wordSize) :
    ∃ err' s', s'.bytes = rest ∧ (m.Takes i pair → Fine err') ∧
      readFiles m (some dirname) (numFiles + 1) i err files s =
        if m.Takes i pair then
          readFiles m (some dirname) numFiles (i + 1) err' (m.store i dirname files pair.1 pair.2) s'
        else
          .ok (-1, m.store i dirname files pair.1 pair.2, s') := by
  obtain ⟨s', hreads, hs'⟩ := Reads.of_record (m := m) hs hsum
  obtain ⟨err', hfine, hround⟩ := hreads.round herr dirname files numFiles i
  rw [List.take_left, List.drop_left, List.take_length] at hround
  refine ⟨err', s', hs', fun htakes => hfine (ofNat_nonneg_iff.mpr htakes.2), ?_⟩
  rw [hround]
  by_cases htakes : m.Takes i pair
  · have hneg : ¬ Int32.ofNat (pair.1.length + pair.2.length) < 0 :=
      Int32.not_lt.mpr (ofNat_nonneg_iff.mpr htakes.2)
    rw [if_neg (not_or.mpr ⟨htakes.1, hneg⟩), if_pos htakes]
  · rw [if_neg htakes, if_pos]
    rw [Machine.Takes, ← ofNat_nonneg_iff, not_and_or, Int32.not_le, Decidable.not_not] at htakes
    exact htakes

/-- Rounds that go on, one after the other. -/
theorem readFiles_takesAll (dirname : CStr) (files : Files) (numFiles : Nat) {pairs : List Pair}
    {rest : List UInt8} (herr : Fine err) (hs : s.bytes = pairs.flatMap record ++ rest)
    (hsum : ∀ pair ∈ pairs, pair.1.length + pair.2.length < wordSize)
    (htakes : m.TakesAll i pairs) :
    ∃ err' s', Fine err' ∧ s'.bytes = rest ∧
      readFiles m (some dirname) (pairs.length + numFiles) i err files s =
        readFiles m (some dirname) numFiles (i + pairs.length) err'
          (m.storeAll dirname i files pairs) s' := by
  induction pairs generalizing i err files s with
  | nil => exact ⟨err, s, herr, hs, by simp [Machine.storeAll]⟩
  | cons pair pairs ih =>
    rw [List.flatMap_cons, List.append_assoc] at hs
    obtain ⟨err₁, s₁, hs₁, hfine, hround⟩ := readFiles_record dirname files
      (pairs.length + numFiles) i herr hs (hsum pair (by simp))
    obtain ⟨err', s', herr', hs', hrest⟩ := ih (m.store i dirname files pair.1 pair.2)
      (hfine htakes.1) hs₁ (fun p hp => hsum p (List.mem_cons_of_mem _ hp)) htakes.2
    refine ⟨err', s', herr', hs', ?_⟩
    rw [List.length_cons, show pairs.length + 1 + numFiles = pairs.length + numFiles + 1 by omega,
      hround, if_pos htakes.1, hrest, show i + 1 + pairs.length = i + (pairs.length + 1) by omega]
    rfl

/-- The loop ends with the first round that does not go on, whatever comes behind. -/
theorem readFiles_stops (dirname : CStr) (files : Files) (numFiles : Nat) {before : List Pair}
    {pair : Pair} {rest : List UInt8} (herr : Fine err)
    (hs : s.bytes = before.flatMap record ++ (record pair ++ rest))
    (hsum : ∀ p ∈ before, p.1.length + p.2.length < wordSize)
    (hsum' : pair.1.length + pair.2.length < wordSize)
    (htakes : m.TakesAll i before) (hstop : ¬ m.Takes (i + before.length) pair) :
    ∃ s', s'.bytes = rest ∧
      readFiles m (some dirname) (before.length + (numFiles + 1)) i err files s =
        .ok (-1, m.storeAll dirname i files (before ++ [pair]), s') := by
  obtain ⟨err₁, s₁, herr₁, hs₁, hbefore⟩ := readFiles_takesAll dirname files (numFiles + 1) herr
    hs hsum htakes
  obtain ⟨err₂, s₂, hs₂, -, hround⟩ := readFiles_record dirname
    (m.storeAll dirname i files before) numFiles (i + before.length) herr₁ hs₁ hsum'
  refine ⟨s₂, hs₂, ?_⟩
  rw [hbefore, hround, if_neg hstop, Machine.storeAll_append]
  rfl

/-- The status byte and the number of files. -/
theorem handleResponse_header (m : Machine) (dirname : Option CStr) (files : Files) {n : Nat}
    {rest : List UInt8} (hn : n < wordSize) (hs : s.bytes = [responseOk] ++ (u64ToBigEndian n ++ rest)) :
    ∃ err s', Fine err ∧ s'.bytes = rest ∧
      handleResponseWithFiles m dirname files s = readFiles m dirname n 0 err files s' := by
  obtain ⟨s₁, hcode, hs₁⟩ := readBytes_full [0] hs rfl
  obtain ⟨s₂, hcount, hs₂⟩ := readBytes_full (List.replicate 8 0) hs₁ (by simp)
  have hnum := bigEndianToU64_u64ToBigEndian hn []
  rw [List.append_nil] at hnum
  refine ⟨0 ||| Int32.ofNat 1 ||| Int32.ofNat 8, s₂, by decide, hs₂, ?_⟩
  have hcode' : ¬ ((0 : Int32) ||| Int32.ofNat 1 < 0 ∨ [responseOk] = [responseErr]) := by decide
  have herr : ¬ ((0 : Int32) ||| Int32.ofNat 1 ||| Int32.ofNat 8 < 0) := by decide
  rw [handleResponseWithFiles, hcode]
  simp only [Exec.ok_bind, List.length_singleton, if_neg hcode', hcount, List.length_replicate,
    if_neg herr, hnum]

/-! ## 8. The decoders that wait -/

/-- A read that does not have to wait is the same read here. -/
theorem readBytes_agrees (buf : List UInt8) {bytes rest : List UInt8} {result : Int32}
    (h : Client.readBytes s.bytes buf.length = .ok (result, bytes, rest)) :
    ∃ s', readBytes s buf = .ok (result, bytes, s') ∧ s'.bytes = rest := by
  obtain ⟨hle, heq⟩ := readBytes_eq_ok.mp h
  cases heq
  exact readBytes_full buf (List.take_append_drop _ _).symm (by rw [List.length_take]; omega)

/-- What `write_file_to_dir` returns when every local file can be written. -/
def keepsNonempty (_ contents : List UInt8) : Int32 := if contents = [] then -1 else 0

theorem readFiles_agrees (hanswer : ∀ i, ∃ n, 0 < n ∧ m.answer i = some n) {result : Int32}
    {pairs : List Pair} {rest : List UInt8}
    (h : Client.readFiles keepsNonempty numFiles err s.bytes = .ok (result, pairs, rest)) :
    ∃ files' s', readFiles m (some dirname) numFiles i err files s = .ok (result, files', s') ∧
      s'.bytes = rest := by
  induction numFiles generalizing i err files s pairs with
  | zero =>
    cases h
    exact ⟨files, s, rfl, rfl⟩
  | succ numFiles ih =>
    obtain ⟨⟨result₁, bufferLengths, rest₁⟩, hread, h⟩ := Exec.bind_eq_ok.mp h
    obtain ⟨s₁, hheader, hs₁⟩ := readBytes_agrees (List.replicate 16 0) hread
    rw [readFiles, hheader, Exec.ok_bind]
    simp only at h ⊢
    split at h
    · rename_i hneg
      cases h
      exact ⟨files, s₁, by rw [if_pos hneg]; rfl, hs₁⟩
    · rename_i hneg
      obtain ⟨lenPath, hpath, h⟩ := Exec.bind_eq_ok.mp h
      obtain ⟨lenContents, hcontents, h⟩ := Exec.bind_eq_ok.mp h
      obtain ⟨⟨result₂, buffer, rest₂⟩, hread₂, h⟩ := Exec.bind_eq_ok.mp h
      rw [← hs₁] at hread₂
      obtain ⟨s₂, hbody, hs₂⟩ := readBytes_agrees
        (m.xmalloc (wadd lenPath lenContents)) (by rwa [Machine.xmalloc_length])
      rw [if_neg hneg, hpath, Exec.ok_bind, hcontents, Exec.ok_bind, hbody, Exec.ok_bind]
      simp only at h ⊢
      split at h
      · rename_i hzero
        cases h
        exact ⟨files, s₂, by rw [if_pos hzero]; rfl, hs₂⟩
      · rename_i hzero
        split at h
        · cases h
        · rename_i hroom
          have hwritten : (if m.written i ((buffer.drop lenPath).take lenContents).length = 0
              then (-1 : Int32) else 0) =
                keepsNonempty (buffer.take lenPath) ((buffer.drop lenPath).take lenContents) := by
            obtain ⟨n, hn, hm⟩ := hanswer i
            unfold Machine.written keepsNonempty
            rw [hm, Option.getD_some]
            congr 1
            rw [eq_iff_iff, Nat.min_eq_zero_iff, List.length_eq_zero_iff]
            exact or_iff_right (Nat.ne_of_gt hn)
          rw [if_neg hzero, if_neg hroom, writeFileToDir_eq, hwritten]
          simp only [Exec.ok_bind]
          split at h
          · rename_i hneg'
            cases h
            exact ⟨_, s₂, by rw [if_pos hneg']; rfl, hs₂⟩
          · rename_i hneg'
            obtain ⟨⟨result₃, pairs', rest₃⟩, hrest, h⟩ := Exec.bind_eq_ok.mp h
            cases h
            rw [← hs₂] at hrest
            rw [if_neg hneg']
            exact ih hrest

theorem simpleResponse_agrees {result : Int32} {rest : List UInt8}
    (h : Client.simpleResponse s.bytes = .ok (result, rest)) :
    (simpleResponse s).1 = result ∧ (simpleResponse s).2.bytes = rest := by
  obtain ⟨⟨result₁, buffer, rest₁⟩, hread, h⟩ := Exec.bind_eq_ok.mp h
  obtain ⟨hle, heq⟩ := readBytes_eq_ok.mp hread
  cases heq
  obtain ⟨hsplit, hone, hend⟩ := read_spec s Nat.one_pos
  -- the byte is there, so that `read` returns it
  have hlength : (read s 1).1.length = 1 := by
    refine Nat.le_antisymm hone (List.length_pos_iff.mpr fun hnil => ?_)
    rw [hend hnil] at hle
    cases hle
  have htake : s.bytes.take 1 = (read s 1).1 := by
    rw [hsplit, List.take_left' hlength]
  have hdrop : s.bytes.drop 1 = (read s 1).2.bytes := by
    conv_lhs => rw [hsplit]
    rw [List.drop_left' hlength]
  rw [htake, hdrop] at h
  simp only [simpleResponse, hlength]
  have hbuffer : (read s 1).1 ++ [0].drop 1 = (read s 1).1 := List.append_nil _
  rw [hbuffer]
  simp only at h
  split at h
  · rename_i hneg
    cases h
    rw [if_pos hneg]
    exact ⟨rfl, rfl⟩
  · rename_i hneg
    rw [if_neg hneg]
    split at h
    · rename_i hcode
      cases h
      rw [if_pos hcode]
      exact ⟨rfl, rfl⟩
    · rename_i hcode
      cases h
      rw [if_neg hcode]
      exact ⟨rfl, rfl⟩

/-- On a connection that has the whole reply, the two models of the decoder agree. -/
theorem handleResponse_agrees (hanswer : ∀ i, ∃ n, 0 < n ∧ m.answer i = some n) {result : Int32}
    {pairs : List Pair} {rest : List UInt8}
    (h : Client.handleResponseWithFiles keepsNonempty s.bytes = .ok (result, pairs, rest)) :
    ∃ files' s', handleResponseWithFiles m (some dirname) files s = .ok (result, files', s') ∧
      s'.bytes = rest := by
  obtain ⟨⟨result₁, code, rest₁⟩, hread, h⟩ := Exec.bind_eq_ok.mp h
  obtain ⟨s₁, hcode, hs₁⟩ := readBytes_agrees [0] hread
  rw [handleResponseWithFiles, hcode, Exec.ok_bind]
  simp only at h ⊢
  split at h
  · rename_i hneg
    cases h
    exact ⟨files, s₁, by rw [if_pos hneg]; rfl, hs₁⟩
  · rename_i hneg
    obtain ⟨⟨result₂, count, rest₂⟩, hread₂, h⟩ := Exec.bind_eq_ok.mp h
    rw [← hs₁] at hread₂
    obtain ⟨s₂, hcount, hs₂⟩ := readBytes_agrees (List.replicate 8 0) hread₂
    rw [if_neg hneg, hcount, Exec.ok_bind]
    simp only at h ⊢
    split at h
    · rename_i hneg'
      cases h
      exact ⟨files, s₂, by rw [if_pos hneg']; rfl, hs₂⟩
    · rename_i hneg'
      obtain ⟨numFiles, hnum, h⟩ := Exec.bind_eq_ok.mp h
      rw [if_neg hneg', hnum, Exec.ok_bind]
      rw [← hs₂] at h
      exact readFiles_agrees hanswer h

/-! ## 9. Samples -/

/-- A machine on which every local file can be written. -/
def sampleMachine : Machine where
  answer := fun _ => some 100
  garbage := fun _ => 63

/-- Bytes that arrive one by one. -/
def oneByOne (bytes : List UInt8) : Chunks := bytes.map fun b => ⟨b, []⟩

theorem oneByOne_bytes (bytes : List UInt8) : (oneByOne bytes).bytes = bytes := by
  induction bytes with
  | nil => rfl
  | cons b bytes ih =>
    rw [oneByOne, List.map_cons, Chunks.bytes_cons]
    exact congrArg (b :: ·) ih

end FileStorage.Client.EndOfStream
