import FileStorage.Client.EndOfStream

/-!
# Truncation — a reply that ends before its last byte

`read_bytes` returns 0 at the end of the stream, and its callers test for negative results only.  The
buffers of the status byte and of the numbers start as zeros: a missing status byte is
`RESPONSE_OK`, and the missing bytes of a number are its low ones.
-/

namespace FileStorage.Client.EndOfStream

open Server

variable {m : Machine} {dirname : Option CStr} {files : Files} {s : Chunks} {err : Int32}
  {i j n numFiles : Nat}

/-! ## 1. Replies -/

inductive Reply where
  | simple (code : UInt8)
  | readFile (contents : Option (List UInt8))   -- `none` for `RESPONSE_ERR`
  | writeFile (evicted : Option (List Pair))    -- likewise
deriving DecidableEq

namespace Reply

def bytes : Reply → List UInt8
  | simple code => [code]
  | readFile none | writeFile none => [responseErr]
  | readFile (some contents) => [responseOk] ++ (u64ToBigEndian contents.length ++ contents)
  | writeFile (some pairs) => response pairs

/-- The numbers in the reply are words. -/
def WellFormed : Reply → Prop
  | simple _ | readFile none | writeFile none => True
  | readFile (some contents) => contents.length < wordSize
  | writeFile (some pairs) => pairs.length < wordSize ∧
      ∀ pair ∈ pairs, pair.1.length + pair.2.length < wordSize

/-- What the call that waits for this reply returns. -/
def returned (m : Machine) (dirname : Option CStr) (files : Files) (s : Chunks) :
    Reply → Exec Int32
  | simple _ => .ok (simpleResponse s).1
  | readFile _ => (readFileResponse m s).map (·.1)
  | writeFile _ => (handleResponseWithFiles m dirname files s).map (·.1)

end Reply

/-- The number that is left of `n` when only the first `j` of its eight bytes arrive. -/
def arrived (n j : Nat) : Nat := n / 256 ^ (8 - j) * 256 ^ (8 - j)

/-- The bytes `cut` of a reply with these files end inside the number of files, of which enough
arrives to make it positive, or inside a file that is not the last one, or behind a local file that
could not be written, or the file that is cut cannot be written itself. -/
def CutNoticed (m : Machine) (pairs : List Pair) (cut : List UInt8) : Prop :=
  (∃ j < 8, cut = [responseOk] ++ (u64ToBigEndian pairs.length).take j ∧
    arrived pairs.length j ≠ 0) ∨
  ∃ before pair after j, pairs = before ++ pair :: after ∧ j < (record pair).length ∧
    cut = [responseOk] ++ (u64ToBigEndian pairs.length ++
      (before.flatMap record ++ (record pair).take j)) ∧
    (after ≠ [] ∨ ¬ m.TakesAll 0 before ∨
      m.written before.length (arrived pair.2.length (j - 8)) = 0)

/-- Only `writeFile` with a directory can notice. -/
def Noticed (m : Machine) (dirname : Option CStr) (cut : List UInt8) : Reply → Prop
  | .writeFile (some pairs) => dirname.isSome ∧ CutNoticed m pairs cut
  | _ => False

/-! ## 2. Numbers that are cut -/

theorem arrived_le (n j : Nat) : arrived n j ≤ n := Nat.div_mul_le_self _ _

theorem arrived_of_le (n : Nat) (h : 8 ≤ j) : arrived n j = n := by
  simp [arrived, Nat.sub_eq_zero_of_le h]

theorem bigEndianToU64_cut (hn : n < wordSize) (j : Nat) (rest : List UInt8) :
    bigEndianToU64 ((u64ToBigEndian n).take j ++ List.replicate (8 - j) 0 ++ rest) =
      .ok (arrived n j) := by
  rcases Nat.lt_or_ge j 8 with hj | hj
  · have hlength : ((u64ToBigEndian n).take j ++ List.replicate (8 - j) 0).length = 8 := by
      rw [List.length_append, List.length_take, u64ToBigEndian_length, List.length_replicate]
      omega
    rw [bigEndianToU64_append hlength, bigEndianValue_zeros,
      bigEndianValue_take hn (Nat.le_of_lt hj), arrived]
  · rw [List.take_of_length_le (by simpa using hj), Nat.sub_eq_zero_of_le hj, List.replicate_zero,
      List.append_nil, bigEndianToU64_u64ToBigEndian hn, arrived_of_le n hj]

/-- Two numbers whose last bytes are missing, in a buffer of zeros. -/
theorem lengths_cut (a b : Nat) (hj : j ≤ 16) :
    (u64ToBigEndian a ++ u64ToBigEndian b).take j ++ List.replicate (16 - j) 0 =
      ((u64ToBigEndian a).take j ++ List.replicate (8 - j) 0) ++
        ((u64ToBigEndian b).take (j - 8) ++ List.replicate (8 - (j - 8)) 0) := by
  rw [List.take_append, u64ToBigEndian_length]
  rcases Nat.lt_or_ge 8 j with hlt | hle
  · rw [Nat.sub_eq_zero_of_le (Nat.le_of_lt hlt), List.replicate_zero, List.append_nil,
      List.append_assoc, show 8 - (j - 8) = 16 - j by omega]
  · rw [Nat.sub_eq_zero_of_le hle, List.take_zero, List.append_nil, List.nil_append,
      List.append_assoc, List.replicate_append_replicate, show 8 - j + (8 - 0) = 16 - j by omega]

/-- A round that finds the end of the stream: the lengths are those that arrived. -/
theorem Reads.of_cut {pair : Pair} (hs : s.bytes = (record pair).take j)
    (hj : j < (record pair).length) (hsum : pair.1.length + pair.2.length < wordSize) :
    ∃ buffer s', Reads m s (arrived pair.1.length j) (arrived pair.2.length (j - 8)) buffer 0 s' ∧
      s'.bytes = [] := by
  have hpath : pair.1.length < wordSize := by omega
  have hcontents : pair.2.length < wordSize := by omega
  have hle : arrived pair.1.length j + arrived pair.2.length (j - 8) < wordSize :=
    Nat.lt_of_le_of_lt (Nat.add_le_add (arrived_le _ _) (arrived_le _ _)) hsum
  have hheader : (u64ToBigEndian pair.1.length ++ u64ToBigEndian pair.2.length).length = 16 := rfl
  rw [record, List.take_append, hheader] at hs
  rcases Nat.lt_or_ge j 16 with hlt | hge
  · -- the end is inside the lengths
    rw [Nat.sub_eq_zero_of_le (Nat.le_of_lt hlt), List.take_zero, List.append_nil] at hs
    have hlength : s.bytes.length = j := by
      rw [hs, List.length_take, hheader]
      omega
    obtain ⟨s₁, hread, hs₁⟩ := readBytes_short (List.replicate 16 0)
      (show s.bytes.length < _ by rw [hlength, List.length_replicate]; exact hlt)
    rw [hlength, hs, List.drop_replicate, lengths_cut _ _ (Nat.le_of_lt hlt)] at hread
    obtain ⟨s₂, hbody, hs₂⟩ := readBytes_empty hs₁
      (m.xmalloc (arrived pair.1.length j + arrived pair.2.length (j - 8)))
    refine ⟨_, s₂, ⟨⟨_, _, s₁, by decide, hread, ?_, ?_, hbody⟩, hle, by simp⟩, hs₂⟩
    · exact bigEndianToU64_cut hpath j _
    · rw [List.drop_left' (by simp; omega)]
      have hsecond := bigEndianToU64_cut hcontents (j - 8) []
      rwa [List.append_nil] at hsecond
  · -- the end is inside the path or the contents
    rw [List.take_of_length_le (by rw [hheader]; exact hge)] at hs
    have hbodyLength : (record pair).length = 16 + (pair.1.length + pair.2.length) := by
      simp [record]
      omega
    obtain ⟨s₁, hread, hs₁⟩ := readBytes_full (List.replicate 16 0) hs (by simp)
    obtain ⟨s₂, hbody, hs₂⟩ := readBytes_short (m.xmalloc (pair.1.length + pair.2.length))
      (show s₁.bytes.length < _ by rw [hs₁, Machine.xmalloc_length, List.length_take]; omega)
    rw [arrived_of_le _ (by omega), arrived_of_le _ (by omega)]
    have hsecond := bigEndianToU64_u64ToBigEndian hcontents []
    rw [List.append_nil] at hsecond
    refine ⟨_, s₂, ⟨⟨_, _, s₁, by decide, hread, ?_, ?_, hbody⟩, hsum, ?_⟩, hs₂⟩
    · exact bigEndianToU64_u64ToBigEndian hpath _
    · rw [List.drop_left' (u64ToBigEndian_length _)]
      exact hsecond
    · rw [List.length_append, List.length_drop, Machine.xmalloc_length, hs₁, List.length_take,
        List.length_append]
      omega

/-! ## 3. The loop at the end of the stream -/

/-- A round behind the end takes an empty file, and an empty file is an error. -/
theorem readFiles_ended (dirname : CStr) (files : Files) (numFiles i : Nat) (herr : Fine err)
    (hs : s.bytes = []) :
    ∃ files' s', readFiles m (some dirname) (numFiles + 1) i err files s =
      .ok (-1, files', s') := by
  obtain ⟨s', hreads, -⟩ := Reads.of_empty (m := m) hs
  obtain ⟨err', -, hround⟩ := hreads.round herr dirname files numFiles i
  rw [hround, if_pos (Or.inl (by simp [Machine.written]))]
  exact ⟨_, _, rfl⟩

theorem readFiles_cut (dirname : CStr) (files : Files) (numFiles i : Nat) {pair : Pair}
    (herr : Fine err) (hs : s.bytes = (record pair).take j) (hj : j < (record pair).length)
    (hsum : pair.1.length + pair.2.length < wordSize) :
    ∃ files' s', readFiles m (some dirname) (numFiles + 1) i err files s =
      .ok (if numFiles ≠ 0 ∨ m.written i (arrived pair.2.length (j - 8)) = 0 then -1 else 0,
        files', s') := by
  obtain ⟨buffer, s', hreads, hs'⟩ := Reads.of_cut (m := m) hs hj hsum
  obtain ⟨err', hfine, hround⟩ := hreads.round herr dirname files numFiles i
  rw [hround]
  by_cases hwritten : m.written i (arrived pair.2.length (j - 8)) = 0
  · rw [if_pos (Or.inl hwritten), if_pos (Or.inr hwritten)]
    exact ⟨_, _, rfl⟩
  · rw [if_neg (not_or.mpr ⟨hwritten, by decide⟩)]
    cases numFiles with
    | zero =>
      rw [if_neg (not_or.mpr ⟨fun hne => hne rfl, hwritten⟩)]
      exact ⟨_, _, rfl⟩
    | succ numFiles =>
      rw [if_pos (Or.inl (Nat.succ_ne_zero _))]
      exact readFiles_ended dirname _ numFiles (i + 1) (hfine (by decide)) hs'

/-! ## 4. Where a reply can be cut -/

theorem cut_append {cut a b : List UInt8} (hpre : cut <+: a ++ b) (hne : cut ≠ a ++ b) :
    (∃ j < a.length, cut = a.take j) ∨ ∃ t, cut = a ++ t ∧ t <+: b ∧ t ≠ b := by
  rcases Nat.lt_or_ge cut.length a.length with hlt | hge
  · refine Or.inl ⟨cut.length, hlt, ?_⟩
    have htake := List.prefix_iff_eq_take.mp hpre
    rwa [List.take_append_of_le_length (Nat.le_of_lt hlt)] at htake
  · obtain ⟨t, rfl⟩ := List.prefix_of_prefix_length_le (List.prefix_append a b) hpre hge
    refine Or.inr ⟨t, rfl, (List.prefix_append_right_inj a).mp hpre, fun heq => hne ?_⟩
    rw [heq]

theorem cut_records {cut : List UInt8} {pairs : List Pair} (hpre : cut <+: pairs.flatMap record)
    (hne : cut ≠ pairs.flatMap record) :
    ∃ before pair after j, pairs = before ++ pair :: after ∧ j < (record pair).length ∧
      cut = before.flatMap record ++ (record pair).take j := by
  induction pairs generalizing cut with
  | nil => exact absurd (List.prefix_nil.mp hpre) hne
  | cons pair pairs ih =>
    rw [List.flatMap_cons] at hpre hne
    rcases cut_append hpre hne with ⟨j, hj, rfl⟩ | ⟨t, rfl, hpre', hne'⟩
    · exact ⟨[], pair, pairs, j, rfl, hj, rfl⟩
    · obtain ⟨before, pair', after, j, rfl, hj, rfl⟩ := ih hpre' hne'
      exact ⟨pair :: before, pair', after, j, rfl, hj, by simp⟩

/-- A reply with files ends before the status byte, inside the number of files or inside a file. -/
theorem cut_response {cut : List UInt8} {pairs : List Pair} (hpre : cut <+: response pairs)
    (hne : cut ≠ response pairs) :
    cut = [] ∨ (∃ j < 8, cut = [responseOk] ++ (u64ToBigEndian pairs.length).take j) ∨
      ∃ before pair after j, pairs = before ++ pair :: after ∧ j < (record pair).length ∧
        cut = [responseOk] ++ (u64ToBigEndian pairs.length ++
          (before.flatMap record ++ (record pair).take j)) := by
  rcases cut_append hpre hne with ⟨j, hj, rfl⟩ | ⟨t, rfl, hpre, hne⟩
  · obtain rfl : j = 0 := by simpa using hj
    exact Or.inl rfl
  · rcases cut_append hpre hne with ⟨j, hj, rfl⟩ | ⟨t, rfl, hpre, hne⟩
    · exact Or.inr (Or.inl ⟨j, hj, rfl⟩)
    · obtain ⟨before, pair, after, j, hpairs, hj, rfl⟩ := cut_records hpre hne
      exact Or.inr (Or.inr ⟨before, pair, after, j, hpairs, hj, rfl⟩)

/-! ## 5. What the calls return -/

theorem simpleResponse_ended (hs : s.bytes = []) :
    (simpleResponse s).1 = 0 ∧ (simpleResponse s).2.bytes = [] := by
  obtain ⟨hsplit, -, -⟩ := read_spec s Nat.one_pos
  rw [hs, eq_comm, List.append_eq_nil_iff] at hsplit
  have herr : ¬ ((1 : Int32) ||| Int32.ofNat ([] : List UInt8).length < 0) := by decide
  have hcode : ¬ ([] ++ ([0] : List UInt8).drop ([] : List UInt8).length = [responseErr]) := by
    decide
  simp only [simpleResponse, hsplit.1, if_neg herr, if_neg hcode]
  exact ⟨trivial, hsplit.2⟩

/-- A positive status byte, or none at all. -/
theorem simpleResponse_ok {rest : List UInt8} (hs : s.bytes = [responseOk] ++ rest) :
    (simpleResponse s).1 = 0 ∧ (simpleResponse s).2.bytes = rest :=
  simpleResponse_agrees (by rw [hs]; rfl)

/-- Behind a status byte that was taken for `RESPONSE_OK`, a cut reply to `readFile` is a success. -/
theorem readFileResponse_cut {rest : List UInt8} (contents : List UInt8)
    (hcode : (simpleResponse s).1 = 0) (hrest : (simpleResponse s).2.bytes = rest)
    (hsize : contents.length < wordSize)
    (hpre : rest <+: u64ToBigEndian contents.length ++ contents)
    (hne : rest ≠ u64ToBigEndian contents.length ++ contents) :
    ∃ buf s', readFileResponse m s = .ok (0, buf, s') := by
  rw [readFileResponse]
  simp only [hcode, if_neg (show ¬ (0 : Int32) < 0 by decide)]
  rcases cut_append hpre hne with ⟨j, hj, hcut⟩ | ⟨t, hcut, hpre, hne⟩
  · -- the length is cut, and there are no contents
    have hlength : (simpleResponse s).2.bytes.length = j := by
      rw [hrest, hcut, List.length_take]
      exact Nat.min_eq_left (Nat.le_of_lt hj)
    obtain ⟨s₁, hread, hs₁⟩ := readBytes_short (List.replicate 8 0)
      (show (simpleResponse s).2.bytes.length < _ by rw [hlength]; simpa using hj)
    obtain ⟨s₂, hbody, -⟩ := readBytes_empty hs₁ (m.xmalloc (arrived contents.length j))
    have hnum := bigEndianToU64_cut hsize j []
    rw [hlength, hrest, hcut, List.drop_replicate] at hread
    rw [List.append_nil] at hnum
    rw [hread, Exec.ok_bind]
    simp only [if_neg (show ¬ (0 : Int32) ||| 0 < 0 by decide), hnum, Exec.ok_bind, hbody,
      if_neg (show ¬ (0 : Int32) ||| 0 ||| 0 < 0 by decide)]
    exact ⟨_, _, rfl⟩
  · -- the contents are cut
    obtain ⟨s₁, hread, hs₁⟩ := readBytes_full (List.replicate 8 0) (hrest.trans hcut)
      (by simp)
    have hshort : t.length < contents.length := by
      refine Nat.lt_of_le_of_ne hpre.length_le fun heq => hne ?_
      exact hpre.eq_of_length heq
    obtain ⟨s₂, hbody, -⟩ := readBytes_short (m.xmalloc contents.length)
      (show s₁.bytes.length < _ by rw [hs₁, Machine.xmalloc_length]; exact hshort)
    have hnum := bigEndianToU64_u64ToBigEndian hsize []
    rw [List.append_nil] at hnum
    rw [hread, Exec.ok_bind]
    simp only [List.length_replicate,
      if_neg (show ¬ (0 : Int32) ||| Int32.ofNat 8 < 0 by decide), hnum, Exec.ok_bind, hbody,
      if_neg (show ¬ (0 : Int32) ||| Int32.ofNat 8 ||| 0 < 0 by decide)]
    exact ⟨_, _, rfl⟩

/-- Without a single byte the reply is a success without files. -/
theorem handleResponse_ended (m : Machine) (dirname : Option CStr) (files : Files)
    (hs : s.bytes = []) :
    ∃ s', handleResponseWithFiles m dirname files s = .ok (0, files, s') := by
  obtain ⟨s₁, hcode, hs₁⟩ := readBytes_empty hs [0]
  obtain ⟨s₂, hcount, -⟩ := readBytes_empty hs₁ (List.replicate 8 0)
  have hcode' : ¬ ((0 : Int32) ||| 0 < 0 ∨ ([0] : List UInt8) = [responseErr]) := by decide
  have hnum : bigEndianToU64 (List.replicate 8 0) = .ok 0 := by decide
  rw [handleResponseWithFiles, hcode]
  simp only [Exec.ok_bind, if_neg hcode', hcount, if_neg (show ¬ (0 : Int32) ||| 0 ||| 0 < 0 by decide),
    hnum]
  exact ⟨s₂, rfl⟩

theorem handleResponse_count (m : Machine) (dirname : Option CStr) (files : Files)
    (hn : n < wordSize) (hj : j < 8) (hs : s.bytes = [responseOk] ++ (u64ToBigEndian n).take j) :
    ∃ err s', Fine err ∧ s'.bytes = [] ∧
      handleResponseWithFiles m dirname files s =
        readFiles m dirname (arrived n j) 0 err files s' := by
  obtain ⟨s₁, hcode, hs₁⟩ := readBytes_full [0] hs rfl
  have hlength : s₁.bytes.length = j := by
    rw [hs₁, List.length_take]
    exact Nat.min_eq_left (Nat.le_of_lt hj)
  obtain ⟨s₂, hcount, hs₂⟩ := readBytes_short (List.replicate 8 0)
    (show s₁.bytes.length < _ by rw [hlength]; simpa using hj)
  have hnum := bigEndianToU64_cut hn j []
  rw [hlength, hs₁, List.drop_replicate] at hcount
  rw [List.append_nil] at hnum
  have hcode' : ¬ ((0 : Int32) ||| Int32.ofNat 1 < 0 ∨ [responseOk] = [responseErr]) := by decide
  have herr : Fine ((0 : Int32) ||| Int32.ofNat 1 ||| 0) := by decide
  refine ⟨_, s₂, herr, hs₂, ?_⟩
  rw [handleResponseWithFiles, hcode]
  simp only [Exec.ok_bind, List.length_singleton, if_neg hcode', hcount, if_neg herr.not_neg, hnum]

/-- A reply that is cut inside the number of files. -/
theorem count_noticed_iff (hn : n < wordSize) (hj : j < 8)
    (hs : s.bytes = [responseOk] ++ (u64ToBigEndian n).take j) :
    (handleResponseWithFiles m dirname files s).map (·.1) = .ok (-1) ↔
      dirname.isSome ∧ arrived n j ≠ 0 := by
  obtain ⟨err, s', herr, hs', hloop⟩ := handleResponse_count m dirname files hn hj hs
  rw [hloop]
  cases hcount : arrived n j with
  | zero => simp [readFiles, Except.map]
  | succ numFiles =>
    cases dirname with
    | none =>
      obtain ⟨s'', hreads, -⟩ := Reads.of_empty (m := m) hs'
      rw [hreads.round_null herr]
      simp [Except.map]
    | some dirname =>
      obtain ⟨files', s'', hended⟩ := readFiles_ended (m := m) dirname files numFiles 0 herr hs'
      rw [hended]
      simp [Except.map]

/-- Without a directory a loop over at least one file ends in a fault, also when it is cut. -/
theorem readFiles_null {before : List Pair} {pair : Pair} (herr : Fine err)
    (hsizes : ∀ p ∈ before ++ [pair], p.1.length + p.2.length < wordSize)
    (hj : j < (record pair).length)
    (hs : s.bytes = before.flatMap record ++ (record pair).take j) :
    readFiles m none (before.length + (numFiles + 1)) i err files s = .error .fault := by
  cases before with
  | nil =>
    obtain ⟨buffer, s', hreads, -⟩ := Reads.of_cut (m := m) hs hj (hsizes pair (by simp))
    rw [List.length_nil, Nat.zero_add]
    exact hreads.round_null herr
  | cons first before =>
    rw [List.flatMap_cons, List.append_assoc] at hs
    obtain ⟨s', hreads, -⟩ := Reads.of_record (m := m) hs (hsizes first (by simp))
    rw [List.length_cons, show before.length + 1 + (numFiles + 1) =
      before.length + (numFiles + 1) + 1 by omega]
    exact hreads.round_null herr

theorem readFiles_cut_iff {dirname : CStr} {before : List Pair} {pair : Pair} (herr : Fine err)
    (hsizes : ∀ p ∈ before ++ [pair], p.1.length + p.2.length < wordSize)
    (hj : j < (record pair).length)
    (hs : s.bytes = before.flatMap record ++ (record pair).take j) :
    (readFiles m (some dirname) (before.length + (numFiles + 1)) 0 err files s).map (·.1) =
        .ok (-1) ↔
      numFiles ≠ 0 ∨ ¬ m.TakesAll 0 before ∨
        m.written before.length (arrived pair.2.length (j - 8)) = 0 := by
  have hbefore : ∀ p ∈ before, p.1.length + p.2.length < wordSize :=
    fun p hp => hsizes p (List.mem_append_left _ hp)
  by_cases htakes : m.TakesAll 0 before
  · obtain ⟨err', s', herr', hs', hrounds⟩ := readFiles_takesAll dirname files (numFiles + 1)
      herr hs hbefore htakes
    obtain ⟨files', s'', hcut⟩ := readFiles_cut dirname
      (m.storeAll dirname 0 files before) numFiles (0 + before.length) herr' hs' hj
      (hsizes pair (by simp))
    rw [hrounds, hcut, Nat.zero_add]
    simp [Except.map, htakes, or_iff_not_imp_left]
  · -- a local file before the cut could not be written
    obtain ⟨first, stop, more, rfl, hfirst, hstop⟩ := Machine.not_takesAll htakes
    rw [List.flatMap_append, List.flatMap_cons, List.append_assoc, List.append_assoc] at hs
    obtain ⟨s', -, hstopped⟩ := readFiles_stops dirname files (more.length + (numFiles + 1)) herr hs
      (fun p hp => hbefore p (List.mem_append_left _ hp)) (hbefore stop (by simp)) hfirst hstop
    rw [List.length_append, List.length_cons, show first.length + (more.length + 1) + (numFiles + 1) =
      first.length + (more.length + (numFiles + 1) + 1) by omega, hstopped]
    simp [Except.map, htakes]

/-- A reply that is cut inside a file. -/
theorem record_noticed_iff {before after : List Pair} {pair : Pair}
    (hwf : (Reply.writeFile (some (before ++ pair :: after))).WellFormed)
    (hj : j < (record pair).length)
    (hs : s.bytes = [responseOk] ++ (u64ToBigEndian (before ++ pair :: after).length ++
      (before.flatMap record ++ (record pair).take j))) :
    (handleResponseWithFiles m dirname files s).map (·.1) = .ok (-1) ↔
      dirname.isSome ∧ (after ≠ [] ∨ ¬ m.TakesAll 0 before ∨
        m.written before.length (arrived pair.2.length (j - 8)) = 0) := by
  obtain ⟨hcount, hsizes⟩ := hwf
  obtain ⟨err, s₁, herr, hs₁, hloop⟩ := handleResponse_header m dirname files hcount hs
  have hsizes' : ∀ p ∈ before ++ [pair], p.1.length + p.2.length < wordSize :=
    fun p hp => hsizes p (by
      simp only [List.mem_append, List.mem_cons, List.not_mem_nil, or_false] at hp ⊢
      tauto)
  rw [hloop, List.length_append, List.length_cons]
  cases dirname with
  | none =>
    rw [readFiles_null herr hsizes' hj hs₁]
    simp [Except.map]
  | some dirname =>
    rw [readFiles_cut_iff herr hsizes' hj hs₁]
    simp

/-! ## 6. Replies that are cut -/

/-- A call whose reply ends too early returns -1 exactly when it is `writeFile` with a directory and
the cut is noticed. -/
theorem truncated_noticed_iff {reply : Reply} (hwf : reply.WellFormed)
    (hpre : s.bytes <+: reply.bytes) (hne : s.bytes ≠ reply.bytes) :
    reply.returned m dirname files s = .ok (-1) ↔ Noticed m dirname s.bytes reply := by
  -- a reply of one byte is cut to nothing
  have hone : ∀ {b : UInt8}, s.bytes <+: [b] → s.bytes ≠ [b] → s.bytes = [] := by
    intro b hpre hne
    rcases cut_append (b := []) (by simpa using hpre) (by simpa using hne) with ⟨j, hj, hcut⟩ | h
    · obtain rfl : j = 0 := by simpa using hj
      exact hcut
    · obtain ⟨t, -, hpre, hne⟩ := h
      exact absurd (List.prefix_nil.mp hpre) hne
  cases reply with
  | simple code =>
    have hzero := (simpleResponse_ended (hone hpre hne)).1
    simp [Reply.returned, Noticed, hzero]
  | readFile contents =>
    suffices hsuccess : ∃ buf s', readFileResponse m s = .ok (0, buf, s') by
      obtain ⟨buf, s', hsuccess⟩ := hsuccess
      simp [Reply.returned, Noticed, hsuccess, Except.map]
    cases contents with
    | none =>
      obtain ⟨hzero, hrest⟩ := simpleResponse_ended (hone hpre hne)
      exact readFileResponse_cut [] hzero hrest wordSize_pos (List.nil_prefix)
        (by simp [u64ToBigEndian])
    | some contents =>
      rcases cut_append hpre hne with ⟨j, hj, hcut⟩ | ⟨t, hcut, hpre, hne⟩
      · obtain rfl : j = 0 := by simpa using hj
        obtain ⟨hzero, hrest⟩ := simpleResponse_ended hcut
        exact readFileResponse_cut contents hzero hrest hwf List.nil_prefix (by simp [u64ToBigEndian])
      · obtain ⟨hzero, hrest⟩ := simpleResponse_ok hcut
        exact readFileResponse_cut contents hzero hrest hwf hpre hne
  | writeFile evicted =>
    cases evicted with
    | none =>
      obtain ⟨s', hended⟩ := handleResponse_ended m dirname files (hone hpre hne)
      simp [Reply.returned, Noticed, hended, Except.map]
    | some pairs =>
      simp only [Reply.returned, Noticed]
      constructor
      · intro hreturned
        rcases cut_response hpre hne with hcut | ⟨j, hj, hcut⟩ |
          ⟨before, pair, after, j, rfl, hj, hcut⟩
        · obtain ⟨s', hended⟩ := handleResponse_ended m dirname files hcut
          rw [hended] at hreturned
          cases hreturned
        · obtain ⟨hdir, hcount⟩ := (count_noticed_iff hwf.1 hj hcut).mp hreturned
          exact ⟨hdir, Or.inl ⟨j, hj, hcut, hcount⟩⟩
        · obtain ⟨hdir, hnoticed⟩ := (record_noticed_iff hwf hj hcut).mp hreturned
          exact ⟨hdir, Or.inr ⟨before, pair, after, j, rfl, hj, hcut, hnoticed⟩⟩
      · rintro ⟨hdir, ⟨j, hj, hcut, hcount⟩ | ⟨before, pair, after, j, rfl, hj, hcut, hnoticed⟩⟩
        · exact (count_noticed_iff hwf.1 hj hcut).mpr ⟨hdir, hcount⟩
        · exact (record_noticed_iff hwf hj hcut).mpr ⟨hdir, hnoticed⟩

/-- Two files, the first of which is cut behind its path. -/
theorem truncated_noticed_two :
    let reply := Reply.writeFile (some [([97], [7, 8]), ([98], [9])])
    let s := oneByOne (reply.bytes.take 26)
    reply.returned sampleMachine (some (.literal "d")) (fun _ => none) s = .ok (-1) ∧
      Noticed sampleMachine (some (.literal "d")) s.bytes reply := by
  intro reply s
  have hreturned : reply.returned sampleMachine (some (.literal "d")) (fun _ => none) s =
      .ok (-1) := by decide +kernel
  have hwf : reply.WellFormed := ⟨by decide, by decide⟩
  refine ⟨hreturned, (truncated_noticed_iff hwf ?_ ?_).mp hreturned⟩
  · rw [oneByOne_bytes]
    exact List.take_prefix _ _
  · rw [oneByOne_bytes]
    decide

/-- `readFile` succeeds on a reply without the last byte of the contents. -/
theorem truncated_succeeds :
    ¬ ∀ (m : Machine) (dirname : Option CStr) (files : Files) (reply : Reply) (s : Chunks),
      reply.WellFormed → s.bytes <+: reply.bytes → s.bytes ≠ reply.bytes →
        reply.returned m dirname files s = .ok (-1) := by
  intro hclaim
  have hreturned := hclaim sampleMachine none (fun _ => none) (.readFile (some [7, 8]))
    (oneByOne ([responseOk] ++ (u64ToBigEndian 2 ++ [7])))
    (show [7, 8].length < wordSize by decide)
    (by rw [oneByOne_bytes]; exact ⟨[8], by decide⟩) (by rw [oneByOne_bytes]; decide)
  have hzero : (Reply.readFile (some [7, 8])).returned sampleMachine none (fun _ => none)
      (oneByOne ([responseOk] ++ (u64ToBigEndian 2 ++ [7]))) = .ok 0 := by decide +kernel
  rw [hzero] at hreturned
  cases hreturned

end FileStorage.Client.EndOfStream
