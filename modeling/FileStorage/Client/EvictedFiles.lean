import FileStorage.Client.EndOfStream

/-!
# EvictedFiles — the files that come with the reply to `writeFile`

The client reads a file and writes it below `dirname` before it reads the next one, and it leaves
the loop with the first local file that it could not write.
-/

namespace FileStorage.Client.EndOfStream

open Server

variable {m : Machine} {dirname : CStr} {files : Files} {s : Chunks} {i : Nat}
  {pairs : List Pair} {rest : List UInt8}

/-- Every one of these local files can be created and written in full. -/
def Machine.WritesWhole (m : Machine) : Nat → List Pair → Prop
  | _, [] => True
  | i, pair :: pairs =>
      (∃ n, m.answer i = some n ∧ pair.2.length ≤ n) ∧ m.WritesWhole (i + 1) pairs

/-! ## 1. A whole reply -/

/-- The loop starts at the first file. -/
theorem handleResponse_loop (m : Machine) (dirname : Option CStr) (files : Files)
    (hcount : pairs.length < wordSize) (hs : s.bytes = response pairs ++ rest) :
    ∃ err s₁, Fine err ∧ s₁.bytes = pairs.flatMap record ++ rest ∧
      handleResponseWithFiles m dirname files s =
        readFiles m dirname pairs.length 0 err files s₁ := by
  rw [response, List.append_assoc, List.append_assoc] at hs
  exact handleResponse_header m dirname files hcount hs

theorem handleResponse_takesAll (dirname : CStr) (files : Files) (hcount : pairs.length < wordSize)
    (hsizes : ∀ p ∈ pairs, p.1.length + p.2.length < wordSize)
    (hs : s.bytes = response pairs ++ rest) (htakes : m.TakesAll 0 pairs) :
    ∃ s', s'.bytes = rest ∧ handleResponseWithFiles m (some dirname) files s =
      .ok (0, m.storeAll dirname 0 files pairs, s') := by
  obtain ⟨err, s₁, herr, hs₁, hloop⟩ := handleResponse_loop m (some dirname) files hcount hs
  obtain ⟨err', s₂, -, hs₂, hrounds⟩ := readFiles_takesAll dirname files 0 herr hs₁ hsizes
    htakes
  exact ⟨s₂, hs₂, by rw [hloop]; exact hrounds⟩

/-- With a file that is not taken the bytes of those behind it stay on the connection. -/
theorem handleResponse_stops (dirname : CStr) (files : Files) {before after : List Pair} {pair : Pair}
    (hcount : (before ++ pair :: after).length < wordSize)
    (hsizes : ∀ p ∈ before ++ pair :: after, p.1.length + p.2.length < wordSize)
    (hs : s.bytes = response (before ++ pair :: after) ++ rest) (htakes : m.TakesAll 0 before)
    (hstop : ¬ m.Takes before.length pair) :
    ∃ s', s'.bytes = after.flatMap record ++ rest ∧
      handleResponseWithFiles m (some dirname) files s =
        .ok (-1, m.storeAll dirname 0 files (before ++ [pair]), s') := by
  obtain ⟨err, s₁, herr, hs₁, hloop⟩ := handleResponse_loop m (some dirname) files hcount hs
  rw [List.flatMap_append, List.flatMap_cons, List.append_assoc, List.append_assoc] at hs₁
  obtain ⟨s₂, hs₂, hstopped⟩ := readFiles_stops dirname files after.length herr hs₁
    (fun p hp => hsizes p (List.mem_append_left _ hp))
    (hsizes pair (by simp)) htakes (by rwa [Nat.zero_add])
  refine ⟨s₂, hs₂, ?_⟩
  rw [hloop, List.length_append, List.length_cons]
  exact hstopped

/-- Without a directory the first file ends in `strlen(NULL)`. -/
theorem handleResponse_null (hcount : pairs.length < wordSize)
    (hsizes : ∀ p ∈ pairs, p.1.length + p.2.length < wordSize)
    (hs : s.bytes = response pairs ++ rest) (hne : pairs ≠ []) :
    handleResponseWithFiles m none files s = .error .fault := by
  obtain ⟨err, s₁, herr, hs₁, hloop⟩ := handleResponse_loop m none files hcount hs
  rw [hloop]
  cases pairs with
  | nil => exact absurd rfl hne
  | cons pair pairs =>
    rw [List.flatMap_cons, List.append_assoc] at hs₁
    obtain ⟨s₂, hreads, -⟩ := Reads.of_record (m := m) hs₁ (hsizes pair (by simp))
    exact hreads.round_null herr

theorem handleResponse_nil (m : Machine) (dirname : Option CStr) (files : Files)
    (hs : s.bytes = response [] ++ rest) :
    ∃ s', s'.bytes = rest ∧ handleResponseWithFiles m dirname files s = .ok (0, files, s') := by
  obtain ⟨err, s₁, -, hs₁, hloop⟩ := handleResponse_loop m dirname files
    (show ([] : List Pair).length < wordSize from wordSize_pos) hs
  exact ⟨s₁, hs₁, hloop⟩

/-! ## 2. Where the next reply starts -/

/-- The call took exactly the reply off the connection, and it succeeded if it had nothing to write
or could write everything. -/
def Synchronised (m : Machine) (dirname : Option CStr) (pairs : List Pair) (rest : List UInt8)
    (x : Exec (Int32 × Files × Chunks)) : Prop :=
  ∃ result files s, x = .ok (result, files, s) ∧ s.bytes = rest ∧
    (dirname = none ∨ m.WritesWhole 0 pairs → result = 0)

theorem record_ne_nil (pair : Pair) : record pair ≠ [] := by
  simp [record, u64ToBigEndian]

theorem records_eq_nil : pairs.flatMap record = [] ↔ pairs = [] := by
  cases pairs with
  | nil => simp
  | cons pair pairs => simp [record_ne_nil]

/-- When a file is not taken, those before the last one are all taken only if it is the last. -/
theorem takesAll_dropLast_iff {before after : List Pair} {pair : Pair} (htakes : m.TakesAll 0 before)
    (hstop : ¬ m.Takes before.length pair) :
    m.TakesAll 0 (before ++ pair :: after).dropLast ↔ after = [] := by
  constructor
  · intro hall
    cases after with
    | nil => rfl
    | cons next after =>
      rw [List.dropLast_append_of_ne_nil (by simp), List.dropLast_cons_of_ne_nil (by simp),
        Machine.takesAll_append, Nat.zero_add] at hall
      exact absurd hall.2.1 hstop
  · rintro rfl
    rwa [List.dropLast_concat]

/-- The call ends at the start of the next reply exactly when there is no evicted file, or there is a
directory, every file but the last is taken, and the last one too if everything can be written. -/
theorem handleResponse_synchronised_iff {dirname : Option CStr} (hcount : pairs.length < wordSize)
    (hsizes : ∀ p ∈ pairs, p.1.length + p.2.length < wordSize)
    (hs : s.bytes = response pairs ++ rest) :
    Synchronised m dirname pairs rest (handleResponseWithFiles m dirname files s) ↔
      pairs = [] ∨ dirname.isSome ∧ m.TakesAll 0 pairs.dropLast ∧
        (m.WritesWhole 0 pairs → m.TakesAll 0 pairs) := by
  by_cases hnil : pairs = []
  · subst hnil
    obtain ⟨s', hs', hx⟩ := handleResponse_nil m dirname files hs
    exact iff_of_true ⟨0, files, s', hx, hs', fun _ => rfl⟩ (Or.inl rfl)
  · rw [or_iff_right hnil]
    cases dirname with
    | none =>
      rw [handleResponse_null hcount hsizes hs hnil]
      refine iff_of_false ?_ (by simp)
      rintro ⟨result, files', s', hx, -⟩
      cases hx
    | some dirname =>
      simp only [Option.isSome_some, true_and]
      by_cases htakes : m.TakesAll 0 pairs
      · obtain ⟨s', hs', hx⟩ := handleResponse_takesAll dirname files hcount hsizes hs htakes
        refine iff_of_true ⟨0, _, s', hx, hs', fun _ => rfl⟩ ⟨?_, fun _ => htakes⟩
        rw [← List.dropLast_append_getLast hnil, Machine.takesAll_append] at htakes
        exact htakes.1
      · obtain ⟨before, pair, after, rfl, hbefore, hstop⟩ := Machine.not_takesAll htakes
        rw [Nat.zero_add] at hstop
        obtain ⟨s', hs', hx⟩ := handleResponse_stops dirname files hcount hsizes hs hbefore hstop
        rw [takesAll_dropLast_iff hbefore hstop, hx]
        constructor
        · rintro ⟨result, files', s'', heq, hrest, hresult⟩
          cases heq
          rw [hs'] at hrest
          refine ⟨records_eq_nil.mp (List.append_left_eq_self.mp hrest), fun hwhole => ?_⟩
          exact absurd (hresult (Or.inr hwhole)) (by decide)
        · rintro ⟨rfl, hwhole⟩
          refine ⟨-1, _, s', rfl, hs', ?_⟩
          rintro (hnone | hall)
          · cases hnone
          · exact absurd (hwhole hall) htakes

/-- Two files, and a directory for them; the byte 9 belongs to the next reply. -/
theorem handleResponse_synchronised_two :
    let pairs : List Pair := [([97], [7, 8]), ([98], [9])]
    Synchronised sampleMachine (some (.literal "d")) pairs [9]
      (handleResponseWithFiles sampleMachine (some (.literal "d")) (fun _ => none)
        (oneByOne (response pairs ++ [9]))) := by
  intro pairs
  have htakes : sampleMachine.TakesAll 0 pairs := ⟨by decide, by decide, trivial⟩
  exact (handleResponse_synchronised_iff (by decide) (by decide) (oneByOne_bytes _)).mpr
    (Or.inr ⟨rfl, ⟨by decide, trivial⟩, fun _ => htakes⟩)

/-- An evicted file and no directory for it. -/
theorem handleResponse_uses_null :
    ¬ ∀ (m : Machine) (dirname : Option CStr) (files : Files) (pairs : List Pair)
      (rest : List UInt8) (s : Chunks), pairs.length < wordSize →
      (∀ p ∈ pairs, p.1.length + p.2.length < wordSize) → s.bytes = response pairs ++ rest →
        Synchronised m dirname pairs rest (handleResponseWithFiles m dirname files s) := by
  intro hclaim
  obtain ⟨result, files, s, hx, -⟩ := hclaim sampleMachine none (fun _ => none) [([97], [7])] []
    (oneByOne (response [([97], [7])] ++ [])) (by decide) (by decide) (oneByOne_bytes _)
  have hfault : (handleResponseWithFiles sampleMachine none (fun _ => none)
      (oneByOne (response [([97], [7])] ++ []))).map (·.1) = .error .fault := by decide +kernel
  rw [hx] at hfault
  cases hfault

/-! ## 3. What is in the directory -/

theorem storeAll_of_not_mem {path : List UInt8}
    (h : path ∉ pairs.map fun p => localPath dirname p.1) :
    m.storeAll dirname i files pairs path = files path := by
  induction pairs generalizing i files with
  | nil => rfl
  | cons pair pairs ih =>
    rw [List.map_cons, List.mem_cons, not_or] at h
    rw [Machine.storeAll, ih h.2, Machine.store]
    cases m.answer i with
    | none => rfl
    | some n => exact Function.update_of_ne h.1 _ _

/-- Files with different local paths are all there in the end. -/
theorem storeAll_of_mem (hwhole : m.WritesWhole i pairs)
    (hnodup : (pairs.map fun p => localPath dirname p.1).Nodup) :
    ∀ pair ∈ pairs, m.storeAll dirname i files pairs (localPath dirname pair.1) = some pair.2 := by
  induction pairs generalizing i files with
  | nil => intro pair hpair; cases hpair
  | cons first pairs ih =>
    rw [List.map_cons, List.nodup_cons] at hnodup
    obtain ⟨⟨n, hn, hle⟩, hwhole⟩ := hwhole
    intro pair hpair
    rcases List.mem_cons.mp hpair with rfl | hpair
    · rw [Machine.storeAll, storeAll_of_not_mem hnodup.1, Machine.store, hn]
      simp only [Function.update_self]
      rw [Nat.min_eq_right hle, List.take_length]
    · exact ih hwhole hnodup.2 pair hpair

/-- A file that can be written whole is taken unless it is empty or too long for an `int`. -/
theorem takesAll_iff (hwhole : m.WritesWhole i pairs) :
    m.TakesAll i pairs ↔ ∀ p ∈ pairs, p.2 ≠ [] ∧ FitsInt (p.1.length + p.2.length) := by
  induction pairs generalizing i with
  | nil => simp [Machine.TakesAll]
  | cons pair pairs ih =>
    obtain ⟨⟨n, hn, hle⟩, hwhole⟩ := hwhole
    rw [Machine.TakesAll, ih hwhole, List.forall_mem_cons, Machine.Takes, Machine.written, hn,
      Option.getD_some, Nat.min_eq_right hle, ne_eq, List.length_eq_zero_iff]

theorem writesWhole_append {pairs' : List Pair} :
    m.WritesWhole i (pairs ++ pairs') → m.WritesWhole i pairs := by
  induction pairs generalizing i with
  | nil => exact fun _ => trivial
  | cons pair pairs ih => exact fun h => ⟨h.1, ih h.2⟩

theorem localPath_nodup (dirname : CStr) (pairs : List Pair) :
    (pairs.map fun p => localPath dirname p.1).Nodup ↔
      (pairs.map fun p => basename (bufToStr p.1).bytes).Nodup := by
  have hmap : (pairs.map fun p => localPath dirname p.1) =
      (pairs.map fun p => basename (bufToStr p.1).bytes).map fun name =>
        dirname.bytes ++ 47 :: name := by
    rw [List.map_map]
    rfl
  rw [hmap]
  refine List.nodup_map_iff fun a b hab => ?_
  simpa using hab

/-- No evicted file is written over another one, and afterwards all of them are in the directory,
whatever was there before. -/
def Kept (m : Machine) (dirname : CStr) (pairs : List Pair) (s : Chunks) : Prop :=
  (pairs.map fun p => localPath dirname p.1).Nodup ∧
    ∀ files, ∃ result files' s',
      handleResponseWithFiles m (some dirname) files s = .ok (result, files', s') ∧
        ∀ pair ∈ pairs, files' (localPath dirname pair.1) = some pair.2

/-- When every local file can be written in full, the evicted files are kept exactly when their base
names differ and those before the last one are neither empty nor too long for an `int`. -/
theorem evicted_kept_iff (hcount : pairs.length < wordSize)
    (hsizes : ∀ p ∈ pairs, p.1.length + p.2.length < wordSize)
    (hs : s.bytes = response pairs ++ rest) (hwhole : m.WritesWhole 0 pairs) :
    Kept m dirname pairs s ↔
      (pairs.map fun p => basename (bufToStr p.1).bytes).Nodup ∧
        ∀ p ∈ pairs.dropLast, p.2 ≠ [] ∧ FitsInt (p.1.length + p.2.length) := by
  rw [Kept, localPath_nodup]
  refine and_congr_right fun hnodup => ?_
  rw [← localPath_nodup dirname] at hnodup
  by_cases htakes : m.TakesAll 0 pairs
  · -- the loop takes every file
    refine iff_of_true (fun files => ?_) fun p hp => ?_
    · obtain ⟨s', -, hx⟩ := handleResponse_takesAll dirname files hcount hsizes hs htakes
      exact ⟨0, _, s', hx, storeAll_of_mem hwhole hnodup⟩
    · exact (takesAll_iff hwhole).mp htakes p (List.dropLast_subset _ hp)
  · obtain ⟨before, pair, after, rfl, hbefore, hstop⟩ := Machine.not_takesAll htakes
    rw [Nat.zero_add] at hstop
    have hlast : (∀ p ∈ (before ++ pair :: after).dropLast,
        p.2 ≠ [] ∧ FitsInt (p.1.length + p.2.length)) ↔ after = [] := by
      rw [← takesAll_dropLast_iff hbefore hstop]
      refine (takesAll_iff ?_).symm
      rw [← List.dropLast_append_getLast (show before ++ pair :: after ≠ [] by simp)] at hwhole
      exact writesWhole_append hwhole
    rw [hlast]
    constructor
    · intro hkept
      obtain ⟨result, files', s', hx, hall⟩ := hkept fun _ => none
      obtain ⟨s'', -, hstopped⟩ := handleResponse_stops dirname (fun _ => none) hcount hsizes hs
        hbefore hstop
      rw [hstopped] at hx
      cases hx
      -- a file behind the one that was not taken is nowhere
      cases after with
      | nil => rfl
      | cons next after =>
        have hthere := hall next (by simp)
        rw [storeAll_of_not_mem] at hthere
        · cases hthere
        · rw [List.append_cons, List.map_append, List.nodup_append] at hnodup
          exact fun hmem => hnodup.2.2 _ hmem _ (List.mem_map_of_mem (by simp)) rfl
    · rintro rfl files
      obtain ⟨s', -, hx⟩ := handleResponse_stops dirname files hcount hsizes hs hbefore hstop
      exact ⟨-1, _, s', hx, storeAll_of_mem hwhole hnodup⟩

/-- `/a/x` and `/b/y`, the second of which is empty. -/
theorem evicted_kept_two :
    let pairs : List Pair := [((CStr.literal "/a/x").bytes, [7]), ((CStr.literal "/b/y").bytes, [])]
    Kept sampleMachine (.literal "d") pairs (oneByOne (response pairs ++ [])) := by
  intro pairs
  have hwhole : sampleMachine.WritesWhole 0 pairs :=
    ⟨⟨100, rfl, by decide⟩, ⟨100, rfl, by decide⟩, trivial⟩
  exact (evicted_kept_iff (by decide) (by decide) (oneByOne_bytes _) hwhole).mpr
    ⟨by decide, by decide⟩

/-- `/a/x` and `/b/x` are written to one local file. -/
theorem evicted_overwritten :
    ¬ ∀ (m : Machine) (dirname : CStr) (pairs : List Pair) (rest : List UInt8) (s : Chunks),
      pairs.length < wordSize → (∀ p ∈ pairs, p.1.length + p.2.length < wordSize) →
      s.bytes = response pairs ++ rest → (pairs.map Prod.fst).Nodup → m.WritesWhole 0 pairs →
        Kept m dirname pairs s := by
  intro hclaim
  have hkept := hclaim sampleMachine (.literal "d")
    [((CStr.literal "/a/x").bytes, [7]), ((CStr.literal "/b/x").bytes, [8])] [] _
    (by decide) (by decide) (oneByOne_bytes _) (by decide)
    ⟨⟨100, rfl, by decide⟩, ⟨100, rfl, by decide⟩, trivial⟩
  obtain ⟨result, files', s', -, hall⟩ := hkept.2 fun _ => none
  have hfirst := hall _ List.mem_cons_self
  have hsecond := hall _ (List.mem_cons_of_mem _ List.mem_cons_self)
  have hsame : localPath (.literal "d") (CStr.literal "/a/x").bytes =
      localPath (.literal "d") (CStr.literal "/b/x").bytes := by decide
  rw [hsame, hsecond] at hfirst
  cases hfirst

end FileStorage.Client.EndOfStream
