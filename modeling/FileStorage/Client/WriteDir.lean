import FileStorage.Client.Cli

/-!
# WriteDir — the files of a directory tree

`write_dir` calls itself on subdirectories and ignores what that gives.  The limit is one counter
that all calls share.
-/

namespace FileStorage.Client.WriteDir

open Cli

/-! ## 1. The code -/

inductive DType where
  | reg
  | dir
  | other
deriving DecidableEq, Repr

/-- What `readdir` gives for a directory, in its order; `sub` is what a subdirectory contains. -/
inductive Listing where
  | nil
  | entry (dName : CStr) (dType : DType) (sub rest : Listing)

/-- Whether `opendir` opens a directory, and what `writeFile` returns for a path and `NULL`. -/
structure Calls where
  opendir : CStr → Bool
  writeFile : CStr → Int32

/-- A call that was made. -/
inductive Issued where
  | opendir (path : CStr)
  | writeFile (path : CStr)
deriving DecidableEq

def Calls.succeeds (calls : Calls) : Issued → Bool
  | .opendir path => calls.opendir path
  | .writeFile path => calls.writeFile path = 0

/-- `absdir`, a slash and the name of the entry. -/
def fullpath (absdir dName : CStr) : CStr where
  bytes := absdir.bytes ++ 47 :: dName.bytes
  noNul := by simp [absdir.noNul, dName.noNul]

def isDot (dName : CStr) : Bool := dName.bytes = [46] ∨ dName.bytes = [46, 46]

/-- `opendir`, and what the loop over the entries does if it succeeds. -/
def withDir (calls : Calls) (absdir : CStr) (limit : Option Int32)
    (loop : Option Int32 → Int32 × Option Int32 × List Issued) :
    Int32 × Option Int32 × List Issued :=
  if calls.opendir absdir then
    let (result, limit, issued) := loop limit
    (result, limit, .opendir absdir :: issued)
  else
    (-1, limit, [.opendir absdir])

/-- The loop of `write_dir`: the result, `*limit` and the calls. -/
def writeEntries (calls : Calls) (absdir : CStr) :
    Listing → Option Int32 → Int32 × Option Int32 × List Issued
  | .nil, limit => (0, limit, [])
  | .entry dName dType sub rest, limit =>
      -- the limit is tested before every entry, also after the calls below
      if limit.any (· ≤ 0) then
        (0, limit, [])
      else if isDot dName then
        writeEntries calls absdir rest limit
      else
        match dType with
        | .dir =>
            -- the result of the inner call is not looked at
            let (_, limit, inner) := withDir calls (fullpath absdir dName) limit fun limit =>
              writeEntries calls (fullpath absdir dName) sub limit
            let (result, limit, issued) := writeEntries calls absdir rest limit
            (result, limit, inner ++ issued)
        | .reg =>
            if calls.writeFile (fullpath absdir dName) ≠ 0 then
              (-1, limit, [.writeFile (fullpath absdir dName)])
            else
              let (result, limit, issued) :=
                writeEntries calls absdir rest (limit.map (· - 1))
              (result, limit, .writeFile (fullpath absdir dName) :: issued)
        | .other => (-1, limit, [])   -- neither a file nor a directory

def writeDir (calls : Calls) (absdir : CStr) (listing : Listing) (limit : Option Int32) :
    Int32 × Option Int32 × List Issued :=
  withDir calls absdir limit (writeEntries calls absdir listing)

def PATH_MAX : Nat := 4096

/-- The directory name of the action, and the action with what `strtok` leaves of `arg_s1`; `none`
when `getcwd` fails. -/
def startDir (getcwd : Option CStr) (action : Action) : Exec (Option (CStr × Action)) :=
  match action.argS1 with
  | none => .error .fault
  | some argS1 =>
      if argS1.bytes.head? = some 47 then
        match strtok argS1 44 with
        | none => .error .fault
        | some dirname => .ok (some (dirname, { action with argS1 := some dirname }))
      else
        match getcwd with
        | none => .ok none
        | some cwd =>
            if PATH_MAX ≤ cwd.strlen then
              .ok none
            -- `strcat` does not look at the size of the buffer
            else if PATH_MAX ≤ (fullpath cwd argS1).strlen then
              .error .fault
            else
              .ok (some (fullpath cwd argS1, action))

/-- `contents` are the directories, `getcwd` is the working directory. -/
def runActionWriteFilesInDir (calls : Calls) (contents : CStr → Listing) (getcwd : Option CStr)
    (action : Action) : Exec (Int32 × Action × List Issued) := do
  match ← startDir getcwd action with
  | none => return (-1, action, [])
  | some (dirname, action) =>
      if 0 < action.argI then
        let (result, limit, issued) :=
          writeDir calls dirname (contents dirname) (some action.argI)
        return (result, { action with argI := limit.getD action.argI }, issued)
      else
        let (result, _, issued) := writeDir calls dirname (contents dirname) none
        return (result, action, issued)

/-! ## 2. The walk without a limit -/

/-- A call, or an entry that is neither a file nor a directory; `nested` below a subdirectory. -/
structure Visit where
  call : Option Issued
  nested : Bool
deriving DecidableEq

/-- The visit ends the loop it is in. -/
def Visit.stops (calls : Calls) (v : Visit) : Bool :=
  match v.call with
  | none => true
  | some (.opendir _) => false
  | some (.writeFile path) => calls.writeFile path ≠ 0

def Visit.failed (calls : Calls) (v : Visit) : Bool := v.call.any fun call => !calls.succeeds call

/-- The visit uploads a file. -/
def Visit.uploads (calls : Calls) (v : Visit) : Bool :=
  match v.call with
  | some (.writeFile path) => calls.writeFile path = 0
  | _ => false

/-- The visits of a subdirectory, `inner` if it can be opened. -/
def dirVisits (calls : Calls) (path : CStr) (inner : List Visit) : List Visit :=
  ⟨some (.opendir path), true⟩ :: if calls.opendir path then inner else []

/-- All visits of a directory in order. -/
def visits (calls : Calls) (absdir : CStr) (nested : Bool) : Listing → List Visit
  | .nil => []
  | .entry dName dType sub rest =>
      if isDot dName then
        visits calls absdir nested rest
      else
        match dType with
        | .dir =>
            dirVisits calls (fullpath absdir dName) (visits calls (fullpath absdir dName) true sub) ++
              visits calls absdir nested rest
        | .reg =>
            ⟨some (.writeFile (fullpath absdir dName)), nested⟩ ::
              if calls.writeFile (fullpath absdir dName) = 0 then
                visits calls absdir nested rest
              else
                []
        | .other => [⟨none, nested⟩]

def uploadCount (calls : Calls) (vs : List Visit) : Nat := vs.countP (Visit.uploads calls)

/-- The visits up to the `n`-th upload. -/
def spend (calls : Calls) : Nat → List Visit → List Visit
  | 0, _ => []
  | _ + 1, [] => []
  | n + 1, v :: vs => v :: spend calls (if v.uploads calls then n else n + 1) vs

/-- The visits within a limit, if there is one. -/
def within (calls : Calls) (limit : Option Int32) (vs : List Visit) : List Visit :=
  limit.elim vs fun n => spend calls n.toNatClampNeg vs

/-! ## 3. Spending a limit -/

variable {calls : Calls} {limit : Option Int32} {vs : List Visit} {absdir : CStr}

/-- `*limit` after `k` uploads. -/
def spent (limit : Option Int32) (k : Nat) : Option Int32 := limit.map (· - Int32.ofNat k)

theorem spent_zero (limit : Option Int32) : spent limit 0 = limit := by
  cases limit with
  | none => rfl
  | some n => exact congrArg some (Int32.sub_zero n)

theorem spent_spent (limit : Option Int32) (j k : Nat) :
    spent (spent limit j) k = spent limit (j + k) := by
  cases limit with
  | none => rfl
  | some n =>
    show some (n - Int32.ofNat j - Int32.ofNat k) = some (n - Int32.ofNat (j + k))
    rw [Int32.sub_sub, ← Int32.ofNat_add]

theorem ofNat_le {n : Int32} {k : Nat} (hpos : 0 < k) (hk : k ≤ n.toNatClampNeg) :
    0 ≤ Int32.ofNat k ∧ Int32.ofNat k ≤ n := by
  have hlt : k < 2 ^ 31 := Nat.lt_of_le_of_lt hk n.toNatClampNeg_lt
  have hn : 0 < n := (Int32.toNatClampNeg_pos_iff n).mp (Nat.lt_of_lt_of_le hpos hk)
  rw [Int32.le_iff_toInt_le, Int32.le_iff_toInt_le, Int32.toInt_ofNat_of_lt hlt,
    Int32.toInt_eq_toNatClampNeg (Int32.le_of_lt hn)]
  exact ⟨Int.natCast_nonneg k, Int.ofNat_le.mpr hk⟩

theorem toNatClampNeg_sub {n : Int32} {k : Nat} (hk : k ≤ n.toNatClampNeg) :
    (n - Int32.ofNat k).toNatClampNeg = n.toNatClampNeg - k := by
  rcases Nat.eq_zero_or_pos k with rfl | hpos
  · exact congrArg Int32.toNatClampNeg (Int32.sub_zero n)
  · obtain ⟨hnonneg, hle⟩ := ofNat_le hpos hk
    rw [Int32.toNatClampNeg_sub_of_le hnonneg hle,
      Int32.toNatClampNeg_ofNat_of_lt (Nat.lt_of_le_of_lt hk n.toNatClampNeg_lt)]

@[simp] theorem spend_zero (vs : List Visit) : spend calls 0 vs = [] := by
  cases vs <;> rfl

theorem uploadCount_cons (v : Visit) (vs : List Visit) : uploadCount calls (v :: vs) =
    uploadCount calls vs + if v.uploads calls then 1 else 0 := List.countP_cons

theorem spend_append (n : Nat) (vs ws : List Visit) :
    spend calls n (vs ++ ws) = spend calls n vs ++ spend calls (n - uploadCount calls vs) ws := by
  induction vs generalizing n with
  | nil =>
    cases n <;> rfl
  | cons v vs ih =>
    cases n with
    | zero => simp
    | succ n =>
      -- an upload takes one off what is left for `ws`
      have hleft : (if v.uploads calls then n else n + 1) - uploadCount calls vs =
          n + 1 - uploadCount calls (v :: vs) := by
        rw [uploadCount_cons]
        split <;> omega
      rw [List.cons_append, spend, spend, ih, List.cons_append, hleft]

theorem uploadCount_spend (n : Nat) (vs : List Visit) :
    uploadCount calls (spend calls n vs) = min n (uploadCount calls vs) := by
  induction vs generalizing n with
  | nil =>
    cases n <;> rfl
  | cons v vs ih =>
    cases n with
    | zero =>
      rw [spend_zero, Nat.zero_min]
      rfl
    | succ n =>
      rw [spend, uploadCount_cons, ih, uploadCount_cons]
      split <;> omega

theorem within_exhausted (h : limit.any (· ≤ 0) = true) (vs : List Visit) :
    within calls limit vs = [] := by
  obtain ⟨n, rfl, hn⟩ := (Option.any_eq_true _ _).mp h
  have hzero : n.toNatClampNeg = 0 :=
    Int32.toNatClampNeg_eq_zero_iff.mpr (of_decide_eq_true hn)
  rw [within, Option.elim_some, hzero, spend_zero]

theorem within_cons (h : ¬ limit.any (· ≤ 0) = true) (v : Visit) (vs : List Visit) :
    within calls limit (v :: vs) =
      v :: within calls (if v.uploads calls then limit.map (· - 1) else limit) vs := by
  cases limit with
  | none =>
    split <;> rfl
  | some n =>
    have hpos : n.toNatClampNeg ≠ 0 := by
      rw [ne_eq, Int32.toNatClampNeg_eq_zero_iff]
      simpa using h
    obtain ⟨m, hm⟩ := Nat.exists_eq_succ_of_ne_zero hpos
    rw [within, Option.elim_some, hm, spend]
    congr 1
    split
    · have hsub : (n - Int32.ofNat 1).toNatClampNeg = m := by
        rw [toNatClampNeg_sub (by omega), hm]
        rfl
      exact congrArg (spend calls · vs) hsub.symm
    · rw [within, Option.elim_some, hm]

theorem within_append (limit : Option Int32) (vs ws : List Visit) :
    within calls limit (vs ++ ws) = within calls limit vs ++
      within calls (spent limit (uploadCount calls (within calls limit vs))) ws := by
  cases limit with
  | none => rfl
  | some n =>
    rw [within, within, Option.elim_some, Option.elim_some, spend_append, uploadCount_spend]
    refine congrArg (_ ++ spend calls · ws) ?_
    rw [toNatClampNeg_sub (Nat.min_le_left _ _)]
    omega

theorem mem_of_mem_within {v : Visit} (h : v ∈ within calls limit vs) : v ∈ vs := by
  cases limit with
  | none => exact h
  | some n =>
    rw [within, Option.elim_some] at h
    generalize n.toNatClampNeg = k at h
    induction vs generalizing k with
    | nil =>
      cases k <;> exact h
    | cons w vs ih =>
      cases k with
      | zero => cases h
      | succ k =>
        rcases List.mem_cons.mp h with rfl | hmem
        · exact List.mem_cons_self
        · exact List.mem_cons_of_mem _ (ih _ hmem)

/-! ## 4. The loop makes these visits -/

/-- `*limit` and the calls after the visits that are within the limit. -/
def served (calls : Calls) (limit : Option Int32) (vs : List Visit) :
    Option Int32 × List Issued :=
  (spent limit (uploadCount calls (within calls limit vs)),
    (within calls limit vs).filterMap Visit.call)

theorem served_exhausted (h : limit.any (· ≤ 0) = true) (vs : List Visit) :
    served calls limit vs = (limit, []) := by
  rw [served, within_exhausted h]
  exact congrArg (·, []) (spent_zero limit)

theorem served_nil : served calls limit [] = (limit, []) := by
  by_cases h : limit.any (· ≤ 0) = true
  · exact served_exhausted h []
  · have hnil : within calls limit [] = [] :=
      List.eq_nil_iff_forall_not_mem.mpr fun v hv => List.not_mem_nil (mem_of_mem_within hv)
    rw [served, hnil]
    exact congrArg (·, []) (spent_zero limit)

theorem served_append (limit : Option Int32) (vs ws : List Visit) :
    served calls limit (vs ++ ws) =
      ((served calls (served calls limit vs).1 ws).1,
        (served calls limit vs).2 ++ (served calls (served calls limit vs).1 ws).2) := by
  simp only [served, within_append, List.filterMap_append, spent_spent, uploadCount,
    List.countP_append]

theorem served_cons (h : ¬ limit.any (· ≤ 0) = true) (v : Visit) (vs : List Visit) :
    served calls limit (v :: vs) =
      ((served calls (if v.uploads calls then limit.map (· - 1) else limit) vs).1,
        v.call.toList ++
          (served calls (if v.uploads calls then limit.map (· - 1) else limit) vs).2) := by
  have hcall : ∀ ws : List Visit,
      (v :: ws).filterMap Visit.call = v.call.toList ++ ws.filterMap Visit.call := by
    intro ws
    rw [List.filterMap_cons]
    cases v.call <;> rfl
  simp only [served, within_cons h, hcall, uploadCount_cons]
  split
  · have hone : limit.map (· - 1) = spent limit 1 := rfl
    rw [hone, spent_spent, Nat.add_comm]
  · rw [Nat.add_zero]

/-- Once the directory is open, the limit and the calls are those of the visits. -/
theorem withDir_snd {loop : Option Int32 → Int32 × Option Int32 × List Issued}
    (h : ¬ limit.any (· ≤ 0) = true) (hloop : (loop limit).2 = served calls limit vs) :
    (withDir calls absdir limit loop).2 = served calls limit (dirVisits calls absdir vs) := by
  rw [dirVisits, served_cons h, withDir]
  by_cases hopen : calls.opendir absdir = true
  · rw [if_pos hopen, if_pos hopen]
    simp only [Visit.uploads, Bool.false_eq_true, if_false]
    rw [← hloop]
    rfl
  · rw [if_neg hopen, if_neg hopen]
    simp only [Visit.uploads, Bool.false_eq_true, if_false]
    rw [served_nil]
    rfl

/-- The limit and the calls of the loop. -/
theorem writeEntries_snd (listing : Listing) (nested : Bool) :
    (writeEntries calls absdir listing limit).2 =
      served calls limit (visits calls absdir nested listing) := by
  induction listing generalizing absdir limit nested with
  | nil => exact served_nil.symm
  | entry dName dType sub rest ihsub ihrest =>
    unfold writeEntries
    by_cases hex : limit.any (· ≤ 0) = true
    · -- the loop ends before it looks at the entry
      rw [if_pos hex, served_exhausted hex]
    · rw [if_neg hex]
      unfold visits
      by_cases hdot : isDot dName = true
      · rw [if_pos hdot, if_pos hdot]
        exact ihrest nested
      · rw [if_neg hdot, if_neg hdot]
        cases dType with
        | reg =>
          dsimp only
          by_cases hwrite : calls.writeFile (fullpath absdir dName) = 0
          · rw [if_neg (not_not.mpr hwrite), if_pos hwrite, served_cons hex, if_pos (by
              simpa [Visit.uploads] using hwrite), ← ihrest nested]
            rfl
          · rw [if_pos hwrite, if_neg hwrite, served_cons hex, if_neg (by
              simpa [Visit.uploads] using hwrite), served_nil]
            rfl
        | dir =>
          dsimp only
          rw [served_append, ← withDir_snd hex (ihsub true), ← ihrest nested]
        | other =>
          have hno : Visit.uploads calls ⟨none, nested⟩ = false := rfl
          dsimp only
          rw [served_cons hex, hno, if_neg Bool.false_ne_true, served_nil]
          rfl

theorem nested_of_dirVisits {path : CStr} {inner : List Visit} {v : Visit}
    (hinner : ∀ v ∈ inner, v.nested = true) (h : v ∈ dirVisits calls path inner) :
    v.nested = true := by
  rcases List.mem_cons.mp h with rfl | hmem
  · rfl
  · split at hmem
    · exact hinner v hmem
    · cases hmem

/-- Below a subdirectory everything is nested, and the call that opens one is, too. -/
theorem nested_of_mem {v : Visit} {nested : Bool} {listing : Listing}
    (h : v ∈ visits calls absdir nested listing)
    (hv : nested = true ∨ ∃ path, v.call = some (.opendir path)) : v.nested = true := by
  induction listing generalizing absdir nested v with
  | nil => cases h
  | entry dName dType sub rest ihsub ihrest =>
    unfold visits at h
    split at h
    · exact ihrest h hv
    · cases dType with
      | reg =>
        rcases List.mem_cons.mp h with rfl | hmem
        · rcases hv with rfl | ⟨path, hpath⟩
          · rfl
          · cases hpath
        · split at hmem
          · exact ihrest hmem hv
          · cases hmem
      | dir =>
        rcases List.mem_append.mp h with hmem | hmem
        · exact nested_of_dirVisits (fun w hw => ihsub hw (Or.inl rfl)) hmem
        · exact ihrest hmem hv
      | other =>
        obtain rfl := List.mem_singleton.mp h
        rcases hv with rfl | ⟨path, hpath⟩
        · rfl
        · cases hpath

/-- An entry of the directory itself stops its loop. -/
def topStops (calls : Calls) (vs : List Visit) : Bool := vs.any fun v => !v.nested && v.stops calls

theorem topStops_cons (v : Visit) (vs : List Visit) :
    topStops calls (v :: vs) = (!v.nested && v.stops calls || topStops calls vs) := List.any_cons

theorem topStops_append (vs ws : List Visit) :
    topStops calls (vs ++ ws) = (topStops calls vs || topStops calls ws) := List.any_append

theorem topStops_nested (h : ∀ v ∈ vs, v.nested = true) : topStops calls vs = false := by
  rw [topStops, List.any_eq_false]
  intro v hv
  simp [h v hv]

/-- Only the entries of the directory itself decide about the result. -/
theorem writeEntries_fst (listing : Listing) :
    (writeEntries calls absdir listing limit).1 =
      if topStops calls (within calls limit (visits calls absdir false listing)) then -1 else 0 := by
  induction listing generalizing limit with
  | nil =>
    have hnil : topStops calls (within calls limit []) = false :=
      topStops_nested fun v hv => absurd (mem_of_mem_within hv) List.not_mem_nil
    unfold visits
    rw [hnil]
    rfl
  | entry dName dType sub rest _ ihrest =>
    unfold writeEntries
    by_cases hex : limit.any (· ≤ 0) = true
    · rw [if_pos hex, within_exhausted hex]
      rfl
    · rw [if_neg hex]
      unfold visits
      by_cases hdot : isDot dName = true
      · rw [if_pos hdot, if_pos hdot]
        exact ihrest
      · rw [if_neg hdot, if_neg hdot]
        cases dType with
        | reg =>
          dsimp only
          rw [within_cons hex, topStops_cons]
          by_cases hwrite : calls.writeFile (fullpath absdir dName) = 0
          · have hup : Visit.uploads calls ⟨some (.writeFile (fullpath absdir dName)), false⟩ :=
              decide_eq_true hwrite
            have hgoes : Visit.stops calls ⟨some (.writeFile (fullpath absdir dName)), false⟩ =
                false := decide_eq_false (not_not.mpr hwrite)
            rw [if_neg (not_not.mpr hwrite), if_pos hwrite, if_pos hup, hgoes, Bool.and_false,
              Bool.false_or]
            exact ihrest
          · have hstops : Visit.stops calls ⟨some (.writeFile (fullpath absdir dName)), false⟩ =
                true := decide_eq_true hwrite
            rw [if_pos hwrite, hstops]
            rfl
        | dir =>
          have hlimit : (withDir calls (fullpath absdir dName) limit fun limit =>
              writeEntries calls (fullpath absdir dName) sub limit).2.1 = spent limit _ :=
            congrArg Prod.fst (withDir_snd hex (writeEntries_snd sub true))
          -- what is visited below the subdirectory is all nested
          have hnested : ∀ v ∈ within calls limit (dirVisits calls (fullpath absdir dName)
              (visits calls (fullpath absdir dName) true sub)), v.nested = true :=
            fun v hv => nested_of_dirVisits (fun w hw => nested_of_mem hw (Or.inl rfl))
              (mem_of_mem_within hv)
          rw [within_append, topStops_append, topStops_nested hnested, Bool.false_or, ← hlimit]
          exact ihrest
        | other =>
          dsimp only
          rw [within_cons hex, topStops_cons]
          rfl

theorem writeDir_eq (hopen : calls.opendir absdir = true) (listing : Listing) :
    writeDir calls absdir listing limit =
      (if topStops calls (within calls limit (visits calls absdir false listing)) then -1 else 0,
        (served calls limit (visits calls absdir false listing)).1,
        .opendir absdir :: (served calls limit (visits calls absdir false listing)).2) := by
  rw [← writeEntries_fst, ← writeEntries_snd, writeDir, withDir, if_pos hopen]

end FileStorage.Client.WriteDir
