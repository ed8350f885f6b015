import FileStorage.Client.WriteDir

/-!
# DirTree — what `write_dir` uploads when no call fails
-/

namespace FileStorage.Client.WriteDir

/-! ## 1. The files of a tree -/

def Listing.names : Listing → List CStr
  | .nil => []
  | .entry dName _ _ rest => dName :: rest.names

/-- Files and subdirectories only, apart from the two dot entries.  A name has no slash and stands
once in its directory. -/
def Listing.IsTree : Listing → Prop
  | .nil => True
  | .entry dName dType sub rest =>
      (isDot dName = true ∨ dType ≠ .other) ∧ 47 ∉ dName.bytes ∧ dName ∉ rest.names ∧
        sub.IsTree ∧ rest.IsTree

structure DirTree where
  listing : Listing
  isTree : listing.IsTree

/-- The regular files, each as the names that lead to it. -/
def regularFiles : Listing → List (List CStr)
  | .nil => []
  | .entry dName dType sub rest =>
      if isDot dName then
        regularFiles rest
      else
        match dType with
        | .dir => (regularFiles sub).map (dName :: ·) ++ regularFiles rest
        | .reg => [dName] :: regularFiles rest
        | .other => regularFiles rest

def pathOf (absdir : CStr) (names : List CStr) : CStr := names.foldl fullpath absdir

def Issued.file : Issued → Option CStr
  | .opendir _ => none
  | .writeFile path => some path

/-- The files that `writeFile` was called on. -/
def filesOf (issued : List Issued) : List CStr := issued.filterMap Issued.file

/-! ## 2. The paths are distinct -/

variable {calls : Calls} {absdir : CStr} {listing : Listing} {names : List CStr}

theorem regularFiles_head (h : names ∈ regularFiles listing) :
    ∃ dName behind, names = dName :: behind ∧ dName ∈ listing.names := by
  induction listing generalizing names with
  | nil => cases h
  | entry dName dType sub rest _ ihrest =>
    have hrest : names ∈ regularFiles rest → ∃ d behind, names = d :: behind ∧
        d ∈ (Listing.entry dName dType sub rest).names := by
      intro hmem
      obtain ⟨d, behind, rfl, hd⟩ := ihrest hmem
      exact ⟨d, behind, rfl, List.mem_cons_of_mem _ hd⟩
    unfold regularFiles at h
    split at h
    · exact hrest h
    · cases dType with
      | reg =>
        rcases List.mem_cons.mp h with rfl | hmem
        · exact ⟨dName, [], rfl, List.mem_cons_self⟩
        · exact hrest hmem
      | dir =>
        rcases List.mem_append.mp h with hmem | hmem
        · obtain ⟨behind, -, rfl⟩ := List.mem_map.mp hmem
          exact ⟨dName, behind, rfl, List.mem_cons_self⟩
        · exact hrest hmem
      | other => exact hrest h

theorem regularFiles_noSlash (htree : listing.IsTree) (h : names ∈ regularFiles listing) :
    ∀ dName ∈ names, 47 ∉ dName.bytes := by
  induction listing generalizing names with
  | nil => cases h
  | entry dName dType sub rest ihsub ihrest =>
    obtain ⟨-, hslash, -, hsub, hrest⟩ := htree
    unfold regularFiles at h
    split at h
    · exact ihrest hrest h
    · cases dType with
      | reg =>
        rcases List.mem_cons.mp h with rfl | hmem
        · simpa using hslash
        · exact ihrest hrest hmem
      | dir =>
        rcases List.mem_append.mp h with hmem | hmem
        · obtain ⟨behind, hbehind, rfl⟩ := List.mem_map.mp hmem
          exact List.forall_mem_cons.mpr ⟨hslash, ihsub hsub hbehind⟩
        · exact ihrest hrest hmem
      | other => exact ihrest hrest h

theorem regularFiles_nodup (htree : listing.IsTree) : (regularFiles listing).Nodup := by
  induction listing with
  | nil => exact List.nodup_nil
  | entry dName dType sub rest ihsub ihrest =>
    obtain ⟨-, -, hnew, hsub, hrest⟩ := htree
    -- nothing else in the directory starts with this name
    have hother : ∀ behind, dName :: behind ∉ regularFiles rest := by
      intro behind hmem
      obtain ⟨d, behind', heq, hd⟩ := regularFiles_head hmem
      obtain ⟨rfl, -⟩ := List.cons.inj heq
      exact hnew hd
    unfold regularFiles
    split
    · exact ihrest hrest
    · cases dType with
      | reg => exact List.nodup_cons.mpr ⟨hother [], ihrest hrest⟩
      | dir =>
        refine List.nodup_append.mpr ⟨(ihsub hsub).map (List.cons_injective), ihrest hrest, ?_⟩
        rintro _ hmem _ hmem' rfl
        obtain ⟨behind, -, rfl⟩ := List.mem_map.mp hmem
        exact hother behind hmem'
      | other => exact ihrest hrest

theorem pathOf_bytes (absdir : CStr) (names : List CStr) :
    (pathOf absdir names).bytes = absdir.bytes ++ names.flatMap fun d => 47 :: d.bytes := by
  induction names generalizing absdir with
  | nil => simp [pathOf]
  | cons d names ih =>
    rw [pathOf, List.foldl_cons, ← pathOf, ih, List.flatMap_cons, ← List.append_assoc]
    rfl

/-- A name ends where the next slash is. -/
theorem takeWhile_name {d : CStr} (hd : 47 ∉ d.bytes) (names : List CStr) :
    (d.bytes ++ names.flatMap fun d => 47 :: d.bytes).takeWhile (· ≠ 47) = d.bytes := by
  rw [List.takeWhile_append_of_pos]
  · cases names <;> simp
  · intro b hb
    exact decide_eq_true fun he => hd (he ▸ hb)

theorem names_inj {names' : List CStr} (h : ∀ d ∈ names, 47 ∉ d.bytes)
    (h' : ∀ d ∈ names', 47 ∉ d.bytes)
    (heq : (names.flatMap fun d => 47 :: d.bytes) = names'.flatMap fun d => 47 :: d.bytes) :
    names = names' := by
  induction names generalizing names' with
  | nil =>
    cases names' with
    | nil => rfl
    | cons e names' => simp at heq
  | cons d names ih =>
    cases names' with
    | nil => simp at heq
    | cons e names' =>
      obtain ⟨hd, hnames⟩ := List.forall_mem_cons.mp h
      obtain ⟨he, hnames'⟩ := List.forall_mem_cons.mp h'
      rw [List.flatMap_cons, List.flatMap_cons, List.cons_append, List.cons_append] at heq
      have htail := (List.cons.inj heq).2
      -- both names end at the first slash behind them
      have hbytes : d.bytes = e.bytes := by
        rw [← takeWhile_name hd names, ← takeWhile_name he names', htail]
      rw [hbytes] at htail
      have hsame : d = e := by
        cases d
        cases e
        cases hbytes
        rfl
      rw [hsame, ih hnames hnames' (List.append_cancel_left htail)]

/-- Different files of a tree have different full paths. -/
theorem paths_nodup (htree : listing.IsTree) (absdir : CStr) :
    ((regularFiles listing).map (pathOf absdir)).Nodup := by
  refine List.Nodup.map_on (fun names hnames names' hnames' heq => ?_) (regularFiles_nodup htree)
  have hbytes := congrArg CStr.bytes heq
  rw [pathOf_bytes, pathOf_bytes] at hbytes
  exact names_inj (regularFiles_noSlash htree hnames) (regularFiles_noSlash htree hnames')
    (List.append_cancel_left hbytes)

/-! ## 3. The visits of a tree -/

def Visit.file (v : Visit) : Option CStr := v.call.bind Issued.file

theorem filesOf_calls (vs : List Visit) :
    filesOf (vs.filterMap Visit.call) = vs.filterMap Visit.file :=
  List.filterMap_filterMap

theorem uploads_eq (hwrite : ∀ path, calls.writeFile path = 0) (v : Visit) :
    v.uploads calls = v.file.isSome := by
  obtain ⟨call, nested⟩ := v
  rcases call with _ | path | path
  · rfl
  · rfl
  · exact decide_eq_true (hwrite path)

theorem uploadCount_eq (hwrite : ∀ path, calls.writeFile path = 0) (vs : List Visit) :
    uploadCount calls vs = (vs.filterMap Visit.file).length := by
  induction vs with
  | nil => rfl
  | cons v vs ih =>
    rw [uploadCount_cons, uploads_eq hwrite, ih, List.filterMap_cons]
    cases v.file <;> rfl

theorem spend_files (hwrite : ∀ path, calls.writeFile path = 0) (n : Nat) (vs : List Visit) :
    (spend calls n vs).filterMap Visit.file = (vs.filterMap Visit.file).take n := by
  induction vs generalizing n with
  | nil => cases n <;> rfl
  | cons v vs ih =>
    cases n with
    | zero =>
      rw [spend_zero, List.take_zero]
      rfl
    | succ n =>
      rw [spend, uploads_eq hwrite, List.filterMap_cons, List.filterMap_cons, ih]
      cases v.file <;> rfl

/-- Without failures the files are visited in the order of the tree. -/
theorem visits_files (hopen : ∀ path, calls.opendir path = true)
    (hwrite : ∀ path, calls.writeFile path = 0) (htree : listing.IsTree) (nested : Bool) :
    (visits calls absdir nested listing).filterMap Visit.file =
      (regularFiles listing).map (pathOf absdir) := by
  induction listing generalizing absdir nested with
  | nil => rfl
  | entry dName dType sub rest ihsub ihrest =>
    obtain ⟨hother, -, -, hsub, hrest⟩ := htree
    unfold visits regularFiles
    by_cases hdot : isDot dName = true
    · rw [if_pos hdot, if_pos hdot]
      exact ihrest hrest nested
    · rw [if_neg hdot, if_neg hdot]
      cases dType with
      | reg =>
        dsimp only
        rw [if_pos (hwrite _), List.map_cons, ← ihrest hrest nested]
        rfl
      | dir =>
        dsimp only
        rw [dirVisits, if_pos (hopen _), List.filterMap_append, List.map_append, List.map_map,
          ihrest hrest nested]
        exact congrArg (· ++ _) (ihsub hsub true)
      | other => exact absurd rfl (hother.resolve_left hdot)

theorem visits_noStop (hwrite : ∀ path, calls.writeFile path = 0) (htree : listing.IsTree)
    {nested : Bool} {v : Visit} (h : v ∈ visits calls absdir nested listing) :
    v.stops calls = false := by
  induction listing generalizing absdir nested with
  | nil => cases h
  | entry dName dType sub rest ihsub ihrest =>
    obtain ⟨hother, -, -, hsub, hrest⟩ := htree
    unfold visits at h
    by_cases hdot : isDot dName = true
    · rw [if_pos hdot] at h
      exact ihrest hrest h
    · rw [if_neg hdot] at h
      cases dType with
      | reg =>
        rcases List.mem_cons.mp h with rfl | hmem
        · exact decide_eq_false (not_not.mpr (hwrite _))
        · rw [if_pos (hwrite _)] at hmem
          exact ihrest hrest hmem
      | dir =>
        rcases List.mem_append.mp h with hmem | hmem
        · rcases List.mem_cons.mp hmem with rfl | hmem
          · rfl
          · split at hmem
            · exact ihsub hsub hmem
            · cases hmem
        · exact ihrest hrest hmem
      | other => exact absurd rfl (hother.resolve_left hdot)

/-! ## 4. The uploads -/

/-- The files within a limit, if there is one. -/
def upTo (limit : Option Int32) (paths : List CStr) : List CStr :=
  limit.elim paths fun n => paths.take n.toNatClampNeg

theorem within_files (hwrite : ∀ path, calls.writeFile path = 0) (limit : Option Int32)
    (vs : List Visit) :
    (within calls limit vs).filterMap Visit.file = upTo limit (vs.filterMap Visit.file) := by
  cases limit with
  | none => rfl
  | some n => exact spend_files hwrite n.toNatClampNeg vs

theorem writeDir_upTo (absdir : CStr) (hopen : ∀ path, calls.opendir path = true)
    (hwrite : ∀ path, calls.writeFile path = 0) (htree : listing.IsTree) (limit : Option Int32) :
    ∃ issued, writeDir calls absdir listing limit =
        (0, spent limit (filesOf issued).length, issued) ∧
      filesOf issued = upTo limit ((regularFiles listing).map (pathOf absdir)) := by
  have hstops :
      topStops calls (within calls limit (visits calls absdir false listing)) = false := by
    rw [topStops, List.any_eq_false]
    intro v hv
    simp [visits_noStop hwrite htree (mem_of_mem_within hv)]
  have hfiles : filesOf (.opendir absdir ::
      (served calls limit (visits calls absdir false listing)).2) =
        (within calls limit (visits calls absdir false listing)).filterMap Visit.file :=
    filesOf_calls _
  refine ⟨.opendir absdir :: (served calls limit (visits calls absdir false listing)).2, ?_, ?_⟩
  · rw [writeDir_eq (hopen absdir), hstops, hfiles, ← uploadCount_eq hwrite]
    rfl
  · rw [hfiles, within_files hwrite, visits_files hopen hwrite htree]

theorem toInt_sub_ofNat {n : Int32} {k : Nat} (hk : k ≤ n.toNatClampNeg) :
    (n - Int32.ofNat k).toInt = n.toInt - k := by
  rcases Nat.eq_zero_or_pos k with rfl | hpos
  · rw [Int.natCast_zero, Int.sub_zero]
    exact congrArg Int32.toInt (Int32.sub_zero n)
  · obtain ⟨hnonneg, hle⟩ := ofNat_le hpos hk
    rw [Int32.toInt_sub_of_le _ _ hnonneg hle,
      Int32.toInt_ofNat_of_lt (Nat.lt_of_le_of_lt hk n.toNatClampNeg_lt)]

/-- With a limit `n` the first `n` files of the tree are uploaded, or all of them when there are
fewer, and the limit goes down by as many; without one every file is uploaded. -/
theorem writeDir_uploads (tree : DirTree) (absdir : CStr)
    (hopen : ∀ path, calls.opendir path = true) (hwrite : ∀ path, calls.writeFile path = 0) :
    (∀ n : Int32, 0 < n → ∃ limit' issued,
      writeDir calls absdir tree.listing (some n) = (0, some limit', issued) ∧
      filesOf issued =
        ((regularFiles tree.listing).map (pathOf absdir)).take n.toNatClampNeg ∧
      (filesOf issued).length = min n.toNatClampNeg (regularFiles tree.listing).length ∧
      (filesOf issued).Nodup ∧ limit'.toInt = n.toInt - (filesOf issued).length) ∧
    ∃ issued, writeDir calls absdir tree.listing none = (0, none, issued) ∧
      filesOf issued = (regularFiles tree.listing).map (pathOf absdir) ∧
      (filesOf issued).Nodup := by
  have hnodup := paths_nodup tree.isTree absdir
  constructor
  · intro n _
    obtain ⟨issued, hx, hfiles⟩ := writeDir_upTo absdir hopen hwrite tree.isTree (some n)
    have hlen : (filesOf issued).length =
        min n.toNatClampNeg (regularFiles tree.listing).length := by
      rw [hfiles, upTo, Option.elim_some, List.length_take, List.length_map]
    refine ⟨_, issued, hx, hfiles, hlen, ?_, toInt_sub_ofNat ?_⟩
    · rw [hfiles]
      exact (List.take_sublist _ _).nodup hnodup
    · rw [hlen]
      exact Nat.min_le_left _ _
  · obtain ⟨issued, hx, hfiles⟩ := writeDir_upTo absdir hopen hwrite tree.isTree none
    exact ⟨issued, hx, hfiles, hfiles ▸ hnodup⟩

/-- The entries `.`, `a`, `b` and `d`, and `c` in the subdirectory `b`. -/
def sampleListing : Listing :=
  .entry (bufToStr [46]) .dir .nil <| .entry (bufToStr [97]) .reg .nil <|
    .entry (bufToStr [98]) .dir (.entry (bufToStr [99]) .reg .nil .nil) <|
    .entry (bufToStr [100]) .reg .nil .nil

theorem sampleListing_isTree : sampleListing.IsTree :=
  ⟨Or.inl rfl, by decide, by decide, trivial, Or.inr (by decide), by decide, by decide, trivial,
    Or.inr (by decide), by decide, by decide,
    ⟨Or.inr (by decide), by decide, by decide, trivial, trivial⟩,
    Or.inr (by decide), by decide, by decide, trivial, trivial⟩

def sampleTree : DirTree := ⟨sampleListing, sampleListing_isTree⟩

theorem writeDir_uploads_two : ∃ limit' issued,
    writeDir ⟨fun _ => true, fun _ => 0⟩ ⟨[47, 116], by decide⟩ sampleTree.listing (some 2) =
      (0, some limit', issued) ∧
    filesOf issued = [⟨[47, 116, 47, 97], by decide⟩, ⟨[47, 116, 47, 98, 47, 99], by decide⟩] ∧
    limit'.toInt = 0 := by
  have huploads := @writeDir_uploads ⟨fun _ => true, fun _ => 0⟩ sampleTree
    ⟨[47, 116], by decide⟩ (fun _ => rfl) fun _ => rfl
  obtain ⟨limit', issued, hx, hfiles, hlen, -, hlimit⟩ := huploads.1 2 (by decide)
  refine ⟨limit', issued, hx, hfiles.trans (by decide), ?_⟩
  rw [hlimit, hlen]
  decide

end FileStorage.Client.WriteDir
