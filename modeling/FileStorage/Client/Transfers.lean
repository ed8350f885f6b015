import FileStorage.Client.Conversation
import FileStorage.Client.DirTree
import Mathlib.Data.Set.Insert

/-!
# Transfers — what the uploads and downloads of a client achieve

Other clients may use the server meanwhile, and make it evict what they like, but they neither make
nor write the files that this is about.
-/

namespace FileStorage.Client.RunAction

open Server EndOfStream Session Cli
open WriteDir (Listing fullpath)

/-! ## 1. Calls -/

section

variable {loc : Local} {fd : Nat} {rely : ContentsMap → ContentsMap → Prop} {α : Type}
  {A : Dialogue.Claim Query.Reply ContentsMap} {post : α → Dialogue.Claim Query.Reply ContentsMap}

/-- A call that is written. -/
theorem meets_call {call : ApiCall} {dirname : Option CStr} {f : Int32 × List UInt8 → Command α}
    (hemitted : call.emitted.isSome)
    (B : Int32 × List UInt8 → Dialogue.Claim Query.Reply ContentsMap)
    (hstable : ∀ r, Dialogue.Stable rely (B r))
    (hstep : ∀ h c reply m files c', A h c → ContentsStep c (fd, call, reply) c' →
      B ((reply.result m dirname files).code, (reply.result m dirname files).buf)
        (h ++ [⟨.call call dirname, ((reply.result m dirname files).code,
          (reply.result m dirname files).buf)⟩]) c')
    (hf : ∀ r, Dialogue.Meets (Answers loc fd) rely (B r) (f r) post) :
    Dialogue.Meets (Answers loc fd) rely A (makeCall call dirname >>= f) post := by
  obtain ⟨raw, hraw⟩ := Option.isSome_iff_exists.mp hemitted
  rw [makeCall, hraw]
  refine Dialogue.Meets.query B hstable ?_ hf
  intro h c r c' hA hanswers
  obtain ⟨reply, m, files, hcontents, rfl⟩ := hanswers
  exact hstep h c reply m files c' hA hcontents

/-- A question that the machine answers. -/
theorem meets_local {q : Query} {f : q.Reply → Command α} (hlocal : ∀ r, callOf ⟨q, r⟩ = none)
    (B : q.Reply → Dialogue.Claim Query.Reply ContentsMap)
    (hstable : ∀ r, Dialogue.Stable rely (B r))
    (hstep : ∀ h c r, A h c → loc.Agrees ⟨q, r⟩ → B r (h ++ [⟨q, r⟩]) c)
    (hf : ∀ r, Dialogue.Meets (Answers loc fd) rely (B r) (f r) post) :
    Dialogue.Meets (Answers loc fd) rely A (Dialogue.query q >>= f) post := by
  refine Dialogue.Meets.query B hstable ?_ hf
  intro h c r c' hA hanswers
  cases q with
  | call call dirname => cases hlocal r
  | clockGettime | realpath | getcwd | opendir | fileContents | saveFile | openConnection
  | closeConnection =>
    obtain ⟨hagrees, rfl⟩ := hanswers
    exact hstep h c' r hA hagrees

end

/-! ## 2. Uploads -/

section

variable {loc : Local} {fd : Nat} {paths done : Set CStr} {c c' : ContentsMap} {path : CStr}

/-- Each of these files is stored as it is on the client's machine, or is gone. -/
def Uploaded (loc : Local) (done : Set CStr) (c : ContentsMap) : Prop :=
  ∀ path ∈ done, c path = none ∨ c path = loc.contents path

theorem uploaded_stable (hsub : done ⊆ paths) :
    Dialogue.Stable (ρ := Query.Reply) (Stays paths) fun _ c => Uploaded loc done c := by
  intro h c c' hc hstays path hpath
  rcases hstays path (hsub hpath) with heq | hnone
  · rw [heq]
    exact hc path hpath
  · exact Or.inl hnone

/-- A call says nothing about the file that it names. -/
theorem Uploaded.call (h : Uploaded loc done c) {call : ApiCall} {reply : EndOfStream.Reply}
    (hpath : call.pathname = some path) (hstep : ContentsStep c (fd, call, reply) c') :
    Uploaded loc (done \ {path}) c' := by
  intro p hp
  have hne : call.pathname ≠ some p := by
    rw [hpath]
    exact fun heq => hp.2 (Option.some.inj heq).symm
  rcases hstep.apart hne with heq | hnone
  · rw [heq]
    exact h p hp.1
  · exact Or.inl hnone

theorem Uploaded.write (h : Uploaded loc (done \ {path}) c) {contents : List UInt8}
    (hcontents : loc.contents path = some contents) {reply : EndOfStream.Reply}
    (hstep : ContentsStep c (fd, .writeFile path contents, reply) c') :
    Uploaded loc (insert path done) c' := by
  have hothers := h.call rfl hstep
  intro p hp
  by_cases heq : p = path
  · subst heq
    cases hstep with
    | written hold hevicted =>
      rw [ContentsMap.written]
      split
      · exact Or.inl rfl
      · rw [Function.update_self, hcontents]
        exact Or.inr rfl
    | absent hnone => exact Or.inl hnone
    | quiet hread hwrite => exact absurd rfl (hwrite p contents)
  · have hmem : p ∈ done := hp.resolve_left heq
    exact hothers p ⟨⟨hmem, heq⟩, heq⟩

theorem Uploaded.close (h : Uploaded loc done c) {reply : EndOfStream.Reply}
    (hstep : ContentsStep c (fd, .closeFile path, reply) c') : Uploaded loc done c' := by
  cases hstep with
  | quiet => exact h

theorem neg_ne_zero {code : Int32} (hneg : code < 0) : code ≠ 0 := by
  rintro rfl
  exact absurd hneg (by decide)

theorem meets_writeFile {dirname : Option CStr} (hinsert : insert path done ⊆ paths) :
    Dialogue.Meets (Answers loc fd) (Stays paths) (fun _ c => Uploaded loc (done \ {path}) c)
      (writeFile path dirname) fun code _ c => ¬code < 0 →
        (loc.contents path).isSome ∧ Uploaded loc (insert path done) c := by
  have hdiff : done \ {path} ⊆ paths := fun p hp => hinsert (Set.mem_insert_of_mem _ hp.1)
  unfold writeFile
  refine meets_local (fun _ => rfl)
    (fun r _ c => r = loc.contents path ∧ Uploaded loc (done \ {path}) c)
    (fun r => (uploaded_stable hdiff).fact _) (fun h c r hA hagrees => ⟨hagrees, hA⟩) fun r => ?_
  refine .fact fun hr => ?_
  cases r with
  | none => exact .pure fun h c _ herr => absurd (by decide) herr
  | some contents =>
    refine meets_call rfl (fun _ _ c => Uploaded loc (insert path done) c)
      (fun _ => uploaded_stable hinsert) (fun h c reply m files c' hA hstep => ?_) fun r => ?_
    · exact hA.write hr.symm hstep
    · exact .pure fun h c hA _ => ⟨by rw [← hr]; rfl, hA⟩

/-- An upload that succeeds has sent the contents of the file. -/
theorem meets_runActionWriteFile {rel : CStr} {dirname : Option CStr} (hdone : done ⊆ paths)
    (hpaths : ∀ p, loc.realpath rel = some p → p ∈ paths) :
    Dialogue.Meets (Answers loc fd) (Stays paths) (fun _ c => Uploaded loc done c)
      (runActionWriteFile rel dirname) fun code _ c => code = 0 → ∃ p,
        loc.realpath rel = some p ∧ (loc.contents p).isSome ∧ Uploaded loc (insert p done) c := by
  unfold runActionWriteFile
  refine meets_local (fun _ => rfl) (fun r _ c => r = loc.realpath rel ∧ Uploaded loc done c)
    (fun r => (uploaded_stable hdone).fact _) (fun h c r hA hagrees => ⟨hagrees, hA⟩) fun r => ?_
  refine .fact fun hr => ?_
  cases r with
  | none => exact .pure fun h c _ hcode => absurd hcode (by decide)
  | some p =>
    have hinsert : insert p done ⊆ paths := Set.insert_subset (hpaths p hr.symm) hdone
    refine meets_call rfl (fun _ _ c => Uploaded loc (done \ {p}) c)
      (fun _ => uploaded_stable (fun q hq => hdone hq.1))
      (fun h c reply m files c' hA hstep => hA.call rfl hstep) fun r => ?_
    refine .ite (fun herr => .pure fun h c _ hcode => absurd hcode (neg_ne_zero herr)) fun _ => ?_
    refine (meets_writeFile hinsert).bind fun err => ?_
    refine .ite (fun herr => .pure fun h c _ hcode => absurd hcode (neg_ne_zero herr))
      fun herr => ?_
    refine Dialogue.Meets.strengthen ?_ fun h c hA => hA herr
    refine .fact fun hcontents => ?_
    refine meets_call rfl (fun _ _ c => Uploaded loc (insert p done) c)
      (fun _ => uploaded_stable hinsert) (fun h c reply m files c' hA hstep => hA.close hstep)
      fun r => ?_
    refine .ite (fun herr => .pure fun h c _ hcode => absurd hcode (neg_ne_zero herr)) fun _ => ?_
    exact .pure fun h c hA _ => ⟨p, hr.symm, hcontents, hA⟩

/-- All these names are found and the files behind them can be read. -/
def Found (loc : Local) (names : List CStr) : Prop :=
  ∀ name ∈ names, ∃ p, loc.realpath name = some p ∧ (loc.contents p).isSome

/-- The files behind names. -/
def resolved (loc : Local) (names : List CStr) : Set CStr :=
  {p | ∃ name ∈ names, loc.realpath name = some p}

theorem resolved_cons {name : CStr} {names : List CStr} (h : path ∈ resolved loc names) :
    path ∈ resolved loc (name :: names) := by
  obtain ⟨n, hn, hpath⟩ := h
  exact ⟨n, List.mem_cons_of_mem _ hn, hpath⟩

/-- What `-W` achieves. -/
theorem meets_writeList {names : List CStr} {dirname : Option CStr} (hdone : done ⊆ paths)
    (hpaths : resolved loc names ⊆ paths) :
    Dialogue.Meets (Answers loc fd) (Stays paths) (fun _ c => Uploaded loc done c)
      (runActionWriteListOfFiles dirname names) fun code _ c => code = 0 →
        Found loc names ∧ Uploaded loc (resolved loc names ∪ done) c := by
  induction names generalizing done with
  | nil =>
    refine .pure fun h c hA _ => ⟨nofun, fun p hp => hA p (hp.resolve_left ?_)⟩
    rintro ⟨name, hname, -⟩
    cases hname
  | cons name names ih =>
    have hrest : resolved loc names ⊆ paths := fun p hp => hpaths (resolved_cons hp)
    rw [runActionWriteListOfFiles]
    refine (meets_runActionWriteFile hdone fun p hp => hpaths ⟨name, List.mem_cons_self, hp⟩).bind
      fun err => ?_
    refine .ite (fun herr => .pure fun h c _ hcode => absurd hcode herr) fun herr => ?_
    have hsucceeded := not_not.mp herr
    cases hp : loc.realpath name with
    | none =>
      refine .vacuous fun h c hA => ?_
      obtain ⟨p, hnone, -⟩ := hA hsucceeded
      cases hnone
    | some p =>
      have hinsert : insert p done ⊆ paths :=
        Set.insert_subset (hpaths ⟨name, List.mem_cons_self, hp⟩) hdone
      refine .known (Q := (loc.contents p).isSome) (A := fun _ c => Uploaded loc (insert p done) c)
        (fun h c hA => ?_) fun hcontents => ?_
      · obtain ⟨p', heq, hcontents, huploaded⟩ := hA hsucceeded
        obtain rfl := Option.some.inj heq
        exact ⟨hcontents, huploaded⟩
      · refine (ih hinsert hrest).weaken fun code h c hpost hcode => ?_
        obtain ⟨hfound, huploaded⟩ := hpost hcode
        refine ⟨?_, fun q hq => huploaded q ?_⟩
        · intro n hn
          rcases List.mem_cons.mp hn with rfl | hn
          · exact ⟨p, hp, hcontents⟩
          · exact hfound n hn
        · rcases hq with ⟨n, hn, hq⟩ | hq
          · rcases List.mem_cons.mp hn with rfl | hn
            · rw [hp] at hq
              exact Or.inr (Or.inl (Option.some.inj hq).symm)
            · exact Or.inl ⟨n, hn, hq⟩
          · exact Or.inr (Or.inr hq)

/-! ## 3. Downloads -/

/-- The saves that the client tried: the file, what it was to hold, and whether it was opened. -/
def saves (h : List Exchange) : List (List UInt8 × List UInt8 × Bool) :=
  h.filterMap fun
    | ⟨.saveFile filepath buffer, ok⟩ => some (filepath, buffer, ok)
    | _ => none

/-- The local files once these saves were tried, one after the other.  What is opened is written
whole; the client does not look at what `fwrite` returns. -/
def afterSaves (files : Files) (tried : List (List UInt8 × List UInt8 × Bool)) : Files :=
  tried.foldl (fun files x => if x.2.2 then Function.update files x.1 (some x.2.1) else files) files

/-- The files behind the names under their new names in `dir`. -/
def copies (loc : Local) (dir : CStr) (names : List CStr) : List (List UInt8 × List UInt8) :=
  names.filterMap fun name => do
    let p ← loc.realpath name
    let bytes ← loc.contents p
    return (localPath dir p.bytes, bytes)

/-- These were the saves that the client tried. -/
def Tried (h : List Exchange) (written : List (List UInt8 × List UInt8)) : Prop :=
  (saves h).map (fun x => (x.1, x.2.1)) = written

theorem tried_snoc {h : List Exchange} {e : Exchange} {written : List (List UInt8 × List UInt8)}
    (he : saves [e] = []) (htried : Tried h written) : Tried (h ++ [e]) written := by
  have hsame : saves (h ++ [e]) = saves h := by
    rw [saves, List.filterMap_append, ← saves, ← saves, he, List.append_nil]
  rw [Tried, hsame]
  exact htried

theorem tried_save {h : List Exchange} {filepath buffer : List UInt8} {ok : Bool}
    {written : List (List UInt8 × List UInt8)} (htried : Tried h written) :
    Tried (h ++ [⟨.saveFile filepath buffer, ok⟩]) (written ++ [(filepath, buffer)]) := by
  have hsnoc : saves (h ++ [⟨.saveFile filepath buffer, ok⟩]) =
      saves h ++ [(filepath, buffer, ok)] := List.filterMap_append
  rw [Tried, hsnoc, List.map_append, htried]
  rfl

/-- A local file is as it was, or holds what the last successful save of it wrote. -/
theorem afterSaves_cases (files : Files) (tried : List (List UInt8 × List UInt8 × Bool))
    (filepath : List UInt8) :
    afterSaves files tried filepath = files filepath ∧
        (∀ x ∈ tried, x.1 = filepath → x.2.2 = false) ∨
      ∃ x ∈ tried, x.1 = filepath ∧ x.2.2 = true ∧
        afterSaves files tried filepath = some x.2.1 := by
  induction tried using List.reverseRecOn with
  | nil => exact Or.inl ⟨rfl, nofun⟩
  | append_singleton tried x ih =>
    have hlast : afterSaves files (tried ++ [x]) =
        if x.2.2 then Function.update (afterSaves files tried) x.1 (some x.2.1)
        else afterSaves files tried := List.foldl_concat ..
    by_cases hwritten : x.2.2 = true ∧ x.1 = filepath
    · obtain ⟨hok, rfl⟩ := hwritten
      refine Or.inr ⟨x, by simp, rfl, hok, ?_⟩
      rw [hlast, if_pos hok, Function.update_self]
    · have hsame : afterSaves files (tried ++ [x]) filepath = afterSaves files tried filepath := by
        rw [hlast]
        split
        · rename_i hok
          exact Function.update_of_ne (fun heq => hwritten ⟨hok, heq.symm⟩) _ _
        · rfl
      rw [hsame]
      rcases ih with ⟨hold, hnone⟩ | ⟨y, hy, hrest⟩
      · refine Or.inl ⟨hold, fun y hy heq => ?_⟩
        rcases List.mem_append.mp hy with hy | hy
        · exact hnone y hy heq
        · obtain rfl := List.mem_singleton.mp hy
          exact eq_false_of_ne_true fun hok => hwritten ⟨hok, heq⟩
      · exact Or.inr ⟨y, List.mem_append_left _ hy, hrest⟩

/-- What the download leaves in the directory `dir`, whose files were `files`. -/
structure Downloaded (loc : Local) (dir : CStr) (names : List CStr) (files : Files)
    (h : List Exchange) : Prop where
  -- where two files have one base name the later takes the place of the earlier
  changed : ∀ filepath, afterSaves files (saves h) filepath ≠ files filepath →
    ∃ p ∈ resolved loc names, filepath = localPath dir p.bytes ∧
      afterSaves files (saves h) filepath = loc.contents p
  all : (∀ x ∈ saves h, x.2.2 = true) →
    Set.InjOn (fun p : CStr => localPath dir p.bytes) (resolved loc names) →
      ∀ p ∈ resolved loc names, afterSaves files (saves h) (localPath dir p.bytes) = loc.contents p

theorem mem_copies {loc : Local} {dir : CStr} {names : List CStr} {y : List UInt8 × List UInt8} :
    y ∈ copies loc dir names ↔ ∃ p ∈ resolved loc names, ∃ bytes, loc.contents p = some bytes ∧
      y = (localPath dir p.bytes, bytes) := by
  simp only [copies, List.mem_filterMap, resolved]
  constructor
  · rintro ⟨name, hname, hy⟩
    obtain ⟨p, hp, hy⟩ := Option.bind_eq_some_iff.mp hy
    obtain ⟨bytes, hbytes, hy⟩ := Option.bind_eq_some_iff.mp hy
    exact ⟨p, ⟨name, hname, hp⟩, bytes, hbytes, (Option.some.inj hy).symm⟩
  · rintro ⟨p, ⟨name, hname, hp⟩, bytes, hbytes, rfl⟩
    exact ⟨name, hname, by simp [hp, hbytes]⟩

/-- When the client has tried to save the copies, the directory holds what could be saved of them. -/
theorem Tried.downloaded {loc : Local} {dir : CStr} {names : List CStr} {h : List Exchange}
    (htried : Tried h (copies loc dir names)) (hfound : Found loc names) (files : Files) :
    Downloaded loc dir names files h := by
  have hcopy : ∀ x ∈ saves h, ∃ p ∈ resolved loc names, loc.contents p = some x.2.1 ∧
      x.1 = localPath dir p.bytes := by
    intro x hx
    have hmem : (x.1, x.2.1) ∈ copies loc dir names := by
      rw [← htried]
      exact List.mem_map_of_mem hx
    obtain ⟨p, hp, bytes, hbytes, heq⟩ := mem_copies.mp hmem
    obtain ⟨hpath, rfl⟩ := Prod.mk.inj heq
    exact ⟨p, hp, hbytes, hpath⟩
  refine ⟨fun filepath hchanged => ?_, fun hok hinj p hp => ?_⟩
  · rcases afterSaves_cases files (saves h) filepath with ⟨hsame, -⟩ | ⟨x, hx, rfl, -, hholds⟩
    · exact absurd hsame hchanged
    · obtain ⟨p, hp, hbytes, hpath⟩ := hcopy x hx
      exact ⟨p, hp, hpath, hholds.trans hbytes.symm⟩
  · obtain ⟨name, hname, hreal⟩ := hp
    obtain ⟨p', hp', hcontents⟩ := hfound name hname
    obtain rfl := Option.some.inj (hreal.symm.trans hp')
    obtain ⟨bytes, hbytes⟩ := Option.isSome_iff_exists.mp hcontents
    have hsaved : (localPath dir p.bytes, bytes) ∈ (saves h).map fun x => (x.1, x.2.1) := by
      rw [htried]
      exact mem_copies.mpr ⟨p, ⟨name, hname, hreal⟩, bytes, hbytes, rfl⟩
    obtain ⟨y, hy, hpath⟩ := List.mem_map.mp hsaved
    rcases afterSaves_cases files (saves h) (localPath dir p.bytes) with
      ⟨-, hnone⟩ | ⟨x, hx, heq, -, hholds⟩
    · -- it was saved
      have hfailed := hnone y hy (congrArg Prod.fst hpath)
      rw [hok y hy] at hfailed
      cases hfailed
    · obtain ⟨q, hq, hqbytes, hqpath⟩ := hcopy x hx
      obtain rfl : q = p := hinj hq ⟨name, hname, hreal⟩ (hqpath.symm.trans heq)
      rw [hholds, hqbytes]

/-- A read that succeeds gives what was uploaded. -/
theorem Uploaded.read (h : Uploaded loc done c) {bytes : List UInt8} (hpath : path ∈ done)
    (hbytes : loc.contents path = some bytes) {reply : EndOfStream.Reply}
    (hstep : ContentsStep c (fd, .readFile path, reply) c') {m : EndOfStream.Machine}
    {d : Option CStr} {files : Files} (hcode : (reply.result m d files).code = 0) :
    (reply.result m d files).buf = bytes := by
  cases hstep with
  | quiet hread => exact absurd rfl (hread path)
  | read =>
    rcases h path hpath with hnone | hsome
    · rw [hnone] at hcode
      exact absurd hcode (show ¬(-1 : Int32) = 0 by decide)
    · rw [hsome, hbytes]
      rfl

theorem Uploaded.after_read (h : Uploaded loc done c) {reply : EndOfStream.Reply}
    (hstep : ContentsStep c (fd, .readFile path, reply) c') : Uploaded loc done c' := by
  cases hstep with
  | read | quiet => exact h

/-- A download that succeeds has tried to save what was uploaded. -/
theorem meets_readList {names : List CStr} {dir : CStr} {before : List (List UInt8 × List UInt8)}
    (hfound : Found loc names) (hdone : done ⊆ paths) (hnames : resolved loc names ⊆ done) :
    Dialogue.Meets (Answers loc fd) (Stays paths)
      (fun h c => Tried h before ∧ Uploaded loc done c) (readListOfFiles (some dir) names)
      fun code h _ => code = 0 → Tried h (before ++ copies loc dir names) := by
  induction names generalizing before with
  | nil =>
    refine .pure fun h c hA _ => ?_
    rw [copies, List.filterMap_nil, List.append_nil]
    exact hA.1
  | cons name names ih =>
    obtain ⟨p, hp, hcontents⟩ := hfound name List.mem_cons_self
    obtain ⟨bytes, hbytes⟩ := Option.isSome_iff_exists.mp hcontents
    have hmem : p ∈ done := hnames ⟨name, List.mem_cons_self, hp⟩
    have hcopies : copies loc dir (name :: names) =
        (localPath dir p.bytes, bytes) :: copies loc dir names := by
      rw [copies, List.filterMap_cons_some (b := (localPath dir p.bytes, bytes))]
      · rfl
      · simp [hp, hbytes]
    have hstable : Dialogue.Stable (ρ := Query.Reply) (Stays paths) fun _ c =>
        Uploaded loc done c := uploaded_stable hdone
    rw [readListOfFiles]
    refine meets_local (fun _ => rfl)
      (fun r h c => r = loc.realpath name ∧ Tried h before ∧ Uploaded loc done c)
      (fun r => (hstable.fact _).fact _)
      (fun h c r hA hagrees => ⟨hagrees, tried_snoc rfl hA.1, hA.2⟩) fun r => ?_
    refine .fact fun hr => ?_
    rw [hr, hp]
    refine meets_call rfl (fun r h c => (r.1 = 0 → r.2 = bytes) ∧ Tried h before ∧
        Uploaded loc done c) (fun r => (hstable.fact _).fact _)
      (fun h c reply m files c' hA hstep => ?_) fun r => ?_
    · exact ⟨fun hcode => hA.2.read hmem hbytes hstep hcode, tried_snoc rfl hA.1,
        hA.2.after_read hstep⟩
    · obtain ⟨err, buffer⟩ := r
      refine .fact fun hbuffer => ?_
      refine .ite (fun herr => .pure fun h c _ hcode => absurd hcode herr) fun herr => ?_
      obtain rfl : buffer = bytes := hbuffer (not_not.mp herr)
      have hsave : Dialogue.Meets (Answers loc fd) (Stays paths)
          (fun h c => Tried h before ∧ Uploaded loc done c)
          (writeFileToDir buffer (some dir) p) fun _ h c =>
            Tried h (before ++ [(localPath dir p.bytes, buffer)]) ∧ Uploaded loc done c := by
        refine meets_local (fun _ => rfl)
          (fun _ h c => Tried h (before ++ [(localPath dir p.bytes, buffer)]) ∧
            Uploaded loc done c) (fun _ => hstable.fact _) (fun h c r hA _ => ?_) fun r => ?_
        · exact ⟨tried_save hA.1, hA.2⟩
        · exact .ite (fun _ => .pure fun _ _ hA => hA) fun _ => .pure fun _ _ hA => hA
      refine hsave.bind fun _ => ?_
      have hrest := @ih (before ++ [(localPath dir p.bytes, buffer)])
        (fun n hn => hfound n (List.mem_cons_of_mem _ hn))
        fun q hq => hnames (resolved_cons hq)
      refine hrest.weaken fun code h c hpost hcode => ?_
      have htried := hpost hcode
      rwa [List.append_assoc, List.singleton_append, ← hcopies] at htried

/-! ## 4. Directories -/

/-- None of these files is stored, and the client has not been told so. -/
def Lost (lost : Set CStr) : Dialogue.Claim Query.Reply ContentsMap := fun h c =>
  (∀ path ∈ lost, c path = none) ∧ ∀ path contents dirname r,
    ⟨.call (.writeFile path contents) dirname, r⟩ ∈ h → path ∈ lost → r.1 = (0 : Int32)

theorem lost_stable (paths : Set CStr) : Dialogue.Stable (StaysAway paths) (Lost paths) :=
  fun _ _ _ hlost haway => ⟨fun path hpath => haway path hpath (hlost.1 path hpath), hlost.2⟩

/-- A call of `writeFile` stores nothing under a path that is free. -/
theorem Lost.write {h : List Exchange} {contents : List UInt8} {d : Option CStr}
    {reply : EndOfStream.Reply} {m : EndOfStream.Machine} {files : Files} (hlost : Lost paths h c)
    (hstep : ContentsStep c (fd, .writeFile path contents, reply) c') :
    Lost paths (h ++ [⟨.call (.writeFile path contents) d,
      ((reply.result m d files).code, (reply.result m d files).buf)⟩]) c' := by
  refine ⟨fun p hp => ?_, fun p contents' d' r hmem hp => ?_⟩
  · by_cases heq : p = path
    · subst heq
      cases hstep with
      | written hold => rw [hlost.1 p hp] at hold; cases hold
      | absent hnone => exact hnone
      | quiet hread hwrite => exact absurd rfl (hwrite p contents)
    · rcases hstep.apart (fun hsame => heq (Option.some.inj hsame).symm) with hsame | hnone
      · rw [hsame]
        exact hlost.1 p hp
      · exact hnone
  · rcases List.mem_append.mp hmem with hmem | hmem
    · exact hlost.2 p contents' d' r hmem hp
    · -- the reply to this very call counts no evicted file
      cases List.mem_singleton.mp hmem
      cases hstep with
      | written hold => rw [hlost.1 path hp] at hold; cases hold
      | quiet hread hwrite => exact absurd rfl (hwrite path contents)
      | absent hnone => cases d <;> rfl

theorem Lost.snoc {h : List Exchange} {e : Exchange} (hlost : Lost paths h c)
    (he : callOf e = none) : Lost paths (h ++ [e]) c := by
  refine ⟨hlost.1, fun p contents d r hmem hp => ?_⟩
  rcases List.mem_append.mp hmem with hmem | hmem
  · exact hlost.2 p contents d r hmem hp
  · rw [← List.mem_singleton.mp hmem] at he
    cases he

theorem lost_writeFile (filepath : CStr) (dirname : Option CStr) :
    Dialogue.Meets (Answers loc fd) (StaysAway paths) (Lost paths) (writeFile filepath dirname)
      fun _ => Lost paths := by
  unfold writeFile
  refine meets_local (fun _ => rfl) (fun _ => Lost paths) (fun _ => lost_stable paths)
    (fun h c r hA _ => hA.snoc rfl) fun r => ?_
  cases r with
  | none => exact .pure fun _ _ hA => hA
  | some contents =>
    refine meets_call rfl (fun _ => Lost paths) (fun _ => lost_stable paths)
      (fun h c reply m files c' hA hstep => hA.write hstep) fun r => ?_
    exact .pure fun _ _ hA => hA

theorem lost_withDir {absdir : CStr} {limit : Option Int32}
    {loop : Option Int32 → Command (Int32 × Option Int32)}
    (hloop : Dialogue.Meets (Answers loc fd) (StaysAway paths) (Lost paths) (loop limit)
      fun _ => Lost paths) :
    Dialogue.Meets (Answers loc fd) (StaysAway paths) (Lost paths) (withDir absdir limit loop)
      fun _ => Lost paths := by
  unfold withDir
  refine meets_local (fun _ => rfl) (fun _ => Lost paths) (fun _ => lost_stable paths)
    (fun h c r hA _ => hA.snoc rfl) fun r => ?_
  exact .ite (fun _ => hloop) fun _ => .pure fun _ _ hA => hA

theorem lost_writeEntries (listing : Listing) (absdir : CStr) (limit : Option Int32) :
    Dialogue.Meets (Answers loc fd) (StaysAway paths) (Lost paths)
      (writeEntries absdir listing limit) fun _ => Lost paths := by
  induction listing generalizing absdir limit with
  | nil => exact .pure fun _ _ hA => hA
  | entry dName dType sub rest ihsub ihrest =>
    unfold writeEntries
    refine .ite (fun _ => .pure fun _ _ hA => hA) fun _ => ?_
    refine .ite (fun _ => ihrest absdir limit) fun _ => ?_
    cases dType with
    | dir => exact (lost_withDir (ihsub _ _)).bind fun r => ihrest absdir r.2
    | reg =>
      refine (lost_writeFile _ none).bind fun err => ?_
      exact .ite (fun _ => .pure fun _ _ hA => hA) fun _ => ihrest absdir _
    | other => exact .pure fun _ _ hA => hA

theorem lost_runActionWriteFilesInDir (contents : CStr → Listing) (action : Cli.Action) :
    Dialogue.Meets (Answers loc fd) (StaysAway paths) (Lost paths)
      (runActionWriteFilesInDir contents action) fun _ => Lost paths := by
  have hstart : Dialogue.Meets (Answers loc fd) (StaysAway paths) (Lost paths) (startDirname action)
      fun _ => Lost paths := by
    unfold startDirname
    split
    · exact trivial
    · refine .ite (fun _ => ?_) fun _ => ?_
      · split
        · exact trivial
        · exact .pure fun _ _ hA => hA
      · refine meets_local (fun _ => rfl) (fun _ => Lost paths) (fun _ => lost_stable paths)
          (fun h c r hA _ => hA.snoc rfl) fun r => ?_
        cases r with
        | none => exact .pure fun _ _ hA => hA
        | some cwd =>
          refine .ite (fun _ => .pure fun _ _ hA => hA) fun _ => ?_
          exact .ite (fun _ => trivial) fun _ => .pure fun _ _ hA => hA
  unfold runActionWriteFilesInDir
  refine hstart.bind fun dirname => ?_
  cases dirname with
  | none => exact .pure fun _ _ hA => hA
  | some dirname =>
    refine (lost_withDir (lost_writeEntries _ _ _)).bind fun r => ?_
    exact .pure fun _ _ hA => hA

end

/-! ## 5. Sessions -/

section

variable {P : Platform} {files : Nat → Files} {buckets : Nat} {config : Config} {loc : Local}
  {fd : Nat} {contents : CStr → Listing} {up down action : Cli.Action} {list dir : CStr}
  {before trUp trBetween trDown tr : List (Session × Event)} {s s₁ s₂ s₃ : Session}
  {hUp hDown h : List Exchange} {code : Int32}

theorem inv_of_runs (run : Runs P files buckets config before s)
    (hcalm : ∀ x ∈ before, Calm P x.1 x.2) : Inv P s :=
  run.inv hcalm s (by simp [statesOf])

theorem inv_of_run (hinv : Inv P s) (run : Run (fun s e s' => next P s e = some s') s tr s₁)
    (hcalm : ∀ x ∈ tr, Calm P x.1 x.2) : Inv P s₁ :=
  run.invariant (Inv P) (Calm P) hinv (fun _ _ _ hinv hcalm hx => (step_callers hinv hcalm hx).1)
    hcalm

/-- While nobody makes or writes these files, what was uploaded stays or goes. -/
theorem Uploaded.run {done : Set CStr} (hinv : Inv P s)
    (run : Run (fun s e s' => next P s e = some s') s tr s₁) (hcalm : ∀ x ∈ tr, Calm P x.1 x.2)
    (hspares : ∀ x ∈ tr, ∀ fd' call, handledCall x = some (fd', call) → Spares done call)
    (h : Uploaded loc done (stored P s)) : Uploaded loc done (stored P s₁) := by
  obtain ⟨ops, hops, heffects⟩ := contents_run hinv run hcalm
  refine (uploaded_stable (Set.Subset.refl done)).run (h := []) hops h ?_
  intro y hy c' hstep
  obtain ⟨z, hz, hcall⟩ := handled_of_mem heffects hy
  exact ContentsStep.stays hstep (hspares z hz _ _ hcall)

/-- When a client uploads files with `-W` and later downloads them with `-r`, both without a failure,
every name was found, and what the download leaves in the directory is what the files held at the
upload: whatever it changed there, and all of it when the saves succeeded and no two files have one
base name.  Meanwhile the other clients, and in between the client itself, may do anything but make or
write these files, and make the server evict what it likes. -/
theorem download_gives_upload (run : Runs P files buckets config before s)
    (hcalm : ∀ x ∈ before, Calm P x.1 x.2) (hup : up.type = 'W') (hdown : down.type = 'r')
    (hlist : up.argS1 = some list) (hsame : down.argS1 = some list) (hdir : down.argS2 = some dir)
    (hupload : Conversation P loc fd (Spares (resolved loc (tokens list))) hUp s trUp s₁)
    (hsent : (runAction contents up).Returns hUp 0)
    (hbetween : Run (fun s e s' => next P s e = some s') s₁ trBetween s₂)
    (hcalm' : ∀ x ∈ trBetween, Calm P x.1 x.2)
    (hspares : ∀ x ∈ trBetween, ∀ fd' call, handledCall x = some (fd', call) →
      Spares (resolved loc (tokens list)) call)
    (hdownload : Conversation P loc fd (Spares (resolved loc (tokens list))) hDown s₂ trDown s₃)
    (hgot : (runAction contents down).Returns hDown 0) :
    Found loc (tokens list) ∧ ∀ there, Downloaded loc dir (tokens list) there hDown := by
  have hinv := inv_of_runs run hcalm
  have hinv₁ := inv_of_run hinv hupload.run hupload.calm
  have hinv₂ := inv_of_run hinv₁ hbetween hcalm'
  have hsub : resolved loc (tokens list) ⊆ resolved loc (tokens list) := Set.Subset.refl _
  simp only [runAction, hup, overPaths, hlist] at hsent
  simp only [runAction, hdown, overPaths, hsame, hdir] at hgot
  have hnone : ∅ ⊆ resolved loc (tokens list) := fun p hp => hp.elim
  obtain ⟨hfound, huploaded⟩ := hupload.achieves hinv ContentsStep.stays
    (meets_writeList hnone hsub) (uploaded_stable hnone) hsent (fun p hp => hp.elim) rfl
  have hkept : Uploaded loc (resolved loc (tokens list)) (stored P s₂) :=
    Uploaded.run hinv₁ hbetween hcalm' hspares fun p hp => huploaded p (Or.inl hp)
  have hstable : Dialogue.Stable (ρ := Query.Reply) (Stays (resolved loc (tokens list)))
      fun h c => Tried h [] ∧ Uploaded loc (resolved loc (tokens list)) c :=
    (uploaded_stable hsub).fact _
  have hmeets : Dialogue.Meets (Answers loc fd) (Stays (resolved loc (tokens list)))
      (fun h c => Tried h [] ∧ Uploaded loc (resolved loc (tokens list)) c)
      (runActionReadListOfFiles (some dir) (tokens list))
      fun code h _ => code = 0 → Tried h ([] ++ copies loc dir (tokens list)) := by
    refine meets_local (fun _ => rfl) (fun _ => _) (fun _ => hstable) (fun h c r hA _ => ?_)
      fun r => meets_readList hfound hsub hsub
    exact ⟨tried_snoc rfl hA.1, hA.2⟩
  have htried := hdownload.achieves hinv₂ ContentsStep.stays hmeets hstable hgot ⟨rfl, hkept⟩ rfl
  exact ⟨hfound, fun there => Tried.downloaded htried hfound there⟩

def sampleDir : CStr := bufToStr [100]

def sampleLocal : Local := ⟨some, fun _ => some [7, 8]⟩

def sampleUpload : List Exchange :=
  [⟨.realpath sampleName, some sampleName⟩,
    ⟨.call (.openFile sampleName 3) none, ((0 : Int32), [])⟩,
    ⟨.fileContents sampleName, some [7, 8]⟩,
    ⟨.call (.writeFile sampleName [7, 8]) none, ((0 : Int32), [])⟩,
    ⟨.call (.closeFile sampleName) none, ((0 : Int32), [])⟩]

def sampleDownload : List Exchange :=
  [⟨.opendir sampleDir, true⟩, ⟨.realpath sampleName, some sampleName⟩,
    ⟨.call (.readFile sampleName) none, ((0 : Int32), [7, 8])⟩,
    ⟨.saveFile [100, 47, 97] [7, 8], true⟩]

def sampleUp : Cli.Action :=
  { type := 'W', argS1 := some sampleName, argS2 := none, argI := 0, next := none }

def sampleDown : Cli.Action :=
  { type := 'r', argS1 := some sampleName, argS2 := some sampleDir, argI := 0, next := none }

theorem runs_from {P : Platform} {s₀ : Session} {events : List Event}
    {x : List (Session × Event) × Session} (hx : replay (next P) s₀ events = some x) :
    Run (fun s e s' => next P s e = some s') s₀ x.1 x.2 := Run.of_replay (fun _ _ _ h => h) hx

theorem resolved_sample : resolved sampleLocal (tokens sampleName) = {path | path ∈ [sampleName]} := by
  have htokens : tokens sampleName = [sampleName] := by decide
  refine Set.ext fun path => ⟨fun hpath => ?_, fun hpath => ?_⟩
  · obtain ⟨name, hname, hreal⟩ := hpath
    rw [htokens] at hname
    obtain rfl := Option.some.inj hreal
    exact hname
  · exact ⟨path, htokens ▸ hpath, rfl⟩

/-- 4 uploads a file, 5 creates another one, and 4 downloads its own. -/
theorem download_gives_upload_two :
    ∃ s s₁ s₂ s₃ trUp trBetween trDown,
      Runs samplePlatform (fun _ _ => none) 1 ⟨10, 10, .fifo⟩ [] s ∧
      Conversation samplePlatform sampleLocal 4 (Spares {path | path ∈ [sampleName]}) sampleUpload s
        trUp s₁ ∧
      Run (fun s e s' => next samplePlatform s e = some s') s₁ trBetween s₂ ∧
      Conversation samplePlatform sampleLocal 4 (Spares {path | path ∈ [sampleName]}) sampleDownload
        s₂ trDown s₃ ∧
      afterSaves (fun _ => none) (saves sampleDownload) [100, 47, 97] = some [7, 8] := by
  let P := samplePlatform
  let paths := [sampleName]
  have hrun : ((htableCreate 1 ⟨10, 10, .fifo⟩).toOption.bind fun t =>
      (replay (next P) (start (fun _ _ => none) t)
        [.send 4 (.openFile sampleName 3), .handle 4 [16, 1, 1] [],
          .receive 4 (oneByOne [0]) sampleMachine none,
          .send 4 (.writeFile sampleName [7, 8]), .handle 4 [9, 8, 30] [],
          .receive 4 (oneByOne (List.replicate 9 0)) sampleMachine none,
          .send 4 (.closeFile sampleName), .handle 4 [16, 2] [],
          .receive 4 (oneByOne [0]) sampleMachine none]).bind fun x =>
        (replay (next P) x.2
          [.send 5 (.openFile sampleDir 1), .handle 5 [16, 2] [],
            .receive 5 (oneByOne [0]) sampleMachine none]).bind fun y =>
          (replay (next P) y.2
            [.send 4 (.readFile sampleName), .handle 4 [16, 2] [],
              .receive 4 (oneByOne [0, 0, 0, 0, 0, 0, 0, 0, 2, 7, 8]) sampleMachine none]).map
            fun z => (t, x, y, z)).any (fun w =>
        conversed P 4 paths sampleUpload (start (fun _ _ => none) w.1) w.2.1.1 w.2.1.2 &&
          (w.2.2.1.1.all fun v => calm P v &&
            (handledCall v).all fun y => !names paths y.2) &&
            conversed P 4 paths sampleDownload w.2.2.1.2 w.2.2.2.1 w.2.2.2.2) = true := by
    decide +kernel
  obtain ⟨w, hw, htest⟩ := (Option.any_eq_true _ _).mp hrun
  obtain ⟨t, ht, hw⟩ := Option.bind_eq_some_iff.mp hw
  obtain ⟨x, hx, hw⟩ := Option.bind_eq_some_iff.mp hw
  obtain ⟨y, hy, hw⟩ := Option.bind_eq_some_iff.mp hw
  obtain ⟨z, hz, rfl⟩ := Option.map_eq_some_iff.mp hw
  simp only [Bool.and_eq_true, List.all_eq_true] at htest
  obtain ⟨⟨hup, hbetween⟩, hdown⟩ := htest
  have hagrees : ∀ e ∈ sampleUpload ++ sampleDownload, sampleLocal.Agrees e := by
    simp only [sampleUpload, sampleDownload, List.forall_mem_append, List.forall_mem_cons]
    exact ⟨⟨rfl, trivial, rfl, trivial, trivial, nofun⟩, trivial, rfl, trivial, trivial, nofun⟩
  have hstart : Runs P (fun _ _ => none) 1 ⟨10, 10, .fifo⟩ [] (start (fun _ _ => none) t) :=
    ⟨t, Exec.toOption_eq_some.mp ht, .nil⟩
  have hsent : (runAction (fun _ => .nil) sampleUp).Returns sampleUpload 0 :=
    .ask (.ask (.ask (.ask (.ask .done))))
  have hgot : (runAction (fun _ => .nil) sampleDown).Returns sampleDownload 0 :=
    .ask (.ask (.ask (.ask .done)))
  have hupload := Conversation.of_test (runs_from hx) hup fun e he =>
    hagrees e (List.mem_append_left _ he)
  have hdownload := Conversation.of_test (runs_from hz) hdown fun e he =>
    hagrees e (List.mem_append_right _ he)
  have hspares : ∀ v ∈ y.1, ∀ fd' call, handledCall v = some (fd', call) →
      Spares {path | path ∈ paths} call := by
    intro v hv fd' call hcall
    have hnot := (hbetween v hv).2
    rw [hcall, Option.all_some, Bool.not_eq_true'] at hnot
    exact spares_of_names hnot
  have hresult := download_gives_upload hstart nofun rfl rfl rfl rfl rfl
    (resolved_sample ▸ hupload) hsent (runs_from hy) (fun v hv => calm_of_test (hbetween v hv).1)
    (resolved_sample ▸ hspares) (resolved_sample ▸ hdownload) hgot
  refine ⟨_, _, _, _, _, _, _, hstart, hupload, runs_from hy, hdownload, ?_⟩
  have hmem : sampleName ∈ resolved sampleLocal (tokens sampleName) := by
    rw [resolved_sample]
    exact List.mem_singleton.mpr rfl
  refine (hresult.2 fun _ => none).all (by decide) (fun p hp q hq _ => ?_) sampleName hmem
  rw [resolved_sample] at hp hq
  exact (List.mem_singleton.mp hp).trans (List.mem_singleton.mp hq).symm

/-- `-w` adds nothing to the store.  Files that the server does not have when it begins, and that no
other client makes, the server does not have at the end either, although every reply says that they
were written. -/
theorem directory_adds_nothing {lost : Set CStr} (run : Runs P files buckets config before s)
    (hcalm : ∀ x ∈ before, Calm P x.1 x.2) (htype : action.type = 'w')
    (hlost : ∀ path ∈ lost, stored P s path = none)
    (hconv : Conversation P loc fd (MakesNone lost) h s tr s₁)
    (hreturns : (runAction contents action).Returns h code) :
    (∀ path ∈ lost, stored P s₁ path = none) ∧
      ∀ path sent dirname r, ⟨.call (.writeFile path sent) dirname, r⟩ ∈ h →
        path ∈ lost → r.1 = (0 : Int32) := by
  have hinv := inv_of_runs run hcalm
  simp only [runAction, htype] at hreturns
  exact hconv.achieves hinv ContentsStep.staysAway
    (lost_runActionWriteFilesInDir contents action) (lost_stable _) hreturns ⟨hlost, nofun⟩

def sampleUploads : Cli.Action :=
  { type := 'w', argS1 := some (bufToStr [47, 100]), argS2 := none, argI := 0, next := none }

/-- `/d` with the file `a`. -/
def sampleTree (path : CStr) : Listing :=
  if path.bytes = [47, 100] then .entry sampleName .reg .nil .nil else .nil

def samplePath : CStr := bufToStr [47, 100, 47, 97]

def sampleWalk : List Exchange :=
  [⟨.opendir (bufToStr [47, 100]), true⟩, ⟨.fileContents samplePath, some [7, 8]⟩,
    ⟨.call (.writeFile samplePath [7, 8]) none, ((0 : Int32), [])⟩]

/-- `-w /d` on an empty store. -/
theorem directory_adds_nothing_one :
    ∃ s tr s', Runs samplePlatform (fun _ _ => none) 1 ⟨10, 10, .fifo⟩ [] s ∧
      Conversation samplePlatform sampleLocal 4 (MakesNone {path | path ∈ [samplePath]}) sampleWalk s
        tr s' ∧
      (runAction sampleTree sampleUploads).Returns sampleWalk 0 ∧
      stored samplePlatform s' samplePath = none ∧
      ⟨.call (.writeFile samplePath [7, 8]) none, ((0 : Int32), [])⟩ ∈ sampleWalk := by
  let P := samplePlatform
  have hrun : ((htableCreate 1 ⟨10, 10, .fifo⟩).toOption.bind fun t =>
      (replay (next P) (start (fun _ _ => none) t)
        [.send 4 (.writeFile samplePath [7, 8]), .handle 4 [9, 8, 33] [],
          .receive 4 (oneByOne (List.replicate 9 0)) sampleMachine none]).map
            fun x => (t, x)).any (fun w =>
        conversed P 4 [samplePath] sampleWalk (start (fun _ _ => none) w.1) w.2.1 w.2.2) = true := by
    decide +kernel
  obtain ⟨w, hw, htest⟩ := (Option.any_eq_true _ _).mp hrun
  obtain ⟨t, ht, hw⟩ := Option.bind_eq_some_iff.mp hw
  obtain ⟨x, hx, rfl⟩ := Option.map_eq_some_iff.mp hw
  have hagrees : ∀ e ∈ sampleWalk, sampleLocal.Agrees e := by
    simp only [sampleWalk, List.forall_mem_cons]
    exact ⟨trivial, rfl, trivial, nofun⟩
  have hcreate := Exec.toOption_eq_some.mp ht
  have hstart : Runs P (fun _ _ => none) 1 ⟨10, 10, .fifo⟩ [] (start (fun _ _ => none) t) :=
    ⟨t, hcreate, .nil⟩
  have hreturns : (runAction sampleTree sampleUploads).Returns sampleWalk 0 :=
    .ask (.ask (.ask .done))
  have hconv := (Conversation.of_test (runs_from hx) htest hagrees).mono
    fun call hspares => hspares.1
  have hresult := directory_adds_nothing hstart nofun rfl
    (fun path _ => congrFun (stored_start hcreate) path) hconv hreturns
  exact ⟨_, _, _, hstart, hconv, hreturns, hresult.1 _ (List.mem_singleton.mpr rfl),
    by simp [sampleWalk]⟩

end

end FileStorage.Client.RunAction
