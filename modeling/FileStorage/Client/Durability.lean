import FileStorage.Client.Session

/-!
# Durability — what the clients may rely on

The store as its clients see it is a map from paths to contents.  From the calls and their replies
alone a client can tell contents that are still there, and a read never gives anything but what was
written last.
-/

namespace FileStorage.Client

open Server EndOfStream

/-! ## 1. Contents -/

abbrev ContentsMap := CStr → Option (List UInt8)

def contentsOf (m : FileMap) : ContentsMap := fun path => (m path).map File.bytes

def Creates (flags : Int32) : Prop := flags = oCreate ∨ flags = oCreate ||| oLock

instance (flags : Int32) : Decidable (Creates flags) := inferInstanceAs (Decidable (_ ∨ _))

/-- The map once a write has stored `contents` and then evicted these files. -/
def ContentsMap.written (c : ContentsMap) (path : CStr) (contents : List UInt8)
    (evicted : List Pair) : ContentsMap := fun key =>
  if key.bytes ∈ evicted.map Prod.fst then none
  else Function.update c path (some contents) key

/-- A call with its reply, on the contents. -/
inductive ContentsStep (c : ContentsMap) : Nat × ApiCall × EndOfStream.Reply → ContentsMap → Prop
  | read {fd : Nat} {path : CStr} : ContentsStep c (fd, .readFile path, .readFile (c path)) c
  | created {fd : Nat} {path : CStr} {flags : Int32} (hflags : Creates flags)
      (hnone : c path = none) :
      ContentsStep c (fd, .openFile path flags, .simple responseOk)
        (Function.update c path (some []))
  | written {fd : Nat} {path : CStr} {contents old : List UInt8} {evicted : List Pair}
      (hold : c path = some old)
      (hevicted : ∀ pair ∈ evicted, ∃ key, pair.1 = key.bytes ∧
        Function.update c path (some contents) key = some pair.2) :
      ContentsStep c (fd, .writeFile path contents, .writeFile (some evicted))
        (c.written path contents evicted)
  | absent {fd : Nat} {path : CStr} {contents : List UInt8} (hnone : c path = none) :
      ContentsStep c (fd, .writeFile path contents, .writeFile (some [])) c
  | removed {fd : Nat} {path : CStr} :
      ContentsStep c (fd, .removeFile path, .simple responseOk) (Function.update c path none)
  | quiet {fd : Nat} {call : ApiCall} {code : UInt8} (hread : ∀ path, call ≠ .readFile path)
      (hwrite : ∀ path contents, call ≠ .writeFile path contents)
      (hcreate : ∀ path flags, call = .openFile path flags → Creates flags → code ≠ responseOk) :
      ContentsStep c (fd, call, .simple code) c

/-! ## 2. The store as contents -/

variable {m m' : FileMap}

theorem cstr_ext {a b : CStr} (h : a.bytes = b.bytes) : a = b := by
  cases a
  cases b
  cases h
  rfl

theorem contentsOf_update (m : FileMap) (path : CStr) (file : Option File) :
    contentsOf (Function.update m path file) =
      Function.update (contentsOf m) path (file.map File.bytes) := by
  funext key
  by_cases hkey : key = path
  · subst hkey
    simp only [contentsOf, Function.update_self]
  · simp only [contentsOf, Function.update_of_ne hkey]

/-- A file that is touched keeps its contents. -/
theorem contentsOf_touch {path : CStr} {f f' : File} (hf : m path = some f)
    (hcontents : f'.contents = f.contents) :
    contentsOf (Function.update m path (some f')) = contentsOf m := by
  have hsame : contentsOf m path = some f'.bytes := by
    rw [contentsOf, hf, File.bytes, hcontents]
    rfl
  rw [contentsOf_update]
  exact (congrArg _ hsame.symm).trans (Function.update_eq_self _ _)

theorem contentsOf_written {path : CStr} {contents : List UInt8} {f : File} {evicted : List File}
    (hev : Evicts (Function.update m path (some (f.withBytes contents))) evicted m') :
    contentsOf m' = (contentsOf m).written path contents (evicted.map sentFile) := by
  funext key
  have hmem : key.bytes ∈ (evicted.map sentFile).map Prod.fst ↔ key ∈ evicted.map File.key := by
    rw [List.map_map]
    simp only [List.mem_map, Function.comp_apply, sentFile]
    exact exists_congr fun g => and_congr_right fun _ =>
      ⟨fun h => cstr_ext h, fun h => congrArg CStr.bytes h⟩
  rw [contentsOf, hev.apply, ContentsMap.written]
  by_cases hevicted : key ∈ evicted.map File.key
  · rw [if_pos hevicted, if_pos (hmem.mpr hevicted)]
    rfl
  · rw [if_neg hevicted, if_neg fun h => hevicted (hmem.mp h)]
    exact congrFun (contentsOf_update m path (some (f.withBytes contents))) key

/-- Every file is stored under its path and is as long as its length field says. -/
def Tidy (m : FileMap) : Prop :=
  ∀ key f, m key = some f → f.key = key ∧ f.bytes.length = f.lengthInBytes

theorem tidy_put (htidy : Tidy m) {fd : Nat} {call : ApiCall} {o : Op}
    (hop : call.asked.tableOp fd = some o) {code : HTableError} {newOwner : Int} {f : File}
    (h : o.verdict (m o.key) = .put code newOwner f) :
    f.key = o.key ∧ f.bytes.length = f.lengthInBytes := by
  cases hm : m o.key with
  | none =>
    rw [hm] at h
    cases o with
    | create key fd' withLock =>
      cases h
      exact ⟨rfl, rfl⟩
    | «open» | close | lock | unlock | remove | replace | append => cases h
  | some g =>
    obtain ⟨hkey, hlength⟩ := htidy _ _ hm
    rw [hm] at h
    refine ⟨(Op.verdict_some_key h).trans hkey, ?_⟩
    cases o with
    | create key fd' withLock => cases h
    | «open» | close | lock | unlock =>
      obtain ⟨hcontents, hsize⟩ := Op.verdict_put_contents rfl h
      rw [File.bytes, hcontents, hsize]
      exact hlength
    | remove key fd' =>
      simp only [Op.verdict] at h
      split at h <;> cases h
    | replace key contents =>
      cases h
      rfl
    | append key contents =>
      cases h
      rfl

theorem StoreStep.tidy {x : Nat × ApiCall × EndOfStream.Reply} (h : StoreStep m x m')
    (htidy : Tidy m) :
    Tidy m' := by
  cases h with
  | found | missing => exact htidy
  | op hop h =>
    intro key f hf
    rcases h.stored_before hf with hbefore | ⟨rfl, code, newOwner, hverdict⟩
    · exact htidy key f hbefore
    · exact tidy_put htidy hop hverdict

theorem touches_verdict {o : Op} (ho : o.touches) :
    o.writes = false ∧ o.verdict none = .refuse .fileNotFound ∧
      ∀ f, o.verdict (some f) ≠ .drop := by
  cases o with
  | create | remove | replace | append => cases ho
  | «open» | close | lock | unlock =>
    refine ⟨rfl, rfl, fun f => ?_⟩
    simp only [Op.verdict]
    grind

/-- An operation that touches one file in place leaves all contents. -/
theorem contentsOf_of_touches {o : Op} (ho : o.touches) {out : Outcome} (h : MapStep m o out m') :
    contentsOf m' = contentsOf m := by
  obtain ⟨hwrites, hnone, hdrop⟩ := touches_verdict ho
  cases h with
  | refuse h => rfl
  | put h hev hquiet =>
    obtain rfl := hquiet hwrites
    cases hev
    cases hm : m o.key with
    | none =>
      rw [hm, hnone] at h
      cases h
    | some g =>
      rw [hm] at h
      exact contentsOf_touch hm (Op.verdict_put_contents ho h).1
  | drop h =>
    cases hm : m o.key with
    | none =>
      rw [hm, hnone] at h
      cases h
    | some g => exact absurd (hm ▸ h) (hdrop g)

theorem contentsOf_none {path : CStr} (h : m path = none) : contentsOf m path = none := by
  rw [contentsOf, h]
  rfl

theorem contentsOf_some {path : CStr} {f : File} (h : m path = some f) :
    contentsOf m path = some f.bytes := by
  rw [contentsOf, h]
  rfl

section

variable {fd : Nat} {path : CStr} {out : Outcome}

/-- What an eviction sends is what was stored once the write was done. -/
theorem evicted_sent (htidy : Tidy m) {contents : List UInt8} {g f : File} {evicted : List File}
    (hev : Evicts (Function.update m path (some (g.withBytes contents))) evicted m')
    (hf : f ∈ evicted) :
    Function.update (contentsOf m) path (some contents) f.key = some (sentFile f).2 := by
  have hstored := hev.mem hf
  have hlength : f.bytes.length = f.lengthInBytes := by
    by_cases hkey : f.key = path
    · rw [hkey, Function.update_self] at hstored
      obtain rfl := Option.some.inj hstored
      rfl
    · rw [Function.update_of_ne hkey] at hstored
      exact (htidy _ _ hstored).2
  have hbytes := contentsOf_some hstored
  rw [contentsOf_update] at hbytes
  rw [sentFile, ← hlength, List.take_length]
  exact hbytes

theorem contents_writeFile (htidy : Tidy m) {contents : List UInt8}
    (h : MapStep m (.replace path contents) out m') :
    ContentsStep (contentsOf m) (fd, .writeFile path contents, opReply out (.replace path contents))
      (contentsOf m') := by
  cases hm : m path with
  | none =>
    cases h with
    | refuse h => exact .absent (contentsOf_none hm)
    | put h hev hquiet => simp only [Op.key, hm, Op.verdict] at h; cases h
    | drop h => simp only [Op.key, hm, Op.verdict] at h; cases h
  | some g =>
    cases h with
    | refuse h => simp only [Op.key, hm, Op.verdict] at h; cases h
    | drop h => simp only [Op.key, hm, Op.verdict] at h; cases h
    | put h hev hquiet =>
      simp only [Op.key, hm, Op.verdict] at h
      cases h
      rw [contentsOf_written hev]
      refine .written (contentsOf_some hm) fun pair hpair => ?_
      obtain ⟨f, hf, rfl⟩ := List.mem_map.mp hpair
      exact ⟨f.key, rfl, evicted_sent htidy hev hf⟩

theorem contents_removeFile (h : MapStep m (.remove path fd) out m') :
    ContentsStep (contentsOf m) (fd, .removeFile path, opReply out (.remove path fd))
      (contentsOf m') := by
  cases h with
  | refuse h => exact .quiet (fun _ h => by cases h) (fun _ _ h => by cases h) fun _ _ h => by cases h
  | put h hev hquiet =>
    cases hm : m path <;> simp only [Op.key, hm, Op.verdict] at h
    · cases h
    · split at h <;> cases h
  | drop h =>
    rw [contentsOf_update]
    exact .removed

theorem contents_createFile {flags : Int32} (hflags : Creates flags) {withLock : Bool}
    (h : MapStep m (.create path fd withLock) out m') :
    ContentsStep (contentsOf m) (fd, .openFile path flags, opReply out (.create path fd withLock))
      (contentsOf m') := by
  have hquiet := h.evicted_eq_nil rfl
  cases hm : m path with
  | none =>
    cases h with
    | refuse h => simp only [Op.key, hm, Op.verdict] at h; cases h
    | drop h => simp only [Op.key, hm, Op.verdict] at h; cases h
    | put h hev hwrites =>
      obtain rfl := hquiet
      cases hev
      simp only [Op.key, hm, Op.verdict] at h
      cases h
      rw [contentsOf_update]
      exact .created hflags (contentsOf_none hm)
  | some g =>
    cases h with
    | refuse h =>
      simp only [Op.key, hm, Op.verdict] at h
      cases h
      exact .quiet (fun _ h => by cases h) (fun _ _ h => by cases h) fun _ _ _ _ => by decide
    | drop h => simp only [Op.key, hm, Op.verdict] at h; cases h
    | put h hev hwrites => simp only [Op.key, hm, Op.verdict] at h; cases h

end

/-- What the store does with a call, seen on the contents. -/
theorem StoreStep.contents {x : Nat × ApiCall × EndOfStream.Reply} (h : StoreStep m x m')
    (htidy : Tidy m) :
    ContentsStep (contentsOf m) x (contentsOf m') := by
  cases h with
  | found hfound =>
    rw [← contentsOf_some hfound]
    exact .read
  | missing hmissing =>
    rw [← contentsOf_none hmissing]
    exact .read
  | op hop h =>
    rename_i fd call o out
    cases call with
    | readFile path | readNFiles n => cases hop
    | writeFile path contents =>
      cases hop
      exact contents_writeFile htidy h
    | removeFile path =>
      cases hop
      exact contents_removeFile h
    | openFile path flags =>
      simp only [ApiCall.asked, ParsedRequest.tableOp] at hop
      split at hop
      · rename_i hflags
        cases hop
        exact contents_createFile (of_decide_eq_true hflags) h
      · rename_i hflags
        cases hop
        rw [contentsOf_of_touches rfl h]
        refine .quiet (fun _ h => by cases h) (fun _ _ h => by cases h)
          fun path' flags' hcall hcreates => ?_
        cases hcall
        exact absurd (decide_eq_true hcreates) hflags
    | lockFile path | unlockFile path | closeFile path =>
      cases hop
      rw [contentsOf_of_touches rfl h]
      exact .quiet (fun _ h => by cases h) (fun _ _ h => by cases h) fun _ _ h => by cases h

/-! ## 3. What the calls tell -/

/-- A call that creates or writes says what is under its path. -/
def noteWritten (w : ContentsMap) : Nat × ApiCall × EndOfStream.Reply → ContentsMap
  | (_, .openFile path flags, .simple code) =>
      if Creates flags ∧ code = responseOk then Function.update w path (some []) else w
  | (_, .writeFile path contents, _) => Function.update w path (some contents)
  | _ => w

def lastWritten (ops : List (Nat × ApiCall × EndOfStream.Reply)) : ContentsMap :=
  ops.foldl noteWritten fun _ => none

/-- The call removes, overwrites or evicts the file under `path`. -/
inductive Undoes (m : FileMap) (path : CStr) : Nat × ApiCall × EndOfStream.Reply → Prop
  -- a file that another one has locked is not removed
  | removed {fd : Nat} {f : File} {reply : EndOfStream.Reply} (hf : m path = some f)
      (hfree : ¬f.lockedAgainst fd) : Undoes m path (fd, .removeFile path, reply)
  | overwritten {fd : Nat} {contents : List UInt8} {reply : EndOfStream.Reply} :
      Undoes m path (fd, .writeFile path contents, reply)
  | evicted {fd : Nat} {key : CStr} {contents : List UInt8} {evicted : List Pair}
      (hmem : path.bytes ∈ evicted.map Prod.fst) :
      Undoes m path (fd, .writeFile key contents, .writeFile (some evicted))

variable {c c' w : ContentsMap} {x : Nat × ApiCall × EndOfStream.Reply}

theorem update_mono (h : ∀ path bytes, c path = some bytes → w path = some bytes) (key : CStr)
    (value : Option (List UInt8)) : ∀ path bytes, Function.update c key value path = some bytes →
      Function.update w key value path = some bytes := by
  intro path bytes hpath
  by_cases hkey : path = key
  · subst hkey
    rwa [Function.update_self] at hpath ⊢
  · rw [Function.update_of_ne hkey] at hpath ⊢
    exact h path bytes hpath

/-- Under a free path nothing has to be forgotten. -/
theorem update_of_none {key : CStr} (hnone : c key = none) {path : CStr} {bytes : List UInt8}
    (hpath : c path = some bytes) (value : Option (List UInt8)) (w : ContentsMap) :
    Function.update w key value path = w path := by
  refine Function.update_of_ne (fun heq => ?_) _ _
  rw [heq, hnone] at hpath
  cases hpath

/-- What is stored was written last. -/
theorem written_of_step (h : ContentsStep c x c')
    (hw : ∀ path bytes, c path = some bytes → w path = some bytes) :
    ∀ path bytes, c' path = some bytes → noteWritten w x path = some bytes := by
  cases h with
  | read => exact hw
  | created hflags hnone =>
    simp only [noteWritten, hflags, and_self, if_true]
    exact update_mono hw _ _
  | written hold hevicted =>
    intro path bytes hpath
    rw [ContentsMap.written] at hpath
    split at hpath
    · cases hpath
    · exact update_mono hw _ _ path bytes hpath
  | absent hnone =>
    intro path bytes hpath
    exact (update_of_none hnone hpath _ w).trans (hw path bytes hpath)
  | removed =>
    rename_i fd key
    intro path bytes hpath
    by_cases hkey : path = key
    · rw [hkey, Function.update_self] at hpath
      cases hpath
    · rw [Function.update_of_ne hkey] at hpath
      exact hw path bytes hpath
  | quiet hread hwrite hcreate =>
    rename_i fd call code
    cases call with
    | openFile path flags =>
      have hnot : ¬(Creates flags ∧ code = responseOk) := fun h => hcreate path flags rfl h.1 h.2
      simp only [noteWritten, hnot, if_false]
      exact hw
    | writeFile path contents => exact absurd rfl (hwrite path contents)
    | readFile | readNFiles | lockFile | unlockFile | closeFile | removeFile => exact hw

/-- A removal that is refused changes nothing. -/
theorem StoreStep.refused {fd : Nat} {path : CStr} {reply : EndOfStream.Reply}
    (h : StoreStep m (fd, .removeFile path, reply) m') {f : File} (hf : m path = some f)
    (hlocked : f.lockedAgainst fd) : m' = m := by
  cases h with
  | op hop h =>
    cases hop
    cases h with
    | refuse h => rfl
    | put h hev hquiet => simp [Op.key, hf, Op.verdict, hlocked] at h
    | drop h => simp [Op.key, hf, Op.verdict, hlocked] at h

/-- A file is kept by every call that neither removes nor overwrites nor evicts it. -/
theorem StoreStep.keeps (h : StoreStep m x m') (htidy : Tidy m) {path : CStr} {bytes : List UInt8}
    (hbytes : contentsOf m path = some bytes) (hnot : ¬Undoes m path x) :
    contentsOf m' path = some bytes := by
  have hcontents := h.contents htidy
  generalize hc : contentsOf m = c at hcontents hbytes
  generalize hc' : contentsOf m' = c' at hcontents ⊢
  cases hcontents with
  | read | absent | quiet => exact hbytes
  | created hflags hnone =>
    rename_i fd key flags
    have hne : path ≠ key := by
      rintro rfl
      rw [hnone] at hbytes
      cases hbytes
    rwa [Function.update_of_ne hne]
  | written hold hevicted =>
    rename_i fd key contents old evicted
    have hne : path ≠ key := by
      rintro rfl
      exact hnot .overwritten
    rwa [ContentsMap.written, if_neg fun hmem => hnot (.evicted hmem), Function.update_of_ne hne]
  | removed =>
    rename_i fd key
    by_cases hne : path = key
    · subst hne
      -- the file was there, so the call was not refused
      refine absurd ?_ hnot
      obtain ⟨f, hf, -⟩ := Option.map_eq_some_iff.mp ((congrFun hc path).trans hbytes)
      refine .removed hf fun hlocked => ?_
      rw [h.refused hf hlocked, hc] at hc'
      rw [hc', Function.update_self] at hbytes
      cases hbytes
    · rwa [Function.update_of_ne hne]

variable {tr : List (ContentsMap × (Nat × ApiCall × EndOfStream.Reply))}

theorem written_of_run (run : Run ContentsStep (fun _ => none) tr c) :
    ∀ path bytes, c path = some bytes → lastWritten (tr.map Prod.snd) path = some bytes := by
  induction run with
  | nil => exact nofun
  | snoc run next ih =>
    rw [lastWritten, List.map_append, List.foldl_append]
    exact written_of_step next ih

/-! ## 4. Sessions -/

namespace Session

/-- The calls that the server handled, with their replies. -/
def handled (P : Platform) (tr : List (Session × Event)) :
    List (Nat × ApiCall × EndOfStream.Reply) :=
  Callers.effects (history P tr)

def Event.fd : Event → Nat
  | .send fd _ | .handle fd _ _ | .receive fd _ _ _ => fd

/-- The read that `fd` waits for at the end of `before` was handled behind `earlier`. -/
def ReadAfter (before earlier : List (Session × Event)) (fd : Nat) (path : CStr) : Prop :=
  ∃ s cuts rands raw since, before = earlier ++ (s, .handle fd cuts rands) :: since ∧
    (s.links fd).phase = .asked (.readFile path) raw ∧ ∀ x ∈ since, x.2.fd ≠ fd

variable {P : Platform} {files : Nat → Files} {buckets : Nat} {config : Config}
  {tr before after : List (Session × Event)} {s s₁ : Session} {fd : Nat} {chunks : Chunks}
  {m : EndOfStream.Machine} {dirname : Option CStr} {path : CStr}

/-- The event is a read of the file that succeeds and gives these bytes. -/
def readsBack (path : CStr) (bytes : List UInt8) : Session × Event → Bool
  | (s, .receive fd chunks m dirname) =>
      match (s.links fd).phase with
      | .answered (.readFile name) _ =>
          name == path &&
            ((ApiCall.readFile path).response m dirname (s.links fd).files chunks).toOption.any
              fun x => x.1.code == 0 && x.1.buf == bytes
      | _ => false
  | _ => false

theorem observed_caller {x : Session × Event}
    {e : Callers.Event Nat ApiCall EndOfStream.Reply EndOfStream.Reply}
    (h : observed P x = some e) : e.caller = x.2.fd := by
  obtain ⟨s, event⟩ := x
  cases event with
  | send fd call =>
    cases h
    rfl
  | handle fd cuts rands =>
    simp only [observed] at h
    split at h
    · obtain ⟨r, -, rfl⟩ := Option.map_eq_some_iff.mp h
      rfl
    · cases h
  | receive fd chunks m dirname =>
    simp only [observed] at h
    split at h
    · cases h
      rfl
    · cases h

/-- The contents of the store. -/
def stored (P : Platform) (s : Session) : ContentsMap := contentsOf (tableMap P s.table)

theorem tidy_of_inv (hinv : Inv P s) : Tidy (tableMap P s.table) := by
  obtain ⟨L, hs⟩ := hinv.stored
  intro key f hf
  rw [tableMap_eq hs] at hf
  obtain ⟨a, hmem, hkey⟩ := hs.fileAt_iff.mp hf
  exact ⟨hkey, (hs.sized _ hmem).1⟩

/-- A handler does its call on the map, and nothing else touches the map. -/
theorem store_step (hinv : Inv P s) {e : Event} (hcalm : Calm P s e) (hx : next P s e = some s₁) :
    (∃ fd call reply, observed P (s, e) = some (.effect fd call reply) ∧
        StoreStep (tableMap P s.table) (fd, call, reply) (tableMap P s₁.table)) ∨
      (∀ fd call reply, observed P (s, e) ≠ some (.effect fd call reply)) ∧
        tableMap P s₁.table = tableMap P s.table := by
  obtain ⟨-, event, hevent, hstep⟩ := step_callers hinv hcalm hx
  rw [hevent]
  rcases hstep.object_cases with ⟨fd, call, reply, rfl, hstore⟩ | ⟨hnone, hsame⟩
  · exact Or.inl ⟨fd, call, reply, rfl, hstore⟩
  · exact Or.inr ⟨fun fd call reply heq => hnone fd call reply (Option.some.inj heq), hsame⟩

/-- The effects of the calls are a run on contents. -/
theorem contents_run (hinv : Inv P s) (run : Run (fun s e s' => next P s e = some s') s tr s₁)
    (hcalm : ∀ x ∈ tr, Calm P x.1 x.2) :
    ∃ ops, Run ContentsStep (stored P s) ops (stored P s₁) ∧
      ops.map Prod.snd = handled P tr := by
  obtain ⟨atr, hrun, hhistory⟩ := callers_run hinv run hcalm
  obtain ⟨ops, hops, heffects⟩ := Callers.effects_run hrun
  have hcontents := hops.refines contentsOf (fun x => some x.2) Tidy (fun _ _ => True)
    (tidy_of_inv hinv) (fun _ _ _ htidy _ h => h.tidy htidy)
    (fun _ _ _ htidy _ h => h.contents htidy) (fun _ _ => trivial)
  refine ⟨_, hcontents, ?_⟩
  rw [handled, ← hhistory, ← heffects, List.map_filterMap]
  simp only [Option.map_some, List.filterMap_eq_map']

theorem stored_start {t : HTable} (hcreate : htableCreate buckets config = .ok t) :
    stored P (start files t) = fun _ => none := by
  funext key
  rw [stored, start, tableMap_create hcreate]
  rfl

/-- A read was handled on the store, and its reply is what was stored then. -/
theorem Runs.read_handled (run : Runs P files buckets config tr s)
    (hcalm : ∀ x ∈ tr, Calm P x.1 x.2)
    (htr : tr = before ++ (s₁, .receive fd chunks m dirname) :: after) {reply : EndOfStream.Reply}
    (hphase : (s₁.links fd).phase = .answered (.readFile path) (some reply)) :
    ∃ earlier s₂, ReadAfter before earlier fd path ∧ Runs P files buckets config earlier s₂ ∧
      (∀ x ∈ earlier, x ∈ tr) ∧ reply = .readFile (stored P s₂ path) := by
  have hdone : observed P (s₁, .receive fd chunks m dirname) =
      some (.done fd (.readFile path) reply) := by
    simp only [observed, hphase]
  have hhistory : history P tr =
      history P before ++ .done fd (.readFile path) reply :: history P after := by
    rw [htr, history, List.filterMap_append, List.filterMap_cons_some hdone]
    rfl
  obtain ⟨_, hpending, rfl⟩ := (run.linear hcalm).between _ _ _ _ _ hhistory
  obtain ⟨asking, waiting, since, hbefore, hquiet⟩ := hpending.split
  -- the event at which the call took effect
  obtain ⟨earlier, rest, rfl, -, hrest⟩ := List.filterMap_eq_append_iff.mp hbefore
  obtain ⟨skipped, x, later, rfl, -, hx, hlater⟩ := List.filterMap_eq_cons_iff.mp hrest
  have hsince : ∀ y ∈ later, y.2.fd ≠ fd := by
    intro y hy
    obtain ⟨-, -, e, he⟩ := run.event hcalm (show y ∈ tr by
      rw [htr]
      simp [hy])
    rw [← observed_caller he]
    refine hquiet e (List.mem_append_right _ ?_)
    rw [← hlater]
    exact List.mem_filterMap.mpr ⟨y, hy, he⟩
  have hmem : x ∈ tr := by
    rw [htr]
    simp
  obtain ⟨hinv, ⟨s₃, hnext⟩, -⟩ := run.event hcalm hmem
  obtain ⟨s₂, e⟩ := x
  refine ⟨earlier ++ skipped, s₂, ?_, ?_, fun y hy => ?_, ?_⟩
  · cases e with
    | send fd' call => cases hx
    | receive fd' chunks' m' dirname' =>
      simp only [observed] at hx
      split at hx <;> cases hx
    | handle fd' cuts rands =>
      simp only [observed] at hx
      split at hx
      · rename_i call raw hasked
        obtain ⟨r, hr, hx⟩ := Option.map_eq_some_iff.mp hx
        cases hx
        exact ⟨s₂, cuts, rands, raw, later, by rw [List.append_assoc], hasked, hsince⟩
      · cases hx
  · obtain ⟨t₀, hcreate, hrun⟩ := run
    have hsplit : tr = (earlier ++ skipped) ++ (s₂, e) ::
        (later ++ (s₁, .receive fd chunks m dirname) :: after) := by
      rw [htr]
      simp
    rw [hsplit] at hrun
    exact ⟨t₀, hcreate, hrun.split.1⟩
  · rw [htr]
    simp only [List.mem_append] at hy ⊢
    exact Or.inl (hy.imp id Or.inl)
  · rcases store_step hinv (hcalm _ hmem) hnext with ⟨fd', call, r, hr, hstore⟩ | ⟨hnone, -⟩
    · cases hx.symm.trans hr
      generalize tableMap P s₃.table = m₃ at hstore
      cases hstore with
      | found h => rw [stored, contentsOf_some h]
      | missing h => rw [stored, contentsOf_none h]
      | op hop => cases hop
    · exact absurd hx (hnone _ _ _)

/-- A read that succeeds gives the bytes that the last call handled before it put under the path. -/
theorem read_gives_last_write (run : Runs P files buckets config tr s)
    (hcalm : ∀ x ∈ tr, Calm P x.1 x.2)
    (htr : tr = before ++ (s₁, .receive fd chunks m dirname) :: after)
    {reply : Option EndOfStream.Reply}
    (hphase : (s₁.links fd).phase = .answered (.readFile path) reply) {r : Result} {rest : Chunks}
    (hresponse : (ApiCall.readFile path).response m dirname (s₁.links fd).files chunks =
      .ok (r, rest)) (hcode : r.code = 0) :
    ∃ earlier, ReadAfter before earlier fd path ∧
      lastWritten (handled P earlier) path = some r.buf := by
  have hmem : (s₁, .receive fd chunks m dirname) ∈ tr := by
    rw [htr]
    exact List.mem_append_right _ List.mem_cons_self
  obtain ⟨call, reply', rest', hphase', hresponse'⟩ := run.received hcalm hmem
  cases hphase.symm.trans hphase'
  cases hresponse.symm.trans hresponse'
  obtain ⟨earlier, s₂, hafter, ⟨t₀, hcreate, hrun⟩, hsub, rfl⟩ := run.read_handled hcalm htr hphase'
  refine ⟨earlier, hafter, ?_⟩
  obtain ⟨ops, hops, hhandled⟩ := contents_run (inv_start hcreate) hrun fun x hx => hcalm x (hsub x hx)
  rw [← hhandled]
  cases hc : stored P s₂ path with
  | none =>
    rw [hc] at hcode
    cases hcode
  | some bytes =>
    rw [stored_start hcreate] at hops
    exact written_of_run hops path bytes hc

def sampleName : CStr := bufToStr [97]

/-- A file is created, written and read by another client. -/
def writeAndRead : List Event :=
  [.send 4 (.openFile sampleName 3), .handle 4 [16, 1, 1] [],
    .receive 4 (oneByOne [0]) sampleMachine none,
    .send 4 (.writeFile sampleName [7, 8]), .handle 4 [9, 8, 30] [],
    .receive 4 (oneByOne (List.replicate 9 0)) sampleMachine none,
    .send 5 (.readFile sampleName), .handle 5 [16, 2] [],
    .receive 5 (oneByOne [0, 0, 0, 0, 0, 0, 0, 0, 2, 7, 8]) sampleMachine none]

theorem of_readsBack {bytes : List UInt8} (h : tr.any (readsBack path bytes) = true) :
    ∃ before s₁ fd chunks m dirname after reply r rest,
      tr = before ++ (s₁, .receive fd chunks m dirname) :: after ∧
        (s₁.links fd).phase = .answered (.readFile path) reply ∧
        (ApiCall.readFile path).response m dirname (s₁.links fd).files chunks = .ok (r, rest) ∧
        r.code = 0 ∧ r.buf = bytes := by
  obtain ⟨⟨s₁, e⟩, hmem, hx⟩ := List.any_eq_true.mp h
  obtain ⟨before, after, htr⟩ := List.append_of_mem hmem
  cases e with
  | send | handle => cases hx
  | receive fd chunks m dirname =>
    simp only [readsBack] at hx
    split at hx
    · rename_i name reply hphase
      rw [Bool.and_eq_true, beq_iff_eq] at hx
      obtain ⟨rfl, hx⟩ := hx
      obtain ⟨⟨r, rest⟩, hresponse, htest⟩ := (Option.any_eq_true _ _).mp hx
      rw [Bool.and_eq_true, beq_iff_eq, beq_iff_eq] at htest
      exact ⟨before, s₁, fd, chunks, m, dirname, after, reply, r, rest, htr, hphase,
        Exec.toOption_eq_some.mp hresponse, htest.1, htest.2⟩
    · cases hx

/-- 4 creates `a` and writes two bytes to it, and 5 reads them back. -/
theorem read_gives_last_write_two :
    ∃ tr s before after earlier fd, Runs samplePlatform (fun _ _ => none) 1 ⟨10, 10, .fifo⟩ tr s ∧
      tr = before ++ after ∧ ReadAfter before earlier fd sampleName ∧
        lastWritten (handled samplePlatform earlier) sampleName = some [7, 8] := by
  obtain ⟨tr, s, run, hcalm, htest⟩ := Runs.of_events samplePlatform (fun _ _ => none) 1
    ⟨10, 10, .fifo⟩ writeAndRead (fun tr _ => tr.any (readsBack sampleName [7, 8]))
    (by decide +kernel)
  obtain ⟨before, s₁, fd, chunks, m, dirname, after, reply, r, rest, htr, hphase, hresponse,
    hcode, hbuf⟩ := of_readsBack htest
  obtain ⟨earlier, hafter, hlast⟩ := read_gives_last_write run hcalm htr hphase hresponse hcode
  exact ⟨tr, s, before, _, earlier, fd, run, htr, hafter, hbuf ▸ hlast⟩

/-- The event handles a `writeFile` of these bytes to a file that is stored, which does not evict the
file itself. -/
def Stores (P : Platform) (path : CStr) (bytes : List UInt8) (x : Session × Event) : Prop :=
  tableMap P x.1.table path ≠ none ∧ ∃ fd evicted, path.bytes ∉ evicted.map Prod.fst ∧
    observed P x = some (.effect fd (.writeFile path bytes) (.writeFile (some evicted)))

/-- The event handles a call that removes, overwrites or evicts the file. -/
def UndoneBy (P : Platform) (path : CStr) (x : Session × Event) : Prop :=
  ∃ fd call reply, observed P x = some (.effect fd call reply) ∧
    Undoes (tableMap P x.1.table) path (fd, call, reply)

theorem stored_of_stores (hinv : Inv P s) {e : Event} (hcalm : Calm P s e)
    (hx : next P s e = some s₁) {bytes : List UInt8} (h : Stores P path bytes (s, e)) :
    stored P s₁ path = some bytes := by
  obtain ⟨hfile, fd, evicted, hkept, hevent⟩ := h
  rcases store_step hinv hcalm hx with ⟨fd', call, reply, hobserved, hstore⟩ | ⟨hnone, -⟩
  · cases hevent.symm.trans hobserved
    have hcontents := hstore.contents (tidy_of_inv hinv)
    obtain ⟨f, hf⟩ := Option.ne_none_iff_exists'.mp hfile
    have hold := contentsOf_some hf
    rw [stored]
    generalize contentsOf (tableMap P s.table) = c at hcontents hold
    generalize contentsOf (tableMap P s₁.table) = c' at hcontents ⊢
    cases hcontents with
    | written _ hevicted => rw [ContentsMap.written, if_neg hkept, Function.update_self]
    | absent hnone =>
      rw [hnone] at hold
      cases hold
  · exact absurd hevent (hnone _ _ _)

/-- What is stored under a path stays there until an event undoes it. -/
theorem stored_of_run (hinv : Inv P s) (run : Run (fun s e s' => next P s e = some s') s tr s₁)
    (hcalm : ∀ x ∈ tr, Calm P x.1 x.2) {bytes : List UInt8} (hbytes : stored P s path = some bytes)
    (hkept : ∀ x ∈ tr, ¬UndoneBy P path x) : stored P s₁ path = some bytes := by
  have hboth := run.invariant (fun s => Inv P s ∧ stored P s path = some bytes)
    (fun s e => Calm P s e ∧ ¬UndoneBy P path (s, e)) ⟨hinv, hbytes⟩ ?_
    fun x hx => ⟨hcalm x hx, hkept x hx⟩
  · exact hboth.2
  · intro s e s' h hok hx
    refine ⟨(step_callers h.1 hok.1 hx).1, ?_⟩
    rcases store_step h.1 hok.1 hx with ⟨fd, call, reply, hobserved, hstore⟩ | ⟨-, hsame⟩
    · exact hstore.keeps (tidy_of_inv h.1) h.2 fun hundoes =>
        hok.2 ⟨fd, call, reply, hobserved, hundoes⟩
    · rw [stored, hsame]
      exact h.2

/-- A read of a file that was written, and that no call handled since removes, overwrites or evicts,
gives exactly what was written, to every client. -/
theorem read_gives_kept (run : Runs P files buckets config tr s) (hcalm : ∀ x ∈ tr, Calm P x.1 x.2)
    (htr : tr = before ++ (s₁, .receive fd chunks m dirname) :: after)
    {reply : Option EndOfStream.Reply}
    (hphase : (s₁.links fd).phase = .answered (.readFile path) reply) {r : Result} {rest : Chunks}
    (hresponse : (ApiCall.readFile path).response m dirname (s₁.links fd).files chunks =
      .ok (r, rest)) :
    ∃ earlier, ReadAfter before earlier fd path ∧ ∀ front x since bytes,
      earlier = front ++ x :: since → Stores P path bytes x → (∀ y ∈ since, ¬UndoneBy P path y) →
        r.buf = bytes ∧ (r.code = 0 ↔ FitsInt bytes.length) := by
  have hmem : (s₁, .receive fd chunks m dirname) ∈ tr := by
    rw [htr]
    exact List.mem_append_right _ List.mem_cons_self
  obtain ⟨call, reply', rest', hphase', hresponse'⟩ := run.received hcalm hmem
  cases hphase.symm.trans hphase'
  cases hresponse.symm.trans hresponse'
  obtain ⟨earlier, s₂, hafter, ⟨t₀, hcreate, hrun⟩, hsub, rfl⟩ := run.read_handled hcalm htr hphase'
  refine ⟨earlier, hafter, ?_⟩
  rintro front x since bytes rfl hstores hkept
  have hcalm' : ∀ y ∈ front ++ x :: since, Calm P y.1 y.2 := fun y hy => hcalm y (hsub y hy)
  obtain ⟨hinv, -, -⟩ := run.event hcalm (hsub x (by simp))
  obtain ⟨s₃, -, hrun⟩ := Run.append_iff.mp hrun
  obtain ⟨rfl, s₄, hnext, hrun⟩ := Run.cons_iff.mp hrun
  have hinv' := (step_callers hinv (hcalm' x (by simp)) hnext).1
  have hbytes := stored_of_run hinv' hrun (fun y hy => hcalm' y (by simp [hy]))
    (stored_of_stores hinv (hcalm' x (by simp)) hnext hstores) hkept
  rw [hbytes]
  by_cases hfits : FitsInt bytes.length
  · rw [EndOfStream.Reply.result, if_pos hfits]
    exact ⟨rfl, iff_of_true rfl hfits⟩
  · rw [EndOfStream.Reply.result, if_neg hfits]
    exact ⟨rfl, iff_of_false (show ¬(-1 : Int32) = 0 by decide) hfits⟩

/-- `Stores` as a test. -/
def stores (P : Platform) (path : CStr) (bytes : List UInt8) (x : Session × Event) : Bool :=
  (tableMap P x.1.table path).isSome &&
    match observed P x with
    | some (.effect _ (.writeFile name contents) (.writeFile (some evicted))) =>
        name == path && contents == bytes && decide (path.bytes ∉ evicted.map Prod.fst)
    | _ => false

theorem stores_of_test {bytes : List UInt8} {x : Session × Event}
    (h : stores P path bytes x = true) : Stores P path bytes x := by
  rw [stores, Bool.and_eq_true, Option.isSome_iff_ne_none] at h
  refine ⟨h.1, ?_⟩
  have hevent := h.2
  split at hevent
  · rename_i fd name contents evicted hobserved
    simp only [Bool.and_eq_true, beq_iff_eq, decide_eq_true_eq] at hevent
    obtain ⟨⟨rfl, rfl⟩, hkept⟩ := hevent
    exact ⟨fd, evicted, hkept, hobserved⟩
  · cases hevent

/-- The event handles a `removeFile` or a `writeFile`. -/
def mayUndo (P : Platform) (x : Session × Event) : Bool :=
  match observed P x with
  | some (.effect _ (.removeFile _) _) | some (.effect _ (.writeFile _ _) _) => true
  | _ => false

theorem not_undoneBy_of_test {x : Session × Event} (h : mayUndo P x = false) :
    ¬UndoneBy P path x := by
  rintro ⟨fd, call, reply, hobserved, hundoes⟩
  rw [mayUndo, hobserved] at h
  cases hundoes <;> cases h

/-- The event handles a `readFile`. -/
def handlesRead : Session × Event → Bool
  | (s, .handle fd _ _) =>
      match (s.links fd).phase with
      | .asked (.readFile _) _ => true
      | _ => false
  | _ => false

theorem ReadAfter.le_length {earlier : List (Session × Event)} (h : ReadAfter before earlier fd path)
    {n : Nat} (hnone : ∀ x ∈ before.take n, handlesRead x = false) : n ≤ earlier.length := by
  obtain ⟨s, cuts, rands, raw, since, rfl, hphase, -⟩ := h
  refine Nat.le_of_not_lt fun hlt => ?_
  have hread : handlesRead (s, .handle fd cuts rands) = true := by simp only [handlesRead, hphase]
  have hmem : (s, .handle fd cuts rands) ∈
      (earlier ++ (s, Event.handle fd cuts rands) :: since).take n := by
    rw [List.take_append, List.take_of_length_le (Nat.le_of_lt hlt)]
    refine List.mem_append_right _ (List.mem_take_iff_getElem.mpr ⟨0, ?_, rfl⟩)
    simp only [List.length_cons]
    omega
  rw [hnone _ hmem] at hread
  cases hread

/-- What 4 wrote is what 5 gets. -/
theorem read_gives_kept_two :
    ∃ tr s before after earlier front x since fd,
      Runs samplePlatform (fun _ _ => none) 1 ⟨10, 10, .fifo⟩ tr s ∧ tr = before ++ after ∧
        ReadAfter before earlier fd sampleName ∧ earlier = front ++ x :: since ∧
          Stores samplePlatform sampleName [7, 8] x ∧
          (∀ y ∈ since, ¬UndoneBy samplePlatform sampleName y) ∧
            ∃ s₁ chunks m dirname r rest, (s₁, .receive fd chunks m dirname) ∈ after ∧
              (ApiCall.readFile sampleName).response m dirname (s₁.links fd).files chunks =
                .ok (r, rest) ∧ r.buf = [7, 8] := by
  obtain ⟨tr, s, run, hcalm, htest⟩ := Runs.of_events samplePlatform (fun _ _ => none) 1
    ⟨10, 10, .fifo⟩ writeAndRead (fun tr _ => tr.any (readsBack sampleName [7, 8]) &&
      tr[4]?.any (stores samplePlatform sampleName [7, 8]) &&
        (tr.drop 5).all (fun x => !mayUndo samplePlatform x) &&
          (tr.take 7).all fun x => !handlesRead x) (by decide +kernel)
  simp only [Bool.and_eq_true, List.all_eq_true, Bool.not_eq_true'] at htest
  obtain ⟨⟨⟨hreads, hstores⟩, hundone⟩, hnone⟩ := htest
  obtain ⟨x, hx, hstores⟩ := (Option.any_eq_true _ _).mp hstores
  obtain ⟨before, s₁, fd, chunks, m, dirname, after, reply, r, rest, htr, hphase, hresponse, -, -⟩ :=
    of_readsBack hreads
  obtain ⟨earlier, hafter, hkept⟩ := read_gives_kept run hcalm htr hphase hresponse
  have hlong : 7 ≤ earlier.length := hafter.le_length fun y hy => hnone y (by
    rw [htr]
    exact (List.prefix_append _ _).take 7 |>.subset hy)
  have hbegins : earlier <+: tr := by
    obtain ⟨s₂, cuts, rands, raw, since, rfl, -⟩ := hafter
    rw [htr, List.append_assoc]
    exact List.prefix_append _ _
  have hfour : earlier[4]? = some x := by
    obtain ⟨more, hmore⟩ := hbegins
    rw [← hx, ← hmore, List.getElem?_append_left (by omega)]
  obtain ⟨hlt, rfl⟩ := List.getElem?_eq_some_iff.mp hfour
  have hsplit : earlier = earlier.take 4 ++ earlier[4] :: earlier.drop 5 := by simp
  have hquiet : ∀ y ∈ earlier.drop 5, ¬UndoneBy samplePlatform sampleName y := fun y hy =>
    not_undoneBy_of_test (hundone y ((hbegins.drop 5).subset hy))
  exact ⟨tr, s, before, _, earlier, _, _, _, fd, run, htr, hafter, hsplit, stores_of_test hstores,
    hquiet, s₁, chunks, m, dirname, r, rest, List.mem_cons_self, hresponse,
    (hkept _ _ _ _ hsplit (stores_of_test hstores) hquiet).1⟩

end Session

end FileStorage.Client
