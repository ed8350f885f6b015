import FileStorage.Server.Sharing
import FileStorage.Server.Worker

/-!
# Linearizability — the table under threads is a map

Whatever calls the threads make and in whatever order they take their steps, every answer is given on
the map in one step of its call, and every evicted file leaves the map in one more.
-/

namespace FileStorage.Server

open Memory Program

namespace TableProgram

/-- What `worker_handle_read_file` reads before it releases the file. -/
def readFile (P : Platform) (key : CStr) : TableProgram (Option (List UInt8)) := do
  match ← htableFetchItem P key with
  | none => return none
  | some (a, _) => do
      let item ← readTable (·.items.load a)
      let contents ← readTable fun _ => fileContents item.file
      htableReleaseFile P key
      return some contents

/-- What a thread does for a call. -/
def serve (P : Platform) : TableCall → TableProgram TableReply
  | .op op _ => do
      let out ← exec P op
      return .outcome out
  | .read key => do
      let bytes ← readFile P key
      return .contents bytes

/-! ## 1. Steps -/

abbrev Serves (P : Platform) (n : Nat) (call : TableCall) {α : Type} (here : TableStanding)
    (x : TableProgram α) (post : α → TableStanding → Prop) : Prop :=
  x.Complies (sharing P n) (tableObject P) call here post

open TableStanding

variable {α β : Type} {P : Platform} {n : Nat} {call : TableCall} {op : Op}
  {hop : op.creates = false} {held : List Guard} {effects : List TableEffect} {key : CStr} {a : Addr}
  {f : File} {here next : TableStanding} {post : α → TableStanding → Prop}

theorem readTable_moves {g : HTable → Exec β} {k : β → TableProgram α}
    (hk : ∀ s b, (sharing P n).inv s → here.knows s → g s.table = .ok b → ∃ next,
      here.Moves (sharing P n) (tableObject P) call s next s ∧ Serves P n call next (k b) post) :
    Serves P n call here (readTable g >>= k) post := by
  refine .access fun s b s' hs hknows hx => ?_
  obtain ⟨b', hb, hx⟩ := Exec.bind_eq_ok.mp hx
  cases hx
  exact hk s b hs hknows hb

theorem readTable_serves {g : HTable → Exec β} {k : β → TableProgram α}
    (hstable : (sharing P n).Stable here.held here.own here.knows)
    (hk : ∀ s b, (sharing P n).inv s → here.knows s → g s.table = .ok b →
      Serves P n call here (k b) post) : Serves P n call here (readTable g >>= k) post :=
  readTable_moves fun s b hs hknows hb =>
    ⟨here, moves_same hs rfl rfl hknows hstable (Or.inl rfl), hk s b hs hknows hb⟩

theorem writeTable_serves {g : HTable → Exec HTable} {k : Unit → TableProgram α}
    (hk : ∀ s t', (sharing P n).inv s → here.knows s → g s.table = .ok t' → ∃ next,
      here.Moves (sharing P n) (tableObject P) call s next { s with table := t' } ∧
        Serves P n call next (k ()) post) : Serves P n call here (writeTable g >>= k) post := by
  refine .access fun s b s' hs hknows hx => ?_
  obtain ⟨s₁, hs₁, hx⟩ := Exec.bind_eq_ok.mp hx
  obtain ⟨t', ht', hs₁⟩ := Exec.bind_eq_ok.mp hs₁
  cases hs₁
  cases hx
  exact hk s t' hs hknows ht'

theorem accessTable_serves {g : HTable → Exec (β × HTable)} {k : β → TableProgram α}
    (hk : ∀ s b t', (sharing P n).inv s → here.knows s → g s.table = .ok (b, t') → ∃ next,
      here.Moves (sharing P n) (tableObject P) call s next { s with table := t' } ∧
        Serves P n call next (k b) post) : Serves P n call here (accessTable g >>= k) post := by
  refine .access fun s b s' hs hknows hx => ?_
  obtain ⟨⟨b', t'⟩, hb, hx⟩ := Exec.bind_eq_ok.mp hx
  cases hx
  exact hk s b t' hs hknows hb

theorem rand_serves {k : Nat → TableProgram α}
    (hk : ∀ r, Serves P n call (bare held effects) (k r) post) :
    Serves P n call (bare held effects) (rand >>= k) post := by
  refine .access fun s r s' hs _ hx => ?_
  obtain ⟨-, rfl⟩ := Prod.mk.inj (Except.ok.inj hx)
  have hmoves : (bare held effects).Moves (sharing P n) (tableObject P) call s (bare held effects)
      { s with rands := s.rands.tail } := moves_same hs (by rfl) (by rfl) trivial stable_bare (Or.inl rfl)
  exact ⟨bare held effects, hmoves, hk _⟩

/-- The counters are written. -/
theorem quiet_serves {g : HTable → HTable} {k : Unit → TableProgram α}
    (hbuckets : ∀ t, (g t).buckets = t.buckets) (hitems : ∀ t, (g t).items = t.items)
    (hk : Serves P n call (bare held effects) (k ()) post) :
    Serves P n call (bare held effects) (writeTable (fun t => .ok (g t)) >>= k) post := by
  refine writeTable_serves fun s t' hs _ hx => ?_
  cases hx
  exact ⟨bare held effects,
    moves_same hs (hbuckets _) (hitems _) trivial stable_bare (Or.inl rfl), hk⟩

theorem bucketPtr_serves {k : Nat → TableProgram α}
    (hstable : (sharing P n).Stable here.held here.own here.knows)
    (hk : Serves P n call here (k (P.xxh64 key % n)) post) :
    Serves P n call here (htableBucketPtr P key >>= k) post := by
  refine readTable_serves hstable fun s i hs _ hi => ?_
  cases hi
  rw [Server.htableBucketPtr, show s.table.buckets.length = n from hs.2]
  exact hk

/-- The key is looked for under the guard of its bucket, and the guard is kept if it is found. -/
theorem fetchItem_serves {missed : List TableEffect}
    (hmissed : missed = [] ∨ ∃ e, missed = [e] ∧
      ∀ m : FileMap, m key = none → EffectStep m (call, e) m) :
    Serves P n call (bare held effects) (htableFetchItem P key) fun node here =>
      node.elim (here = bare held (effects ++ missed)) fun p =>
        here = holding (home P n key :: held) effects key p.1 p.2.file := by
  apply bucketPtr_serves stable_bare
  apply Complies.lock
  refine readTable_moves fun s node hs _ hfetch => ?_
  rcases hs.1.fetchItem key with ⟨hnone, hok⟩ | ⟨a, item, hsome, -, -, hok⟩
  · obtain rfl := Except.ok.inj (hok.symm.trans hfetch)
    have hmap : tableMap P s.table key = none := by
      rw [tableMap_eq hs.1]
      exact fileAt_of_lookup_none hnone
    refine ⟨bare (home P n key :: held) (effects ++ missed), ?_, ?_⟩
    · refine moves_same hs rfl rfl trivial stable_bare ?_
      rcases hmissed with rfl | ⟨e, rfl, hstep⟩
      · exact Or.inl (List.append_nil _)
      · exact Or.inr ⟨e, rfl, hstep _ hmap⟩
    · exact Complies.unlock rfl _ (fun _ _ _ => trivial) stable_bare rfl
  · obtain rfl := Except.ok.inj (hok.symm.trans hfetch)
    refine ⟨holding (home P n key :: held) effects key a item.file, ?_, rfl⟩
    exact moves_same hs rfl rfl hsome (stable_holding List.mem_cons_self) (Or.inl rfl)

theorem unlock_serves {g : Guard} {k : Unit → TableProgram α} (hheld : here.held = g :: held)
    (hown : here.own = []) (hk : Serves P n call (bare held here.effects) (k ()) post) :
    Serves P n call here (mutexUnlock g >>= k) post := by
  refine .unlock hheld (fun _ => True) (fun _ _ _ => trivial) stable_bare ?_
  rw [hown]
  exact hk

/-- The file is released, and what was known of it is lost. -/
theorem release_serves {k : Unit → TableProgram α}
    (hstable : (sharing P n).Stable here.held here.own here.knows)
    (hheld : here.held = home P n key :: held) (hown : here.own = [])
    (hk : Serves P n call (bare held here.effects) (k ()) post) :
    Serves P n call here (htableReleaseFile P key >>= k) post := by
  show Serves P n call here
    (htableBucketPtr P key >>= fun bucket => mutexUnlock (.bucket bucket) >>= k) post
  exact bucketPtr_serves hstable (unlock_serves hheld hown hk)

theorem missing_refused (hop : op.creates = false) : op.verdict none = .refuse .fileNotFound := by
  cases op with
  | create => cases hop
  | «open» | close | lock | unlock | remove | replace | append => rfl

/-- An operation that misses its file has its answer. -/
theorem fetchItem_op : Serves P n (.op op hop) (bare held []) (htableFetchItem P op.key)
    fun node here => node.elim (here = bare held [.answered .fileNotFound (-1)]) fun p =>
      here = holding (home P n op.key :: held) [] op.key p.1 p.2.file := by
  refine fetchItem_serves (Or.inr ⟨_, rfl, fun m hm => .refuse ?_⟩)
  rw [hm]
  exact missing_refused hop

/-- Nothing is done to the file that was found. -/
theorem refuse_serves {code : HTableError} {k : Unit → TableProgram α}
    (hverdict : op.verdict (some f) = .refuse code)
    (hk : Serves P n (.op op hop) (bare held (effects ++ [.answered code (-1)])) (k ()) post) :
    Serves P n (.op op hop) (holding (home P n op.key :: held) effects op.key a f)
      (htableReleaseFile P op.key >>= k) post := by
  show Serves P n (.op op hop) _
    (htableBucketPtr P op.key >>= fun bucket => mutexUnlock (.bucket bucket) >>= k) post
  refine readTable_moves fun s i hs hknows hi => ?_
  cases hi
  refine ⟨bare (home P n op.key :: held) (effects ++ [.answered code (-1)]), ?_, ?_⟩
  · refine moves_same hs rfl rfl trivial stable_bare (Or.inr ⟨_, rfl, .refuse ?_⟩)
    rwa [tableMap_eq hs.1, fileAt_of_lookup hknows]
  · rw [Server.htableBucketPtr, show s.table.buckets.length = n from hs.2]
    exact unlock_serves rfl rfl hk

/-- The file that was found is written and released. -/
theorem put_serves {code : HTableError} {newOwner : Int} {f' : File} {k : Unit → TableProgram α}
    (hverdict : op.verdict (some f) = .put code newOwner f') (hsized : f.Sized → f'.Sized)
    (hk : Serves P n (.op op hop) (bare held (effects ++ [.answered code newOwner])) (k ()) post) :
    Serves P n (.op op hop) (holding (home P n op.key :: held) effects op.key a f)
      (writeTable (fun t => .ok (t.setFile a f')) >>= fun _ => htableReleaseFile P op.key >>= k)
      post := by
  refine writeTable_serves fun s t' hs hknows hx => ?_
  cases hx
  have hmem := mem_of_lookup hknows
  have hkey : f.key = op.key := key_of_lookup hknows
  have hf : tableMap P s.table op.key = some f := by
    rw [tableMap_eq hs.1]
    exact fileAt_of_lookup hknows
  refine ⟨bare (home P n op.key :: held) (effects ++ [.answered code newOwner]), ?_, ?_⟩
  · refine moves_setFile hs hmem ?_ rfl (Op.verdict_some_key hverdict)
      (hsized (hs.1.sized _ hmem)) ?_
    · rw [hkey]
      exact List.mem_cons_self
    · rw [hkey]
      exact .put (by rwa [hf])
  · exact release_serves stable_bare rfl rfl hk

/-! ## 2. Operations on one file -/

theorem lockFile_serves {fd : Int} (hop : (Op.lock key fd).creates = false) :
    Serves P n (.op (.lock key fd) hop) (bare [] []) (htableLockFile P key fd)
      fun code here => here = bare [] [.answered code (-1)] := by
  apply fetchItem_op.bind
  rintro (_ | ⟨a, item⟩) here rfl
  · exact rfl
  · apply Complies.ite
    · intro hlocked
      exact put_serves (by simp [Op.verdict, hlocked]) id rfl
    · intro hlocked
      apply Complies.ite
      · intro _
        exact .stop _
      · intro hsubs
        exact put_serves (by simp [Op.verdict, hlocked, hsubs]) id rfl

theorem unlockFile_serves {fd : Int} (hop : (Op.unlock key fd).creates = false) :
    Serves P n (.op (.unlock key fd) hop) (bare [] []) (htableUnlockFile P key fd)
      fun p here => here = bare [] [.answered p.1 p.2] := by
  apply fetchItem_op.bind
  rintro (_ | ⟨a, item⟩) here rfl
  · exact rfl
  · apply Complies.ite
    · intro hlocked
      exact refuse_serves (by simp [Op.verdict, hlocked]) rfl
    · intro hlocked
      apply Complies.ite
      · intro howner
        exact refuse_serves (by simp [Op.verdict, hlocked, howner]) rfl
      · intro howner
        cases hsubs : item.file.subs with
        | nil => exact put_serves (by simp [Op.verdict, hlocked, howner, hsubs]) id rfl
        | cons sub rest => exact put_serves (by simp [Op.verdict, hlocked, howner, hsubs]) id rfl

/-- A section on the counters. -/
theorem stats_serves {g : HTable → HTable} {k : Unit → TableProgram α}
    (hbuckets : ∀ t, (g t).buckets = t.buckets) (hitems : ∀ t, (g t).items = t.items)
    (hk : Serves P n call (bare [] effects) (k ()) post) :
    Serves P n call (bare [] effects) (htableStatsLock >>= fun _ =>
      writeTable (fun t => .ok (g t)) >>= fun _ => htableStatsUnlock >>= k) post := by
  apply Complies.lock
  exact quiet_serves hbuckets hitems (unlock_serves rfl rfl hk)

theorem openFile_serves {fd : Int} {lock : Bool} (hop : (Op.open key fd lock).creates = false) :
    Serves P n (.op (.open key fd lock) hop) (bare [] []) (htableOpenFile P key fd lock)
      fun code here => here = bare [] [.answered code (-1)] := by
  apply fetchItem_op.bind
  rintro (_ | ⟨a, item⟩) here rfl
  · exact rfl
  · apply Complies.ite
    · intro hopen
      exact refuse_serves (by simp [Op.verdict, hopen]) rfl
    · intro hopen
      apply Complies.ite
      · intro hlocked
        exact refuse_serves (by simp [Op.verdict, hopen, File.lockedAgainst, hlocked]) rfl
      · intro hlocked
        have hverdict : Op.verdict (.open key fd lock) (some item.file) =
            .put .ok (-1) { item.file with isOpen := true, isLocked := lock, fdOwner := fd } := by
          simp [Op.verdict, hopen, File.lockedAgainst, hlocked]
        exact put_serves hverdict id (stats_serves (fun _ => rfl) (fun _ => rfl) rfl)

theorem closeFile_serves {fd : Int} (hop : (Op.close key fd).creates = false) :
    Serves P n (.op (.close key fd) hop) (bare [] []) (htableCloseFile P key fd)
      fun code here => here = bare [] [.answered code (-1)] := by
  apply fetchItem_op.bind
  rintro (_ | ⟨a, item⟩) here rfl
  · exact rfl
  · apply Complies.ite
    · intro hopen
      exact refuse_serves (by simp [Op.verdict, hopen]) rfl
    · intro hopen
      apply Complies.ite
      · intro hlocked
        exact refuse_serves (by simp [Op.verdict, hopen, File.lockedAgainst, hlocked]) rfl
      · intro hlocked
        have hverdict : Op.verdict (.close key fd) (some item.file) =
            .put .ok (-1) { item.file with isOpen := false } := by
          simp [Op.verdict, hopen, File.lockedAgainst, hlocked]
        exact put_serves hverdict id (stats_serves (fun _ => rfl) (fun _ => rfl) rfl)

theorem readFile_serves : Serves P n (.read key) (bare [] []) (readFile P key)
    fun bytes here => here = bare [] [.contents bytes] := by
  have hmissed : ∀ m : FileMap, m key = none → EffectStep m (.read key, .contents none) m := by
    intro m hm
    have hread : EffectStep m (.read key, .contents ((m key).map File.bytes)) m := .read
    rwa [hm] at hread
  apply (fetchItem_serves (Or.inr ⟨_, rfl, hmissed⟩)).bind
  rintro (_ | ⟨a, item⟩) here rfl
  · exact rfl
  · apply readTable_serves (stable_holding List.mem_cons_self)
    intro s item' hs hknows hload
    obtain ⟨item'', hread, hfile⟩ := hs.1.read_of_mem (mem_of_lookup hknows)
    obtain rfl : item'' = item' := Option.some.inj (hread.symm.trans (Heap.load_eq_ok.mp hload))
    refine readTable_moves fun s contents hs hknows hcontents => ?_
    -- the guard was not released since
    have hf : tableMap P s.table key = some item.file := by
      rw [tableMap_eq hs.1]
      exact fileAt_of_lookup hknows
    have hbytes : contents = item.file.bytes := by
      obtain ⟨hlength, -⟩ : item.file.Sized := hs.1.sized _ (mem_of_lookup hknows)
      rw [show item''.file = item.file from hfile, fileContents, if_pos (Nat.le_of_eq hlength.symm),
        ← hlength, List.take_length] at hcontents
      exact (Except.ok.inj hcontents).symm
    refine ⟨bare [home P n key] [.contents (some contents)], ?_, ?_⟩
    · refine moves_same hs rfl rfl trivial stable_bare (Or.inr ⟨_, rfl, ?_⟩)
      have hread : EffectStep (tableMap P s.table) (.read key, .contents
        ((tableMap P s.table key).map File.bytes)) (tableMap P s.table) := .read
      rwa [hf, Option.map_some, ← hbytes] at hread
    · exact release_serves stable_bare rfl rfl rfl

/-! ## 3. Taking items out -/

/-- The item that was found is taken out of its bucket. -/
theorem unlink_serves {e : TableEffect} {k : Unit → TableProgram α}
    (hheld : home P n key ∈ held)
    (hstep : ∀ m : FileMap, m key = some f → f.key = key →
      EffectStep m (call, e) (Function.update m key none))
    (hk : Serves P n call (owning held (effects ++ [e]) a f) (k ()) post) :
    Serves P n call (holding held effects key a f)
      (writeTable (unlinkItem · (P.xxh64 key % n) a) >>= k) post := by
  refine writeTable_serves fun s t' hs hlook hx => ?_
  have hkey : f.key = key := key_of_lookup hlook
  have hmap : tableMap P s.table key = some f := by
    rw [tableMap_eq hs.1]
    exact fileAt_of_lookup hlook
  obtain ⟨l, hl⟩ := hs.1.home_bucket key
  have hmem : (a, f) ∈ l := by
    have hfind : lookup s.table.contents key = some (a, f) := hlook
    rw [hs.1.lookup_eq key hl] at hfind
    exact List.mem_of_find?_eq_some hfind
  rw [show s.table.contents.length = n from hs.1.length.trans hs.2] at hl
  obtain ⟨t₁, hunlink, hunlinked⟩ := hs.1.unlink hl hmem
  obtain rfl := Except.ok.inj (hunlink.symm.trans hx)
  refine ⟨_, moves_unlink hs (mem_of_lookup hlook) ?_ rfl hunlinked (unlinkItem_file hx) ?_, hk⟩
  · rwa [hkey]
  · rw [hkey]
    exact hstep _ hmap hkey

theorem free_serves {g : HTable → HTable} {k : Unit → TableProgram α}
    (hbuckets : ∀ t, (g t).buckets = t.buckets) (hitems : ∀ t, (g t).items = t.items.free a)
    (hk : Serves P n call (bare held effects) (k ()) post) :
    Serves P n call (owning held effects a f) (writeTable (fun t => .ok (g t)) >>= k) post := by
  refine writeTable_serves fun s t' hs hknows hx => ?_
  cases hx
  exact ⟨_, moves_free hs hknows (hbuckets _) (hitems _), hk⟩

theorem removeSection_serves {fd : Int} (hop : (Op.remove key fd).creates = false) :
    Serves P n (.op (.remove key fd) hop) (bare [] []) (removeSection P key fd)
      fun r here => here = bare [] [.answered (r.elim id fun _ => .ok) (-1)] := by
  apply fetchItem_op.bind
  rintro (_ | ⟨a, item⟩) here rfl
  · exact rfl
  · apply Complies.ite
    · intro hden
      refine refuse_serves ?_ rfl
      simp [Op.verdict, File.lockedAgainst, hden]
    · intro hallowed
      have hverdict : Op.verdict (.remove key fd) (some item.file) = .drop := by
        refine if_neg fun hden => hallowed ⟨hden.1.1, hden.1.2, hden.2⟩
      apply bucketPtr_serves (stable_holding List.mem_cons_self)
      refine unlink_serves List.mem_cons_self (fun m hm _ => .drop ?_) ?_
      · rw [show m (Op.remove key fd).key = some item.file from hm, hverdict]
      · refine free_serves (fun _ => rfl) (fun _ => rfl) ?_
        exact release_serves stable_bare rfl rfl rfl

theorem removeFile_serves {fd : Int} (hop : (Op.remove key fd).creates = false) :
    Serves P n (.op (.remove key fd) hop) (bare [] []) (htableRemoveFile P key fd)
      fun code here => here = bare [] [.answered code (-1)] := by
  apply (removeSection_serves hop).bind
  rintro (code | sizeInBytes) here rfl
  · exact rfl
  · exact stats_serves (fun _ => rfl) (fun _ => rfl) rfl

theorem evictSingleFifo_serves (hwrites : op.writes) :
    Serves P n (.op op hop) (bare [.stats] effects) (htableEvictSingleFileFifo P) fun p here =>
      ∀ a, p = some a → ∃ f, here = owning [.stats] (effects ++ [.evicted f]) a f := by
  refine accessTable_serves fun s key t' hs _ hx => ?_
  have hsame : t'.buckets = s.table.buckets ∧ t'.items = s.table.items := fifoEvict_same hx
  refine ⟨bare [.stats] effects,
    moves_same hs hsame.1 hsame.2 trivial stable_bare (Or.inl rfl), ?_⟩
  cases key with
  | none => exact nofun
  | some key =>
    apply bucketPtr_serves stable_bare
    apply (fetchItem_serves (Or.inl rfl)).bind
    rintro (_ | ⟨a, item⟩) here rfl
    · exact nofun
    · have hevict : ∀ m : FileMap, m key = some item.file → item.file.key = key →
          EffectStep m (.op op hop, .evicted item.file) (Function.update m key none) := by
        intro m hm hkey
        subst hkey
        exact .evict hwrites hm
      refine unlink_serves List.mem_cons_self hevict ?_
      refine .unlock rfl _ (fun _ _ h => h) (stable_owning _) ?_
      intro b hb
      cases hb
      exact ⟨_, rfl⟩

/-- The last item of the bucket that was drawn, if there is one. -/
theorem segmentedTurn_unlinked {t : HTable} {L : Contents} (h : Linked P t L) {r : Nat}
    {turn : Option (Addr × HTable)} (hx : segmentedTurn t r = .ok turn) :
    turn = none ∨ ∃ a f t', turn = some (a, t') ∧ (a, f) ∈ L.flatten ∧
      P.xxh64 f.key % t.buckets.length = r % t.buckets.length ∧ Linked.Unlinked P t L a f t' := by
  have hlt : r % t.buckets.length < L.length := h.length ▸ Nat.mod_lt r (h.length ▸ h.pos)
  have hloop := segmentedLoop_cons t r []
  rw [hx] at hloop
  obtain ⟨l, hl⟩ : ∃ l, L[r % t.buckets.length]? = some l := ⟨_, List.getElem?_eq_getElem hlt⟩
  rcases List.eq_nil_or_concat l with rfl | ⟨xs, ⟨a, f⟩, rfl⟩
  · rw [h.segmentedLoop_miss hl] at hloop
    cases turn with
    | none => exact Or.inl rfl
    | some turn => cases hloop
  · rw [List.concat_eq_append] at hl
    obtain ⟨t', hhit, hunlinked⟩ := h.segmentedLoop_hit hl []
    rw [hhit] at hloop
    cases turn with
    | none => cases hloop
    | some turn =>
      obtain ⟨rfl, rfl⟩ : a = turn.1 ∧ t' = turn.2 := by simpa using hloop
      have hmem : (turn.1, f) ∈ xs ++ [(turn.1, f)] := by simp
      refine Or.inr ⟨_, f, _, rfl, List.mem_flatten.mpr ⟨_, List.mem_of_getElem? hl, hmem⟩, ?_,
        hunlinked⟩
      rw [← h.home _ _ hl _ hmem, h.length]

theorem segmentedRound_serves (hwrites : op.writes) :
    Serves P n (.op op hop) (bare [.stats] effects) segmentedRound
      (Sum.elim (fun _ here => here = bare [.stats] effects) fun a here =>
        ∃ f, here = owning [.stats] (effects ++ [.evicted f]) a f) := by
  apply readTable_serves stable_bare
  intro _ itemsCount _ _ _
  apply Complies.ite
  · intro _
    apply rand_serves
    intro r
    apply readTable_serves stable_bare
    intro s i hs _ hi
    obtain rfl : s.table.buckets.length = n := hs.2
    cases hi
    apply Complies.lock
    refine accessTable_serves fun s' p t' hs' _ hx => ?_
    obtain ⟨turn, hturn, hx⟩ := Exec.bind_eq_ok.mp hx
    rcases segmentedTurn_unlinked hs'.1.toLinked hturn with
      rfl | ⟨a, f, t₁, rfl, hmem, hhome, hunlinked⟩
    · cases hx
      refine ⟨bare [.bucket (r % s.table.buckets.length), .stats] effects,
        moves_same hs' rfl rfl trivial stable_bare (Or.inl rfl), unlock_serves rfl rfl rfl⟩
    · cases hx
      have hf : tableMap P s'.table f.key = some f := by
        rw [tableMap_eq hs'.1]
        exact hs'.1.fileAt_mem hmem
      have hevict : EffectStep (tableMap P s'.table) (.op op hop, .evicted f)
          (Function.update (tableMap P s'.table) f.key none) := .evict hwrites hf
      refine ⟨_, moves_unlink hs' hmem ?_ rfl hunlinked (segmentedTurn_file hturn) hevict, ?_⟩
      · rw [show s'.table.buckets.length = s.table.buckets.length from hs'.2] at hhome
        rw [home, hhome]
        exact List.mem_cons_self
      · exact .unlock rfl _ (fun _ _ h => h) (stable_owning _) ⟨f, rfl⟩
  · intro _
    exact .stop _

theorem evictSingle_serves (hwrites : op.writes) :
    Serves P n (.op op hop) (bare [.stats] effects) (htableEvictSingleFile P) fun p here =>
      ∀ a, p = some a → ∃ f, here = owning [.stats] (effects ++ [.evicted f]) a f := by
  apply readTable_serves stable_bare
  intro _ policy _ _ _
  cases policy with
  | fifo => exact evictSingleFifo_serves hwrites
  | segmentedFifo =>
    have hsegmented : Serves P n (.op op hop) (bare [.stats] effects)
        htableEvictSingleFileSegmentedFifo fun a here =>
          ∃ f, here = owning [.stats] (effects ++ [.evicted f]) a f := by
      apply readTable_serves stable_bare
      intro _ itemsCount _ _ _
      apply Complies.ite
      · intro _
        exact .stop _
      · intro _
        refine .repeatLoop (fun _ here => here = bare [.stats] effects) rfl ?_
        rintro - here rfl
        exact segmentedRound_serves hwrites
    apply hsegmented.bind
    rintro a here ⟨f, rfl⟩ b hb
    cases hb
    exact ⟨f, rfl⟩

/-- The file is put into the array before its item is freed. -/
theorem evictRound_serves (hwrites : op.writes) {evicted : List File} :
    Serves P n (.op op hop) (bare [.stats] (effects ++ evicted.map .evicted)) (evictRound P evicted)
      fun evicted here => here = bare [.stats] (effects ++ evicted.map .evicted) := by
  apply Complies.ite
  · intro _
    exact .stop _
  · intro _
    apply (evictSingle_serves hwrites).bind
    intro p here hhere
    cases p with
    | none => exact .stop _
    | some a =>
      obtain ⟨f, rfl⟩ := hhere a rfl
      apply readTable_serves (stable_owning _)
      intro s item hs hknows hload
      have hread := Heap.load_eq_ok.mp hload
      obtain rfl : item.file = f := by
        have hfile := hknows.2
        rw [Heap.field_eq_of_read hread] at hfile
        exact Option.some.inj hfile
      apply Complies.ite
      · intro _
        exact .stop _
      · intro _
        refine free_serves (fun _ => rfl) (fun _ => rfl) ?_
        show bare _ _ = bare _ _
        rw [List.map_append, List.append_assoc]
        rfl

/-- Every round evicts one more file, however many other threads do. -/
theorem evictFiles_serves (hwrites : op.writes) :
    Serves P n (.op op hop) (bare [] effects) (htableEvictFiles P)
      fun evicted here => here = bare [] (effects ++ evicted.map .evicted) := by
  have hturn : ∀ evicted, Serves P n (.op op hop) (bare [.stats] (effects ++ evicted.map .evicted))
      (evictTurn P evicted)
      (Sum.elim (fun evicted here => here = bare [.stats] (effects ++ evicted.map .evicted))
        fun evicted here => here = bare [.stats] (effects ++ evicted.map .evicted)) := by
    intro evicted
    apply readTable_serves stable_bare
    intro _ exceeds _ _ _
    apply Complies.ite
    · intro _
      apply (evictRound_serves hwrites).bind
      intro evicted here hhere
      exact hhere
    · intro _
      exact rfl
  have hloop : Serves P n (.op op hop) (bare [.stats] effects) (repeatLoop (evictTurn P) [])
      fun evicted here => here = bare [.stats] (effects ++ evicted.map .evicted) := by
    refine .repeatLoop (fun evicted here => here = bare [.stats] (effects ++ evicted.map .evicted))
      ?_ ?_
    · rw [List.map_nil, List.append_nil]
    · rintro evicted here rfl
      exact hturn evicted
  apply Complies.lock
  apply hloop.bind
  rintro evicted here rfl
  exact unlock_serves rfl rfl rfl

/-! ## 4. Writing -/

theorem replaceFileContents_serves {contents : List UInt8}
    (hop : (Op.replace key contents).creates = false) :
    Serves P n (.op (.replace key contents) hop) (bare [] []) (htableReplaceFileContents P key contents)
      fun p here => here = bare [] (.answered p.1 (-1) :: p.2.map .evicted) ∧
        (p.1 ≠ .ok → p.2 = []) := by
  have hsection : Serves P n (.op (.replace key contents) hop) (bare [] [])
      (replaceSection P key contents) fun old here => here =
        bare [] [.answered (old.elim .fileNotFound fun _ => .ok) (-1)] := by
    apply fetchItem_op.bind
    rintro (_ | ⟨a, item⟩) here rfl
    · exact rfl
    · apply readTable_serves (stable_holding List.mem_cons_self)
      intro _ block _ _ hblock
      obtain ⟨⟨hsize, -⟩, rfl⟩ := xrealloc_eq_ok.mp hblock
      apply readTable_serves (stable_holding List.mem_cons_self)
      intro _ block _ _ hcopy
      rw [memcpy_zero (resize_length _ _)] at hcopy
      obtain rfl := Except.ok.inj hcopy
      exact put_serves rfl (fun _ => ⟨rfl, hsize⟩) rfl
  apply hsection.bind
  rintro (_ | oldSizeInBytes) here rfl
  · exact ⟨rfl, fun _ => rfl⟩
  · refine stats_serves (fun _ => rfl) (fun _ => rfl) ?_
    apply (evictFiles_serves rfl).bind
    rintro evicted here rfl
    exact ⟨rfl, fun h => absurd rfl h⟩

/-- A copy behind the old bytes that stays in the block: the new length did not wrap. -/
theorem appended_eq {contents block block' : List UInt8} (hsized : f.Sized)
    (hblock : xrealloc P f.contents (wadd f.lengthInBytes contents.length) = .ok block)
    (hcopy : memcpy block (wsub (wadd f.lengthInBytes contents.length) contents.length) contents =
      .ok block') :
    { f with contents := some block', lengthInBytes := wadd f.lengthInBytes contents.length } =
        f.withBytes (f.bytes ++ contents) ∧ (f.withBytes (f.bytes ++ contents)).Sized := by
  obtain ⟨hlength, hlt⟩ := hsized
  obtain ⟨-, rfl⟩ := xrealloc_eq_ok.mp hblock
  have hin := memcpy_inside hcopy
  rw [resize_length] at hin
  have hsum : f.lengthInBytes + contents.length < wordSize := add_lt_of_wsub_wadd hlt hin
  have hoffset : wsub (wadd f.lengthInBytes contents.length) contents.length = f.bytes.length := by
    rw [wadd_of_lt hsum, wsub_of_le (Nat.le_add_left _ _), hlength]
    omega
  have hgrown : resize f.bytes (wadd f.lengthInBytes contents.length) =
      f.bytes ++ List.replicate contents.length 0 := by
    rw [wadd_of_lt hsum, ← hlength, resize_of_ge (Nat.le_add_right _ _), Nat.add_sub_cancel_left]
  rw [hoffset, show resize (f.contents.getD []) _ = _ from hgrown,
    memcpy_append _ _ _ List.length_replicate] at hcopy
  obtain rfl := Except.ok.inj hcopy
  refine ⟨?_, rfl, ?_⟩
  · rw [wadd_of_lt hsum, File.withBytes, List.length_append, hlength]
  · rw [File.withBytes, List.length_append, hlength]
    exact hsum

theorem appendToFileContents_serves {contents : List UInt8}
    (hop : (Op.append key contents).creates = false) :
    Serves P n (.op (.append key contents) hop) (bare [] []) (htableAppendToFileContents P key contents)
      fun p here => here = bare [] (.answered p.1 (-1) :: p.2.map .evicted) ∧
        (p.1 ≠ .ok → p.2 = []) := by
  have hsection : Serves P n (.op (.append key contents) hop) (bare [] [])
      (appendSection P key contents) fun found here => here =
        bare [] [.answered (if found then .ok else .fileNotFound) (-1)] := by
    apply fetchItem_op.bind
    rintro (_ | ⟨a, item⟩) here rfl
    · exact rfl
    · apply readTable_serves (stable_holding List.mem_cons_self)
      intro s block hs hknows hblock
      have hsized : item.file.Sized := hs.1.sized _ (mem_of_lookup hknows)
      apply readTable_serves (stable_holding List.mem_cons_self)
      intro _ block' _ _ hcopy
      obtain ⟨hfile, hsized'⟩ := appended_eq hsized hblock hcopy
      refine put_serves ?_ (fun _ => ?_) rfl
      · rw [hfile]
        rfl
      · rwa [hfile]
  apply hsection.bind
  rintro found here rfl
  apply Complies.ite
  · intro hfound
    refine stats_serves (fun _ => rfl) (fun _ => rfl) ?_
    rw [if_pos hfound]
    apply (evictFiles_serves rfl).bind
    rintro evicted here rfl
    exact ⟨rfl, fun h => absurd rfl h⟩
  · intro hmissing
    rw [if_neg hmissing]
    exact ⟨rfl, fun _ => rfl⟩

/-! ## 5. Calls -/

/-- Every call is answered once, and only a write that was done evicts. -/
theorem exec_serves (op : Op) (hop : op.creates = false) :
    Serves P n (.op op hop) (bare [] []) (exec P op) fun out here =>
      here = bare [] (.answered out.code out.newOwner :: out.evicted.map .evicted) ∧
        (op.writes = false ∨ out.code ≠ .ok → out.evicted = []) := by
  cases op with
  | create => cases hop
  | «open» key fd lock =>
    apply (openFile_serves hop).bind
    rintro code here rfl
    exact ⟨rfl, fun _ => rfl⟩
  | close key fd =>
    apply (closeFile_serves hop).bind
    rintro code here rfl
    exact ⟨rfl, fun _ => rfl⟩
  | lock key fd =>
    apply (lockFile_serves hop).bind
    rintro code here rfl
    exact ⟨rfl, fun _ => rfl⟩
  | unlock key fd =>
    apply (unlockFile_serves hop).bind
    rintro ⟨code, newOwner⟩ here rfl
    exact ⟨rfl, fun _ => rfl⟩
  | remove key fd =>
    apply (removeFile_serves hop).bind
    rintro code here rfl
    exact ⟨rfl, fun _ => rfl⟩
  | replace key contents =>
    apply (replaceFileContents_serves hop).bind
    rintro ⟨code, evicted⟩ here ⟨rfl, hquiet⟩
    exact ⟨rfl, fun h => hquiet (h.resolve_left nofun)⟩
  | append key contents =>
    apply (appendToFileContents_serves hop).bind
    rintro ⟨code, evicted⟩ here ⟨rfl, hquiet⟩
    exact ⟨rfl, fun h => hquiet (h.resolve_left nofun)⟩

theorem serve_serves (call : TableCall) :
    Serves P n call (sharing P n).entering (serve P call) ((tableObject P).returns (sharing P n) call) := by
  cases call with
  | op op hop =>
    apply (exec_serves op hop).bind
    rintro out here ⟨rfl, hquiet⟩
    exact ⟨rfl, rfl, .op hquiet⟩
  | read key =>
    apply readFile_serves.bind
    rintro bytes here rfl
    exact ⟨rfl, rfl, .read⟩

end TableProgram

/-! ## 6. Threads -/

section

variable {ι : Type} [DecidableEq ι] {P : Platform} {seen : List (Service.Label ι TableCall TableReply)}
  {s : Service ι Guard SharedTable TableCall TableReply}

/-- On a table that sequential operations have filled, whatever calls the threads make and however
their steps interleave: in an order in which what a call does to the map lies between its start and
its return, every answer and every eviction is right for the map at that point. -/
theorem table_linearizable {buckets : Nat} {config : Config} {tr : List (HTable × Call)} {t : HTable}
    (filled : SequentialRun P buckets config tr t) {rands : Stream' Nat}
    (runs : Service.Runs (TableProgram.serve P) (Service.start ⟨t, rands⟩) seen s) :
    ∃ es, es.filterMap Callers.Event.label = seen ∧
      Callers.Linear (fun m (x : ι × TableCall × TableEffect) m' => EffectStep m x.2 m') Finished
        (tableMap P t) es (tableMap P s.shared.table) := by
  have hinv : (sharing P t.buckets.length).inv ⟨t, rands⟩ :=
    ⟨filled.stored_contents, show t.buckets.length = _ from rfl⟩
  exact Service.linear_of_runs TableProgram.serve_serves hinv runs

end

/-- The replies that were seen, in their order. -/
def repliesOf {ι : Type} (seen : List (Service.Label ι TableCall TableReply)) :
    List (ι × TableReply) :=
  seen.filterMap fun
    | .done i _ reply => some (i, reply)
    | .ask _ _ => none

/-- In a store for one file a thread writes `b`, and another one reads `a` before and after it is
evicted for that. -/
theorem table_linearizable_two :
    ∃ (tr : List (HTable × Call)) (t : HTable) (seen : List (Service.Label Nat TableCall TableReply))
      (s : Service Nat Guard SharedTable TableCall TableReply),
      SequentialRun samplePlatform 2 ⟨1, 10, .fifo⟩ tr t ∧
      Service.Runs (TableProgram.serve samplePlatform) (Service.start ⟨t, Stream'.const 0⟩) seen s ∧
      repliesOf seen = [(1, .contents (some [7])),
        (0, .outcome ⟨.ok, -1, [(newFile (bufToStr [97]) 3 false).withBytes [7]]⟩),
        (1, .contents none)] ∧
      ∃ es, es.filterMap Callers.Event.label = seen ∧
        Callers.Linear (fun m (x : Nat × TableCall × TableEffect) m' => EffectStep m x.2 m') Finished
          (tableMap samplePlatform t) es (tableMap samplePlatform s.shared.table) := by
  obtain ⟨tr, t, filled, htest⟩ := SequentialRun.of_run_test samplePlatform 2 ⟨1, 10, .fifo⟩
    [⟨.create (bufToStr [97]) 3 false, []⟩, ⟨.replace (bufToStr [97]) [7], []⟩,
      ⟨.create (bufToStr [98]) 4 false, []⟩]
    (fun _ t => ((Service.start ⟨t, Stream'.const 0⟩).play (TableProgram.serve samplePlatform)
      ([.ask 0 (.op (.replace (bufToStr [98]) [9]) rfl), .ask 1 (.read (bufToStr [97]))] ++
        List.replicate 12 (.go 0) ++ List.replicate 8 (.go 1) ++ List.replicate 16 (.go 0) ++
        .ask 1 (.read (bufToStr [97])) :: List.replicate 5 (.go 1))).any
      fun r => repliesOf r.1 = [(1, .contents (some [7])),
        (0, .outcome ⟨.ok, -1, [(newFile (bufToStr [97]) 3 false).withBytes [7]]⟩),
        (1, .contents none)]) (by decide +kernel)
  obtain ⟨seen, s, runs, hreplies⟩ := Service.runs_of_test _ _ _
    (fun seen _ => repliesOf seen = [(1, .contents (some [7])),
        (0, .outcome ⟨.ok, -1, [(newFile (bufToStr [97]) 3 false).withBytes [7]]⟩),
        (1, .contents none)]) htest
  exact ⟨tr, t, seen, s, filled, runs, of_decide_eq_true hreplies, table_linearizable filled runs⟩

end FileStorage.Server
