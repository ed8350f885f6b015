import FileStorage.Arrivals
import FileStorage.Server.Steps

/-!
# Waiters — in which order the waiters of a file get its lock

`htable_lock_file` puts a waiter at the head of the list, and `htable_unlock_file` takes the next
owner from there.
-/

namespace FileStorage.Server

inductive LockCall where
  | lock (fd : Int)
  | unlock (fd : Int)
deriving DecidableEq

def LockCall.op (key : CStr) : LockCall → Op
  | .lock fd => .lock key fd
  | .unlock fd => .unlock key fd

/-- The table, and what became of the requests for the lock of one file. -/
structure LockHistory where
  table : HTable
  requests : List Int  -- the descriptors that had to wait, in the order of their requests
  arrivals : Arrivals  -- a ghost: the requests, by their places in `requests`

namespace LockHistory

/-- Those who wait already came in the order that the list has from its end. -/
def start (table : HTable) (f : File) : LockHistory where
  table
  requests := f.subs.reverse
  arrivals := .start f.subs.length

/-- The history after a call that was answered with `code`. -/
def record (s : LockHistory) (code : HTableError) (table : HTable) : LockCall → LockHistory
  | .lock fd =>
      if code = .okWait then ⟨table, s.requests ++ [fd], s.arrivals.arrive⟩ else { s with table }
  | .unlock _ =>
      if code = .ok then { s with table, arrivals := s.arrivals.serve } else { s with table }

def next (P : Platform) (key : CStr) (s : LockHistory) (call : LockCall) : Option LockHistory := do
  let (out, table) ← ((call.op key).exec P s.table []).toOption
  some (s.record out.code table call)

/-- The list of the file is that of the requests that wait. -/
def Matches (s : LockHistory) (f : File) : Prop :=
  s.arrivals.waiting.map (s.requests[·]?) = f.subs.map some

/-- Whoever has the lock gives it back. -/
def OwnerUnlocks (P : Platform) (key : CStr) (s : LockHistory) (call : LockCall) : Prop :=
  ∃ f, htableFetchFile P s.table key = .ok (some f) ∧ f.isLocked ∧ call = .unlock f.fdOwner

/-- Request `i` is granted the lock: its descriptor is stored in `*new_owner_of_lock`, and the file
is locked by it afterwards. -/
def Grants (P : Platform) (key : CStr) (s : LockHistory) (call : LockCall) (s' : LockHistory)
    (i : Nat) : Prop :=
  ∃ out g, (call.op key).exec P s.table [] = .ok (out, s'.table) ∧
    s.requests[i]? = some out.newOwner ∧ htableFetchFile P s'.table key = .ok (some g) ∧
      g.isLocked ∧ g.fdOwner = out.newOwner

/-- To whom a call gives the lock. -/
structure HandsOver (P : Platform) (key : CStr) (s : LockHistory) (call : LockCall)
    (s' : LockHistory) : Prop where
  latest : s.OwnerUnlocks P key call → ∀ i ∈ s.arrivals.waiting.head?,
    s.Grants P key call s' i ∧ s'.arrivals.served = s.arrivals.served ++ [i]
  -- without an unlock or a waiter, whoever has the lock keeps it or gives it back
  otherwise : ¬(s.OwnerUnlocks P key call ∧ s.arrivals.waiting ≠ []) →
    s'.arrivals.served = s.arrivals.served ∧
      ∀ f g, htableFetchFile P s.table key = .ok (some f) →
        htableFetchFile P s'.table key = .ok (some g) → f.isLocked → g.isLocked →
          g.fdOwner = f.fdOwner

/-- Newcomers one after the other: each of them asks for the lock, and then its owner unlocks. -/
def newcomers (owner : Int) : List Int → List LockCall
  | [] => []
  | fd :: fds => .lock fd :: .unlock owner :: newcomers fd fds

/-- The condition on a call: whoever passes the lock on finds one waiter at most. -/
def FewWait (P : Platform) (key : CStr) (s : LockHistory) (call : LockCall) : Prop :=
  ∀ f, htableFetchFile P s.table key = .ok (some f) → ∀ fd, call = .unlock fd → f.isLocked →
    f.fdOwner = fd → f.subs.length ≤ 1

/-! ## 1. One call -/

structure Inv (P : Platform) (key : CStr) (s : LockHistory) (L : Contents) (f : File) : Prop where
  stored : Stored P s.table L
  file : fileAt L key = some f
  behind : s.Matches f
  count : s.arrivals.count = s.requests.length
  wf : s.arrivals.Wf

variable {P : Platform} {key : CStr} {s s' : LockHistory} {L : Contents} {f : File}

theorem matches_start (table : HTable) (f : File) : (start table f).Matches f := by
  show ((List.range f.subs.length).reverse).map (f.subs.reverse[·]?) = f.subs.map some
  rw [List.map_reverse, List.reverse_eq_iff, ← List.map_reverse, ← List.length_reverse]
  refine List.ext_getElem (by simp) fun i hi _ => ?_
  simp only [List.getElem_map, List.getElem_range]
  exact List.getElem?_eq_getElem (by simpa using hi)

theorem Inv.length_waiting (h : s.Inv P key L f) : s.arrivals.waiting.length = f.subs.length := by
  have hlength := congrArg List.length h.behind
  simpa using hlength

theorem Inv.lt_of_waiting (h : s.Inv P key L f) {i : Nat} (hi : i ∈ s.arrivals.waiting) :
    i < s.requests.length := h.count ▸ h.wf.mem_iff.mp (Or.inl hi)

theorem Inv.matches_lock (h : s.Inv P key L f) (fd : Int) (table : HTable) :
    (⟨table, s.requests ++ [fd], s.arrivals.arrive⟩ : LockHistory).Matches
      { f with subs := fd :: f.subs } := by
  show (s.arrivals.count :: s.arrivals.waiting).map ((s.requests ++ [fd])[·]?) =
    some fd :: f.subs.map some
  rw [List.map_cons, h.count, List.getElem?_concat_length, ← h.behind]
  congr 1
  exact List.map_congr_left fun i hi => List.getElem?_append_left (h.lt_of_waiting hi)

theorem Inv.matches_unlock (h : s.Inv P key L f) (table : HTable) {g : File}
    (hg : g.subs = f.subs.tail) :
    ({ s with table, arrivals := s.arrivals.serve } : LockHistory).Matches g := by
  show s.arrivals.waiting.tail.map (s.requests[·]?) = g.subs.map some
  rw [hg, List.map_tail, h.behind, List.map_tail]

/-- One call keeps the invariant, and keeps the order exactly when it is fine. -/
theorem Inv.next (h : s.Inv P key L f) {call : LockCall} (hx : s.next P key call = some s') :
    (∃ L' f', s'.Inv P key L' f') ∧ (ServedInOrder s.arrivals.served →
      (ServedInOrder s'.arrivals.served ↔ s.FewWait P key call)) := by
  obtain ⟨⟨out, t'⟩, hexec, hx⟩ := Option.bind_eq_some_iff.mp hx
  obtain ⟨L', heffect⟩ := effect_of_exec h.stored (Exec.toOption_eq_some.mp hexec)
  have hstep := heffect.mapStep h.stored
  have hstored := heffect.stored h.stored
  have hfetch : htableFetchFile P s.table key = .ok (some f) := by rw [h.stored.fetchFile, h.file]
  obtain rfl := Option.some.inj hx
  cases call with
  | lock fd =>
    have hfine : s.FewWait P key (.lock fd) := fun g _ fd' hcall => by cases hcall
    rcases hstep.lock_cases h.file with ⟨-, hcode, hfile⟩ | ⟨-, -, hcode, hfile⟩
    · simp only [record, hcode, if_true]
      refine ⟨⟨L', _, hstored, hfile, h.matches_lock fd t', ?_, h.wf.arrive⟩, fun hin => ?_⟩
      · show s.arrivals.count + 1 = (s.requests ++ [fd]).length
        rw [List.length_append, h.count]
        rfl
      · exact iff_of_true hin hfine
    · simp only [record, hcode]
      exact ⟨⟨L', _, hstored, hfile, h.behind, h.count, h.wf⟩, fun hin => iff_of_true hin hfine⟩
  | unlock fd =>
    rcases hstep.unlock_cases h.file with ⟨hnot, hcode, hfile⟩ | ⟨hown, hcode, hcases⟩
    · simp only [record, if_neg hcode]
      refine ⟨⟨L', _, hstored, hfile, h.behind, h.count, h.wf⟩, fun hin => iff_of_true hin ?_⟩
      intro g hg fd' hcall hlocked howner
      cases hcall
      cases hfetch.symm.trans hg
      exact absurd ⟨hlocked, howner⟩ hnot
    · have hinv : ∃ L' f', ({ s with table := t', arrivals := s.arrivals.serve } :
          LockHistory).Inv P key L' f' := by
        rcases hcases with ⟨hsubs, hfile⟩ | ⟨sub, rest, hsubs, -, hfile⟩
        · refine ⟨L', _, hstored, hfile, h.matches_unlock t' ?_, h.count, h.wf.serve⟩
          rw [hsubs]
          rfl
        · refine ⟨L', _, hstored, hfile, h.matches_unlock t' ?_, h.count, h.wf.serve⟩
          rw [hsubs]
          rfl
      simp only [record, hcode, if_true]
      refine ⟨hinv, fun hin => ?_⟩
      rw [h.wf.serve_inOrder_iff hin, h.length_waiting]
      constructor
      · intro hfew g hg fd' hcall hlocked howner
        cases hfetch.symm.trans hg
        exact hfew
      · exact fun hfew => hfew f hfetch fd rfl hown.1 hown.2

theorem Inv.fetchFile (h : s.Inv P key L f) : htableFetchFile P s.table key = .ok (some f) := by
  rw [h.stored.fetchFile, h.file]

theorem Inv.ownerUnlocks_iff (h : s.Inv P key L f) {call : LockCall} :
    s.OwnerUnlocks P key call ↔ f.isLocked ∧ call = .unlock f.fdOwner := by
  constructor
  · rintro ⟨g, hg, howns⟩
    cases h.fetchFile.symm.trans hg
    exact howns
  · exact fun howns => ⟨f, h.fetchFile, howns⟩

theorem Inv.waiting_eq_nil_iff (h : s.Inv P key L f) : s.arrivals.waiting = [] ↔ f.subs = [] := by
  rw [← List.length_eq_zero_iff, h.length_waiting, List.length_eq_zero_iff]

/-- The head of the list is the descriptor of the latest request. -/
theorem Inv.head_waiting (h : s.Inv P key L f) {sub : Int} {rest : List Int}
    (hsubs : f.subs = sub :: rest) {i : Nat} (hi : i ∈ s.arrivals.waiting.head?) :
    s.requests[i]? = some sub := by
  obtain ⟨waiting, hwaiting⟩ := List.head?_eq_some_iff.mp hi
  have hbehind := h.behind
  rw [Matches, hwaiting, hsubs, List.map_cons, List.map_cons] at hbehind
  exact (List.cons.inj hbehind).1

theorem record_table (code : HTableError) (t : HTable) (call : LockCall) :
    (s.record code t call).table = t := by
  cases call
  · simp only [record]
    split <;> rfl
  · simp only [record]
    split <;> rfl

/-- A request for the lock takes it from nobody. -/
theorem Inv.handsOver_lock (h : s.Inv P key L f) {fd : Int} {out : Outcome} {t' : HTable}
    {L' : Contents} (hstored : Stored P t' L')
    (hstep : MapStep (fileAt L) (.lock key fd) out (fileAt L')) :
    s.HandsOver P key (.lock fd) (s.record out.code t' (.lock fd)) := by
  refine ⟨fun howns => ?_, fun _ => ⟨?_, fun g g' hg hg' hlocked _ => ?_⟩⟩
  · cases (h.ownerUnlocks_iff.mp howns).2
  · simp only [record]
    split <;> rfl
  · cases h.fetchFile.symm.trans hg
    rcases hstep.lock_cases h.file with ⟨-, hcode, hfile⟩ | ⟨hfree, -⟩
    · rw [record_table, hstored.fetchFile, hfile] at hg'
      cases hg'
      rfl
    · exact absurd hlocked hfree

/-- An unlock of the owner passes the lock on when someone waits. -/
theorem Inv.handsOver_unlock (h : s.Inv P key L f) {fd : Int} {out : Outcome} {t' : HTable}
    {L' : Contents} (hexec : (Op.unlock key fd).exec P s.table [] = .ok (out, t'))
    (hstored : Stored P t' L') (hstep : MapStep (fileAt L) (.unlock key fd) out (fileAt L')) :
    s.HandsOver P key (.unlock fd) (s.record out.code t' (.unlock fd)) := by
  rcases hstep.unlock_cases h.file with ⟨hnot, hcode, hfile⟩ | ⟨hown, hcode, hcases⟩
  · refine ⟨fun howns => ?_, fun _ => ⟨?_, fun g g' hg hg' _ _ => ?_⟩⟩
    · obtain ⟨hlocked, heq⟩ := h.ownerUnlocks_iff.mp howns
      cases heq
      exact absurd ⟨hlocked, rfl⟩ hnot
    · simp only [record, if_neg hcode]
    · cases h.fetchFile.symm.trans hg
      rw [record_table, hstored.fetchFile, hfile] at hg'
      cases hg'
      rfl
  · have howns : s.OwnerUnlocks P key (.unlock fd) :=
      h.ownerUnlocks_iff.mpr ⟨hown.1, by rw [hown.2]⟩
    have hserve : (s.record out.code t' (.unlock fd)).arrivals = s.arrivals.serve := by
      simp only [record, hcode, if_true]
    rcases hcases with ⟨hsubs, hfile⟩ | ⟨sub, rest, hsubs, howner, hfile⟩
    · -- nobody waits, and the file is free afterwards
      have hnone := h.waiting_eq_nil_iff.mpr hsubs
      refine ⟨fun _ i hi => by simp [hnone] at hi, fun _ => ⟨?_, fun g g' hg hg' _ hlocked => ?_⟩⟩
      · rw [hserve]
        simp [Arrivals.serve, hnone]
      · rw [record_table, hstored.fetchFile, hfile] at hg'
        cases hg'
        cases hlocked
    · refine ⟨fun _ i hi => ⟨?_, ?_⟩, fun hnot => ?_⟩
      · exact ⟨out, _, by rw [record_table]; exact hexec, howner ▸ h.head_waiting hsubs hi,
          by rw [record_table, hstored.fetchFile, hfile], rfl, howner.symm⟩
      · rw [hserve]
        show s.arrivals.served ++ s.arrivals.waiting.head?.toList = _
        rw [Option.mem_def.mp hi]
        rfl
      · refine absurd ⟨howns, fun hnone => ?_⟩ hnot
        rw [h.waiting_eq_nil_iff.mp hnone] at hsubs
        cases hsubs

/-- The lock goes to the latest of those who wait when its owner unlocks, and in no other case. -/
theorem Inv.handsOver (h : s.Inv P key L f) {call : LockCall} (hx : s.next P key call = some s') :
    s.HandsOver P key call s' := by
  obtain ⟨⟨out, t'⟩, hexec, hx⟩ := Option.bind_eq_some_iff.mp hx
  have hexec := Exec.toOption_eq_some.mp hexec
  obtain ⟨L', heffect⟩ := effect_of_exec h.stored hexec
  have hstep := heffect.mapStep h.stored
  have hstored := heffect.stored h.stored
  obtain rfl := Option.some.inj hx
  cases call with
  | lock fd => exact h.handsOver_lock hstored hstep
  | unlock fd => exact h.handsOver_unlock hexec hstored hstep

/-! ## 2. Newcomers -/

/-- While the file is locked, a newcomer waits in front of those who wait already. -/
theorem Inv.next_lock (h : s.Inv P key L f) (hlocked : f.isLocked) (fd : Int) :
    ∃ s' L', s.next P key (.lock fd) = some s' ∧ s'.Inv P key L' { f with subs := fd :: f.subs } ∧
      s'.arrivals = s.arrivals.arrive := by
  have hexec : ∃ t', (Op.lock key fd).exec P s.table [] = .ok (⟨.okWait, -1, []⟩, t') := by
    have htouches : (Op.lock key fd).touches = true := rfl
    rcases h.stored.exec_touch htouches [] with ⟨hnone, -⟩ | ⟨a, g, hlook, hexec⟩
    · rw [Op.key] at hnone
      have hfile := h.file
      rw [fileAt_of_lookup_none hnone] at hfile
      cases hfile
    · obtain rfl : g = f := Option.some.inj ((fileAt_of_lookup hlook).symm.trans h.file)
      simp only [Op.verdict, hlocked, if_true] at hexec
      exact ⟨_, hexec⟩
  obtain ⟨t', hexec⟩ := hexec
  have hx : s.next P key (.lock fd) = some ⟨t', s.requests ++ [fd], s.arrivals.arrive⟩ := by
    simp [LockHistory.next, LockCall.op, hexec, Except.toOption, record]
  obtain ⟨L', heffect⟩ := effect_of_exec h.stored hexec
  rcases (heffect.mapStep h.stored).lock_cases h.file with ⟨-, -, hfile⟩ | ⟨hfree, -⟩
  · refine ⟨_, L', hx, ⟨heffect.stored h.stored, hfile, h.matches_lock fd t', ?_, h.wf.arrive⟩, rfl⟩
    show s.arrivals.count + 1 = (s.requests ++ [fd]).length
    rw [List.length_append, h.count]
    rfl
  · exact absurd hlocked hfree

/-- Then the owner unlocks, and the newcomer has the lock. -/
theorem Inv.next_unlock (h : s.Inv P key L f) (hlocked : f.isLocked) {fd : Int} {rest : List Int}
    (hsubs : f.subs = fd :: rest) :
    ∃ s' L', s.next P key (.unlock f.fdOwner) = some s' ∧
      s'.Inv P key L' { f with subs := rest, isLocked := true, fdOwner := fd } ∧
        s'.arrivals = s.arrivals.serve := by
  have hexec : ∃ t', (Op.unlock key f.fdOwner).exec P s.table [] = .ok (⟨.ok, fd, []⟩, t') := by
    have htouches : (Op.unlock key f.fdOwner).touches = true := rfl
    rcases h.stored.exec_touch htouches [] with ⟨hnone, -⟩ | ⟨a, g, hlook, hexec⟩
    · rw [Op.key] at hnone
      have hfile := h.file
      rw [fileAt_of_lookup_none hnone] at hfile
      cases hfile
    · obtain rfl : g = f := Option.some.inj ((fileAt_of_lookup hlook).symm.trans h.file)
      simp [Op.verdict, hlocked, hsubs] at hexec
      exact ⟨_, hexec⟩
  obtain ⟨t', hexec⟩ := hexec
  have hx : s.next P key (.unlock f.fdOwner) =
      some { s with table := t', arrivals := s.arrivals.serve } := by
    simp [LockHistory.next, LockCall.op, hexec, Except.toOption, record]
  obtain ⟨L', heffect⟩ := effect_of_exec h.stored hexec
  rcases (heffect.mapStep h.stored).unlock_cases h.file with ⟨hnot, -⟩ | ⟨-, -, hcases⟩
  · exact absurd ⟨hlocked, rfl⟩ hnot
  · rcases hcases with ⟨hnone, -⟩ | ⟨sub, rest', hcons, -, hfile⟩
    · rw [hnone] at hsubs
      cases hsubs
    · obtain ⟨rfl, rfl⟩ := List.cons.inj (hcons.symm.trans hsubs)
      refine ⟨_, L', hx, ⟨heffect.stored h.stored, hfile, h.matches_unlock t' ?_, h.count,
        h.wf.serve⟩, rfl⟩
      rw [hsubs]
      rfl

/-- However many newcomers ask one after the other, each of them is served at once, and those who
waited before still wait. -/
theorem Inv.newcomers_served (h : s.Inv P key L f) (hlocked : f.isLocked) (fds : List Int) :
    ∃ tr s', Run (fun s call s' => s.next P key call = some s') s tr s' ∧
      tr.map Prod.snd = newcomers f.fdOwner fds ∧ s'.arrivals.waiting = s.arrivals.waiting ∧
        s'.arrivals.served = s.arrivals.served ++ List.range' s.arrivals.count fds.length := by
  induction fds generalizing s L f with
  | nil => exact ⟨[], s, .nil, rfl, rfl, by simp⟩
  | cons fd fds ih =>
    obtain ⟨s₁, L₁, hlock, h₁, harrive⟩ := h.next_lock hlocked fd
    obtain ⟨s₂, L₂, hunlock, h₂, hserve⟩ := h₁.next_unlock hlocked rfl
    rw [harrive] at hserve
    obtain ⟨tr, s', run, hcalls, hwaiting, hserved⟩ := ih h₂ rfl
    refine ⟨_, s', Run.cons hlock (Run.cons hunlock run), ?_, ?_, ?_⟩
    · show LockCall.lock fd :: LockCall.unlock f.fdOwner :: tr.map Prod.snd = _
      rw [hcalls]
      rfl
    · rw [hwaiting, hserve]
      rfl
    · rw [hserved, hserve]
      show s.arrivals.served ++ [s.arrivals.count] ++ List.range' (s.arrivals.count + 1) fds.length =
        s.arrivals.served ++ List.range' s.arrivals.count (fds.length + 1)
      rw [List.range'_succ, List.append_assoc]
      rfl

/-! ## 3. The runs -/

/-- Whatever waits when the calls start: in every state the list of the file is that of the requests
that wait, the latest first; the owner's unlock gives the lock to the latest of them, and nothing
else gives it to any.  The requests are served in the order of their arrival exactly when nobody
passes the lock on while two or more wait, and as soon as the file is locked any number of newcomers
can be served before those who wait. -/
theorem served_in_order_iff {buckets : Nat} {config : Config} {before : List (HTable × Call)}
    {t : HTable} (hbefore : SequentialRun P buckets config before t)
    (hfile : htableFetchFile P t key = .ok (some f)) {tr : List (LockHistory × LockCall)}
    (run : Run (fun s call s' => s.next P key call = some s') (start t f) tr s) :
    (∀ s' ∈ statesOf tr s, ∃ g, htableFetchFile P s'.table key = .ok (some g) ∧ s'.Matches g ∧
        s'.arrivals.waiting.Pairwise (· > ·)) ∧
      (∀ x ∈ tr, ∀ s', x.1.next P key x.2 = some s' → x.1.HandsOver P key x.2 s') ∧
      ((∀ s' ∈ statesOf tr s, ServedInOrder s'.arrivals.served) ↔
        ∀ x ∈ tr, x.1.FewWait P key x.2) ∧
      ∀ s' ∈ statesOf tr s, ∀ g, htableFetchFile P s'.table key = .ok (some g) → g.isLocked →
        ∀ fds, ∃ tr' s'', Run (fun s call s' => s.next P key call = some s') s' tr' s'' ∧
          tr'.map Prod.snd = newcomers g.fdOwner fds ∧
            s''.arrivals.waiting = s'.arrivals.waiting ∧
              s''.arrivals.served =
                s'.arrivals.served ++ List.range' s'.arrivals.count fds.length := by
  obtain ⟨L, hstored⟩ := hbefore.stored
  rw [hstored.fetchFile, Except.ok.injEq] at hfile
  have hstart : (start t f).Inv P key L f :=
    ⟨hstored, hfile, matches_start t f, List.length_reverse.symm, Arrivals.wf_start _⟩
  have hinv := run.invariant_states (fun s => ∃ L f, s.Inv P key L f) (fun _ _ => True)
    ⟨L, f, hstart⟩ (fun _ _ _ ⟨_, _, h⟩ _ hx => (h.next hx).1) fun _ _ => trivial
  refine ⟨fun s' hs' => ?_, fun x hx s' hnext => ?_, ?_, fun s' hs' g hg hlocked fds => ?_⟩
  · obtain ⟨L', g, h⟩ := hinv s' hs'
    exact ⟨g, h.fetchFile, h.behind, h.wf.latest⟩
  · obtain ⟨L', g, h⟩ := hinv x.1 (List.mem_append_left _ (List.mem_map_of_mem hx))
    exact h.handsOver hnext
  · exact run.good_iff (fun s => ∃ L f, s.Inv P key L f) (fun s => ServedInOrder s.arrivals.served)
      (FewWait P key) ⟨L, f, hstart⟩ servedInOrder_nil
      (fun _ _ _ ⟨_, _, h⟩ hx => (h.next hx).1) fun _ _ _ ⟨_, _, h⟩ hin hx => (h.next hx).2 hin
  · obtain ⟨L', g', h⟩ := hinv s' hs'
    cases h.fetchFile.symm.trans hg
    exact h.newcomers_served hlocked fds

/-- The calls from `htable_create` on, then calls on one file, and a test on what they did. -/
theorem runs_of_calls (P : Platform) (key : CStr) (buckets : Nat) (config : Config)
    (before : List Call) (calls : List LockCall)
    (test : List (LockHistory × LockCall) → LockHistory → Bool)
    (hx : ((tableAfter P buckets config before).bind fun r =>
      match htableFetchFile P r.2 key with
      | .ok (some f) => replay (next P key) (start r.2 f) calls
      | _ => none).any (fun r => test r.1 r.2) = true) :
    ∃ tr₀ t f tr s, SequentialRun P buckets config tr₀ t ∧
      htableFetchFile P t key = .ok (some f) ∧
      Run (fun s call s' => s.next P key call = some s') (start t f) tr s ∧ test tr s = true := by
  obtain ⟨r, hr, htest⟩ := (Option.any_eq_true _ _).mp hx
  obtain ⟨⟨tr₀, t⟩, hafter, hr⟩ := Option.bind_eq_some_iff.mp hr
  split at hr
  · rename_i f hf
    exact ⟨tr₀, t, f, r.1, r.2, SequentialRun.of_calls hafter, hf,
      Run.of_replay (fun _ _ _ h => h) hr, htest⟩
  · cases hr

/-- 3 has the lock, 4 waits for it and gets it, then 5 waits for it and gets it. -/
theorem served_in_order_one_by_one :
    ∃ tr₀ t f tr s, SequentialRun samplePlatform 1 ⟨10, 10, .fifo⟩ tr₀ t ∧
      htableFetchFile samplePlatform t (bufToStr [97]) = .ok (some f) ∧
      Run (fun s call s' => s.next samplePlatform (bufToStr [97]) call = some s') (start t f) tr s ∧
      s.arrivals.served = [0, 1] ∧ s.requests = [4, 5] ∧
      ∀ s' ∈ statesOf tr s, ServedInOrder s'.arrivals.served := by
  obtain ⟨tr₀, t, f, tr, s, hbefore, hf, run, htest⟩ := runs_of_calls samplePlatform (bufToStr [97])
    1 ⟨10, 10, .fifo⟩ [⟨.create (bufToStr [97]) 3 true, []⟩]
    [.lock 4, .unlock 3, .lock 5, .unlock 4]
    (fun tr s => decide (s.arrivals.served = [0, 1] ∧ s.requests = [4, 5]) && tr.all fun x =>
      (htableFetchFile samplePlatform x.1.table (bufToStr [97])).anySome fun f =>
        f.subs.length ≤ 1)
    (by decide +kernel)
  rw [Bool.and_eq_true, decide_eq_true_eq, List.all_eq_true] at htest
  obtain ⟨⟨hserved, hrequests⟩, hfew⟩ := htest
  refine ⟨tr₀, t, f, tr, s, hbefore, hf, run, hserved, hrequests,
    (served_in_order_iff hbefore hf run).2.2.1.mpr fun x hx g hg _ _ _ _ => ?_⟩
  obtain ⟨g', hg', hlength⟩ := Exec.anySome_eq_true.mp (hfew x hx)
  cases hg.symm.trans hg'
  exact of_decide_eq_true hlength

/-- 3 has the lock, 4 waits for it and then 5: it goes to 5. -/
theorem latest_served_first :
    ¬∀ (P : Platform) (key : CStr) (buckets : Nat) (config : Config) (before : List (HTable × Call))
      (t : HTable) (f : File) (tr : List (LockHistory × LockCall)) (s : LockHistory),
      SequentialRun P buckets config before t → htableFetchFile P t key = .ok (some f) →
        Run (fun s call s' => s.next P key call = some s') (start t f) tr s →
          ∀ s' ∈ statesOf tr s, ServedInOrder s'.arrivals.served := by
  intro hclaim
  obtain ⟨tr₀, t, f, tr, s, hbefore, hf, run, htest⟩ := runs_of_calls samplePlatform (bufToStr [97])
    1 ⟨10, 10, .fifo⟩ [⟨.create (bufToStr [97]) 3 true, []⟩] [.lock 4, .lock 5, .unlock 3]
    (fun _ s => decide (s.arrivals.served = [1])) (by decide +kernel)
  have hin := hclaim _ _ _ _ _ _ _ _ _ hbefore hf run s (by simp [statesOf])
  rw [of_decide_eq_true htest] at hin
  exact absurd (hin [] 1 [] rfl 0 Nat.zero_lt_one) List.not_mem_nil

end LockHistory

end FileStorage.Server
