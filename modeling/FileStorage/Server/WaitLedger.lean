import FileStorage.Server.Worker

/-!
# WaitLedger — what becomes of the requests that wait for a lock

A request that `htable_lock_file` has queued is on the list of its file until its client is told
that it has the lock.  An operation may also take the file away, list and all.
-/

namespace FileStorage.Server

/-! ## 1. The ledger -/

/-- The request that the operation has queued, if any. -/
def Op.queued (out : Outcome) : Op → List (CStr × Int)
  | .lock key fd => if out.code = .okWait then [(key, fd)] else []
  | _ => []

/-- The requests behind the list of the operation's file, which were `ids` before; `id` is the next
one to be queued. -/
def Op.waitingAfter (id : Nat) (out : Outcome) (ids : List Nat) : Op → List Nat
  | .lock _ _ => if out.code = .okWait then id :: ids else ids
  | .unlock _ _ => if out.code = .ok then ids.tail else ids
  | _ => ids

/-- A call into the table, or the handler of a request. -/
inductive ServerCall where
  | table (op : Op) (rands : List Nat)
  | request (fd : Int) (op : ApiOp) (buffer : List UInt8) (rands : List Nat)
deriving DecidableEq

/-- The operation that the call comes to. -/
def ServerCall.operation : ServerCall → Option (Op × List Nat)
  | .table op rands => some (op, rands)
  | .request fd op buffer rands =>
      match op.tableOp fd buffer with
      | .ok (some o) => some (o, rands)
      | _ => none

/-- The descriptors that are told that the lock went to them. -/
def grantedFds (writes : List Write) : List Int := (writes.filter (·.kind = .granted)).map Write.fd

structure WaitLedger where
  table : HTable
  requests : List (CStr × Int)  -- all that were queued, in the order of their arrival
  waiting : CStr → List Nat     -- a ghost: those behind the list of the file, by their places
  notified : List Nat           -- a log: those whose clients were told

namespace WaitLedger

def start (table : HTable) : WaitLedger where
  table
  requests := []
  waiting := fun _ => []
  notified := []

/-- The requests that descriptors which were told something about `key` waited with. -/
def answered (s : WaitLedger) (key : CStr) (told : List Int) : List Nat :=
  told.filterMap fun fd => (s.waiting key).find? fun id => s.requests[id]? = some (key, fd)

def record (P : Platform) (s : WaitLedger) (o : Op) (out : Outcome) (table : HTable)
    (told : List Int) : WaitLedger where
  table
  requests := s.requests ++ o.queued out
  -- with the file its list is gone
  waiting := fun key =>
    if (htableFetchFile P table key).any Option.isSome then
      Function.update s.waiting o.key
        (o.waitingAfter s.requests.length out (s.waiting o.key)) key
    else
      []
  notified := s.notified ++ s.answered o.key told

/-- Who calls `htable_unlock_file` tells the new owner, as its handler does. -/
def next (P : Platform) (s : WaitLedger) : ServerCall → Option WaitLedger
  | .table op rands => do
      let (out, table) ← (op.exec P s.table rands).toOption
      some (s.record P op out table ((op.grants out).map Write.fd))
  | .request fd op buffer rands => do
      let (writes, table) ← (workerHandleRequest P s.table fd op buffer rands).toOption
      match op.tableOp fd buffer with
      | .ok (some o) => do
          let (out, _) ← (o.exec P s.table rands).toOption
          some (s.record P o out table (grantedFds writes))
      | _ => some { s with table }

/-- From `htable_create` the calls of `tr` lead to `s`. -/
def Runs (P : Platform) (buckets : Nat) (config : Config) (tr : List (WaitLedger × ServerCall))
    (s : WaitLedger) : Prop :=
  ∃ t₀, htableCreate buckets config = .ok t₀ ∧
    Run (fun s call s' => s.next P call = some s') (start t₀) tr s

/-- The lists of the stored files are those of the requests that wait. -/
def ListsMatch (P : Platform) (s : WaitLedger) : Prop :=
  ∀ key f, htableFetchFile P s.table key = .ok (some f) →
    (s.waiting key).map (s.requests[·]?) = f.subs.map fun fd => some (key, fd)

/-- Every request that was queued still waits, or its client was told once. -/
def Conserved (s : WaitLedger) : Prop :=
  ∀ id key fd, s.requests[id]? = some (key, fd) →
    (id ∈ s.waiting key ∧ id ∉ s.notified) ∨ (id ∉ s.waiting key ∧ s.notified.count id = 1)

end WaitLedger

/-- The operation takes no file away that is waited for, and does not pass the lock on to a waiter
with the descriptor -1, which is what `*new_owner_of_lock` is when there is no new owner. -/
structure Op.SparesWaiters (P : Platform) (t : HTable) (rands : List Nat) (o : Op) : Prop where
  evicted : ∀ out t', o.exec P t rands = .ok (out, t') → ∀ f ∈ out.evicted, f.subs = []
  removed : ∀ key fd f, o = .remove key fd → htableFetchFile P t key = .ok (some f) →
    ¬(f.lockedAgainst fd ∧ fd ≠ -1) → f.subs = []
  passed : ∀ key fd f, o = .unlock key fd → htableFetchFile P t key = .ok (some f) →
    f.isLocked → f.fdOwner = fd → f.subs.head? ≠ some (-1)

/-- A call that takes no file away spares them, unless it passes a lock on. -/
theorem Op.sparesWaiters_iff {P : Platform} {t t' : HTable} {rands : List Nat} {o : Op} {out : Outcome}
    (hexec : o.exec P t rands = .ok (out, t')) (hev : out.evicted = [])
    (hremove : ∀ key fd, o ≠ .remove key fd) :
    o.SparesWaiters P t rands ↔ ∀ key fd f, o = .unlock key fd →
      htableFetchFile P t key = .ok (some f) → f.isLocked → f.fdOwner = fd →
        f.subs.head? ≠ some (-1) := by
  refine ⟨fun h => h.passed, fun hpassed =>
    ⟨fun out' t₁ hexec' e he => ?_, fun key fd f ho => absurd ho (hremove key fd), hpassed⟩⟩
  rw [hexec] at hexec'
  cases hexec'
  rw [hev] at he
  cases he

/-! ## 2. One operation on the map -/

theorem Op.queued_eq_nil {o : Op} {out : Outcome}
    (hwait : ∀ key fd, o = .lock key fd → out.code ≠ .okWait) : o.queued out = [] := by
  cases o with
  | lock key fd => exact if_neg (hwait key fd rfl)
  | create | «open» | close | unlock | remove | replace | append => rfl

theorem Op.waitingAfter_eq {o : Op} {out : Outcome}
    (hwait : ∀ key fd, o = .lock key fd → out.code ≠ .okWait)
    (hpass : ∀ key fd, o = .unlock key fd → out.code ≠ .ok) (id : Nat) (ids : List Nat) :
    o.waitingAfter id out ids = ids := by
  cases o with
  | lock key fd => exact if_neg (hwait key fd rfl)
  | unlock key fd => exact if_neg (hpass key fd rfl)
  | create | «open» | close | remove | replace | append => rfl

namespace MapStep

variable {m m' : FileMap} {o : Op} {out : Outcome} {f g : File}

/-- Neither a request that is queued nor a lock that is passed on: the list stays as it is. -/
theorem subs_eq (h : MapStep m o out m') (hwait : ∀ key fd, o = .lock key fd → out.code ≠ .okWait)
    (hpass : ∀ key fd, o = .unlock key fd → out.code ≠ .ok) (hf : m o.key = some f)
    (hg : m' o.key = some g) : g.subs = f.subs := by
  cases h with
  | refuse hverdict => rw [Option.some.inj (hg.symm.trans hf)]
  | put hverdict hev hquiet =>
    rw [hev.apply, Function.update_self] at hg
    rw [hf] at hverdict
    split at hg
    · cases hg
    · cases hg
      cases o with
      | create => cases hverdict
      | «open» | close =>
        simp only [Op.verdict] at hverdict
        split at hverdict
        · cases hverdict
        · split at hverdict
          · cases hverdict
          · cases hverdict
            rfl
      | lock key fd =>
        simp only [Op.verdict] at hverdict
        split at hverdict
        · cases hverdict
          exact absurd rfl (hwait key fd rfl)
        · split at hverdict
          · cases hverdict
          · cases hverdict
            rfl
      | unlock key fd =>
        simp only [Op.verdict] at hverdict
        split at hverdict
        · cases hverdict
        · split at hverdict
          · cases hverdict
          · split at hverdict <;>
            · cases hverdict
              exact absurd rfl (hpass key fd rfl)
      | remove =>
        simp only [Op.verdict] at hverdict
        split at hverdict <;> cases hverdict
      | replace | append =>
        cases hverdict
        rfl
  | drop hverdict =>
    rw [Function.update_self] at hg
    cases hg

theorem subs_eq_nil (h : MapStep m o out m') (hf : m o.key = none) (hg : m' o.key = some g) :
    g.subs = [] := by
  rcases h.stored_before hg with hold | ⟨-, code, newOwner, hverdict⟩
  · rw [hf] at hold
    cases hold
  · rw [hf] at hverdict
    cases o with
    | create =>
      cases hverdict
      rfl
    | «open» | close | lock | unlock | remove | replace | append => cases hverdict

theorem code_of_none (h : MapStep m o out m') (hf : m o.key = none)
    (hop : ∀ key fd withLock, o ≠ .create key fd withLock) : out.code = .fileNotFound := by
  have hverdict : o.verdict none = .refuse .fileNotFound := by
    cases o with
    | create key fd withLock => exact absurd rfl (hop key fd withLock)
    | «open» | close | lock | unlock | remove | replace | append => rfl
  cases h with
  | refuse h =>
    rw [hf, hverdict] at h
    cases h
    rfl
  | put h | drop h =>
    rw [hf, hverdict] at h
    cases h

theorem newOwner_of_refused {key : CStr} {fd : Int} (h : MapStep m (.unlock key fd) out m')
    (hcode : out.code ≠ .ok) : out.newOwner = -1 := by
  cases hf : m key with
  | none =>
    cases h with
    | refuse | drop => rfl
    | put h hev hquiet => simp [Op.key, hf, Op.verdict] at h
  | some f =>
    cases h with
    | refuse | drop => rfl
    | put hverdict hev hquiet =>
      simp only [Op.key, hf, Op.verdict] at hverdict
      grind

theorem grants_eq_nil (h : MapStep m o out m')
    (hpass : ∀ key fd, o = .unlock key fd → out.code ≠ .ok) : o.grants out = [] := by
  cases o with
  | unlock key fd => exact if_neg (not_not.mpr (h.newOwner_of_refused (hpass key fd rfl)))
  | create | «open» | close | lock | remove | replace | append => rfl

/-- An evicted file goes with the list that it had. -/
theorem evicted_subs (h : MapStep m o out m') (hf : f ∈ out.evicted) :
    ∃ g, m f.key = some g ∧ f.subs = g.subs := by
  by_cases hkey : f.key = o.key
  · obtain ⟨g, hg, hverdict⟩ := h.evicted_own hf hkey
    refine ⟨g, hg, ?_⟩
    cases o with
    | replace | append =>
      cases hverdict
      rfl
    | create | «open» | close | lock | unlock | remove =>
      rw [h.evicted_eq_nil rfl] at hf
      cases hf
  · exact ⟨f, h.evicted_other hf hkey, rfl⟩

/-- A file that is not there any more was evicted or removed. -/
theorem gone_iff (h : MapStep m o out m') {key : CStr} (hf : m key = some f) :
    m' key = none ↔ key ∈ out.evicted.map File.key ∨
      ∃ fd, o = .remove key fd ∧ ¬(f.lockedAgainst fd ∧ fd ≠ -1) := by
  constructor
  · intro hgone
    cases h with
    | refuse hverdict =>
      rw [hf] at hgone
      cases hgone
    | put hverdict hev hquiet =>
      rw [hev.apply] at hgone
      split at hgone
      · exact Or.inl ‹_›
      · by_cases hkey : key = o.key
        · rw [hkey, Function.update_self] at hgone
          cases hgone
        · rw [Function.update_of_ne hkey, hf] at hgone
          cases hgone
    | drop hverdict =>
      by_cases hkey : key = o.key
      · rw [← hkey, hf] at hverdict
        cases o with
        | remove key' fd =>
          refine Or.inr ⟨fd, by rw [hkey, Op.key], fun hkept => ?_⟩
          rw [Op.verdict, if_pos hkept] at hverdict
          cases hverdict
        | create | «open» | close | lock | unlock | replace | append =>
          simp only [Op.verdict] at hverdict
          grind
      · rw [Function.update_of_ne hkey, hf] at hgone
        cases hgone
  · rintro (hev | ⟨fd, rfl, hallowed⟩)
    · obtain ⟨g, hg, rfl⟩ := List.mem_map.mp hev
      exact h.evicted_absent hg
    · exact h.removed rfl hf hallowed

end MapStep

/-! ## 3. One call -/

namespace WaitLedger

structure Inv (P : Platform) (s : WaitLedger) (L : Contents) : Prop where
  stored : Stored P s.table L
  behind : ∀ key f, fileAt L key = some f →
    (s.waiting key).map (s.requests[·]?) = f.subs.map fun fd => some (key, fd)
  absent : ∀ key, fileAt L key = none → s.waiting key = []
  nodup : ∀ key, (s.waiting key).Nodup
  told : ∀ id ∈ s.notified, id < s.requests.length
  once : s.notified.Nodup
  apart : ∀ key, ∀ id ∈ s.waiting key, id ∉ s.notified

variable {P : Platform} {s s' : WaitLedger} {L L' : Contents} {key : CStr} {f : File}

namespace Inv

theorem listsMatch (h : s.Inv P L) : s.ListsMatch P := by
  intro key f hf
  rw [h.stored.fetchFile, Except.ok.injEq] at hf
  exact h.behind key f hf

/-- Who waits has asked for the lock of this file. -/
theorem known (h : s.Inv P L) {id : Nat} (hid : id ∈ s.waiting key) :
    ∃ fd, s.requests[id]? = some (key, fd) := by
  cases hf : fileAt L key with
  | none =>
    rw [h.absent key hf] at hid
    cases hid
  | some f =>
    have hmem : s.requests[id]? ∈ (s.waiting key).map (s.requests[·]?) := List.mem_map_of_mem hid
    rw [h.behind key f hf] at hmem
    obtain ⟨fd, -, hfd⟩ := List.mem_map.mp hmem
    exact ⟨fd, hfd.symm⟩

theorem lt_of_waiting (h : s.Inv P L) {id : Nat} (hid : id ∈ s.waiting key) :
    id < s.requests.length := by
  obtain ⟨fd, hfd⟩ := h.known hid
  exact (List.getElem?_eq_some_iff.mp hfd).1

theorem waiting_eq_nil_iff (h : s.Inv P L) (hf : fileAt L key = some f) :
    s.waiting key = [] ↔ f.subs = [] := by
  have hlength := congrArg List.length (h.behind key f hf)
  rw [List.length_map, List.length_map] at hlength
  rw [← List.length_eq_zero_iff, ← List.length_eq_zero_iff, hlength]

/-- As no request is notified while it waits, nor twice, it only can get lost. -/
theorem conserved_iff (h : s.Inv P L) : s.Conserved ↔
    ∀ id key fd, s.requests[id]? = some (key, fd) → id ∈ s.waiting key ∨ id ∈ s.notified := by
  constructor
  · intro hall id key fd hid
    rcases hall id key fd hid with ⟨hwaits, -⟩ | ⟨-, hcount⟩
    · exact Or.inl hwaits
    · exact Or.inr (List.count_pos_iff.mp (hcount ▸ Nat.zero_lt_one))
  · intro hall id key fd hid
    by_cases hwaits : id ∈ s.waiting key
    · exact Or.inl ⟨hwaits, h.apart key id hwaits⟩
    · have hmem := (hall id key fd hid).resolve_left hwaits
      exact Or.inr ⟨hwaits, List.count_eq_one_of_mem h.once hmem⟩

/-- Where the requests before are all accounted for, those after are exactly when none of those that
waited is lost. -/
theorem conserved_next_iff (h : s.Inv P L) (h' : s'.Inv P L') (hs : s.Conserved) {new : List Nat}
    (hnotified : s'.notified = s.notified ++ new)
    (hold : ∀ (id : Nat) x, s.requests[id]? = some x → s'.requests[id]? = some x)
    (hnew : ∀ (id : Nat) key fd, s'.requests[id]? = some (key, fd) →
      s.requests[id]? = some (key, fd) ∨ id ∈ s'.waiting key) :
    s'.Conserved ↔ ∀ key, ∀ id ∈ s.waiting key, id ∈ s'.waiting key ∨ id ∈ new := by
  rw [h'.conserved_iff, hnotified]
  rw [h.conserved_iff] at hs
  constructor
  · intro hall key id hid
    obtain ⟨fd, hfd⟩ := h.known hid
    rcases hall id key fd (hold id _ hfd) with hwaits | hmem
    · exact Or.inl hwaits
    · exact Or.inr ((List.mem_append.mp hmem).resolve_left (h.apart key id hid))
  · intro hkept id key fd hid
    rcases hnew id key fd hid with hbefore | hwaits
    · rcases hs id key fd hbefore with hwaited | hmem
      · rcases hkept key id hwaited with hwaits | hmem
        · exact Or.inl hwaits
        · exact Or.inr (List.mem_append_right _ hmem)
      · exact Or.inr (List.mem_append_left _ hmem)
    · exact Or.inl hwaits

end Inv

theorem waiting_record {t : HTable} (hstored : Stored P t L') (o : Op) (out : Outcome)
    (told : List Int) (key : CStr) : (s.record P o out t told).waiting key =
      if (fileAt L' key).isSome then
        Function.update s.waiting o.key (o.waitingAfter s.requests.length out (s.waiting o.key)) key
      else
        [] := by
  show (if (htableFetchFile P t key).any Option.isSome then _ else _) = _
  rw [hstored.fetchFile]
  rfl

@[simp] theorem requests_record (o : Op) (out : Outcome) (t : HTable) (told : List Int) :
    (s.record P o out t told).requests = s.requests ++ o.queued out := rfl

@[simp] theorem notified_record (o : Op) (out : Outcome) (t : HTable) (told : List Int) :
    (s.record P o out t told).notified = s.notified ++ s.answered o.key told := rfl

/-- What a call that is recorded as `s'` does to the invariant and to what is claimed. -/
structure Recorded (P : Platform) (s : WaitLedger) (o : Op) (rands : List Nat)
    (s' : WaitLedger) : Prop where
  inv : ∃ L', s'.Inv P L'
  conserved : s.Conserved → (s'.Conserved ↔ o.SparesWaiters P s.table rands)

section

variable {t' : HTable} {fd : Int} {rands : List Nat} {out : Outcome}

theorem Inv.waiting_record_of_ne (h : s.Inv P L) (hstored : Stored P t' L') {o : Op}
    (told : List Int) {k : CStr} (hk : k ≠ o.key) (hframe : fileAt L' k = fileAt L k) :
    (s.record P o out t' told).waiting k = s.waiting k := by
  rw [waiting_record hstored, hframe, Function.update_of_ne hk]
  cases hf : fileAt L k with
  | none => rw [h.absent k hf]; rfl
  | some f => rfl

/-- A call that changes the list of one stored file. -/
theorem Inv.change (h : s.Inv P L) (hstored : Stored P s'.table L') {g : File}
    {queued : List (CStr × Int)} {new : List Nat} (hfile : fileAt L' key = some g)
    (hframe : ∀ k, k ≠ key → fileAt L' k = fileAt L k ∧ s'.waiting k = s.waiting k)
    (hrequests : s'.requests = s.requests ++ queued) (hnotified : s'.notified = s.notified ++ new)
    (hbehind : (s'.waiting key).map (s'.requests[·]?) = g.subs.map fun fd => some (key, fd))
    (hnodup : (s'.waiting key).Nodup) (hnew : new.Nodup) (hsub : new ⊆ s.waiting key)
    (hapart : ∀ id ∈ s'.waiting key, id ∉ s.notified ∧ id ∉ new) : s'.Inv P L' := by
  have hkeep : ∀ {id : Nat}, id < s.requests.length → s'.requests[id]? = s.requests[id]? :=
    fun hid => by rw [hrequests, List.getElem?_append_left hid]
  refine ⟨hstored, fun k f hf => ?_, fun k hk => ?_, fun k => ?_, ?_, ?_, fun k id hid => ?_⟩
  · by_cases hk : k = key
    · subst hk
      cases hf.symm.trans hfile
      exact hbehind
    · obtain ⟨hsame, hwaiting⟩ := hframe k hk
      rw [hwaiting, ← h.behind k f (hsame ▸ hf)]
      exact List.map_congr_left fun id hid => hkeep (h.lt_of_waiting hid)
  · have hne : k ≠ key := by
      rintro rfl
      rw [hfile] at hk
      cases hk
    obtain ⟨hsame, hwaiting⟩ := hframe k hne
    rw [hwaiting, h.absent k (hsame ▸ hk)]
  · by_cases hk : k = key
    · exact hk ▸ hnodup
    · rw [(hframe k hk).2]
      exact h.nodup k
  · intro id hid
    rw [hrequests, List.length_append]
    rw [hnotified] at hid
    rcases List.mem_append.mp hid with hid | hid
    · exact Nat.lt_add_right _ (h.told id hid)
    · exact Nat.lt_add_right _ (h.lt_of_waiting (hsub hid))
  · rw [hnotified]
    refine List.nodup_append.mpr ⟨h.once, hnew, fun id hid j hj => ?_⟩
    rintro rfl
    exact h.apart key id (hsub hj) hid
  · rw [hnotified, List.mem_append, not_or]
    by_cases hk : k = key
    · exact hapart id (hk ▸ hid)
    · rw [(hframe k hk).2] at hid
      refine ⟨h.apart k id hid, fun hmem => ?_⟩
      -- a request is for one file
      obtain ⟨fd, hfd⟩ := h.known hid
      obtain ⟨fd', hfd'⟩ := h.known (hsub hmem)
      cases hfd.symm.trans hfd'
      exact hk rfl

/-- An operation that found its file, and is no write. -/
theorem Inv.found (h : s.Inv P L) {o : Op} (hexec : o.exec P s.table rands = .ok (out, t'))
    (hop : o.writes = false) (hcreate : ∀ key fd withLock, o ≠ .create key fd withLock)
    (hcode : out.code ≠ .fileNotFound) : ∃ L' f, MapStep (fileAt L) o out (fileAt L') ∧
      Stored P t' L' ∧ fileAt L o.key = some f ∧ out.evicted = [] ∧
        ∀ k, k ≠ o.key → fileAt L' k = fileAt L k := by
  obtain ⟨L', heffect⟩ := effect_of_exec h.stored hexec
  have hstep := heffect.mapStep h.stored
  have hev := hstep.evicted_eq_nil hop
  obtain ⟨f, hf⟩ := Option.ne_none_iff_exists'.mp fun hnone =>
    hcode (hstep.code_of_none hnone hcreate)
  exact ⟨L', f, hstep, heffect.stored h.stored, hf, hev, fun k hk => hstep.frame hk (by simp [hev])⟩

/-- One more request waits. -/
theorem Inv.record_lock (h : s.Inv P L) (hexec : (Op.lock key fd).exec P s.table rands = .ok (out, t'))
    (hcode : out.code = .okWait) :
    Recorded P s (.lock key fd) rands (s.record P (.lock key fd) out t' []) := by
  obtain ⟨L', f, hstep, hstored, hf, hev, hframe⟩ :=
    h.found hexec rfl (fun _ _ _ => Op.noConfusion) (by rw [hcode]; decide)
  obtain ⟨-, -, hfile⟩ := (hstep.lock_cases hf).resolve_right fun hfree => by
    rw [hfree.2.2.1] at hcode
    cases hcode
  have hothers : ∀ k, k ≠ key →
      (s.record P (.lock key fd) out t' []).waiting k = s.waiting k := fun k hk =>
    h.waiting_record_of_ne hstored [] hk (hframe k hk)
  have hown : (s.record P (.lock key fd) out t' []).waiting key =
      s.requests.length :: s.waiting key := by
    rw [waiting_record hstored, hfile, Op.key, Function.update_self, Op.waitingAfter, if_pos hcode]
    rfl
  have hrequests : (s.record P (.lock key fd) out t' []).requests = s.requests ++ [(key, fd)] := by
    rw [requests_record, Op.queued, if_pos hcode]
  have hnotified : (s.record P (.lock key fd) out t' []).notified = s.notified ++ [] := rfl
  have htable : (s.record P (.lock key fd) out t' []).table = t' := rfl
  generalize s.record P (.lock key fd) out t' [] = s' at *
  have hlt : ∀ id ∈ s.waiting key, id < s.requests.length := fun id hid => h.lt_of_waiting hid
  have hinv : s'.Inv P L' := by
    refine h.change (htable ▸ hstored) hfile (fun k hk => ⟨hframe k hk, hothers k hk⟩) hrequests
      hnotified ?_ ?_ List.nodup_nil (List.nil_subset _) ?_
    · rw [hown, hrequests, List.map_cons, List.getElem?_concat_length]
      show _ :: _ = some (key, fd) :: f.subs.map _
      rw [← h.behind key f hf]
      exact congrArg _ (List.map_congr_left fun id hid => List.getElem?_append_left (hlt id hid))
    · rw [hown, List.nodup_cons]
      exact ⟨fun hmem => absurd (hlt _ hmem) (Nat.lt_irrefl _), h.nodup key⟩
    · rw [hown]
      refine List.forall_mem_cons.mpr ⟨⟨fun hmem => ?_, List.not_mem_nil⟩, fun id hid => ?_⟩
      · exact absurd (h.told _ hmem) (Nat.lt_irrefl _)
      · exact ⟨h.apart key id hid, List.not_mem_nil⟩
  refine ⟨⟨L', hinv⟩, fun hs => ?_⟩
  rw [h.conserved_next_iff hinv hs hnotified (fun id x hx => ?_) fun id k fd' hid => ?_]
  · -- nobody is lost, and nothing is evicted, removed or passed on
    refine iff_of_true (fun k id hid => Or.inl ?_) ((Op.sparesWaiters_iff hexec hev ?_).mpr ?_)
    · by_cases hk : k = key
      · subst hk
        rw [hown]
        exact List.mem_cons_of_mem _ hid
      · rwa [hothers k hk]
    · exact fun _ _ => Op.noConfusion
    · exact fun _ _ _ => Op.noConfusion
  · rw [hrequests, List.getElem?_append_left (List.getElem?_eq_some_iff.mp hx).1, hx]
  · rw [hrequests] at hid
    rcases Nat.lt_or_ge id s.requests.length with hlt | hge
    · rw [List.getElem?_append_left hlt] at hid
      exact Or.inl hid
    · rw [List.getElem?_append_right hge, List.getElem?_singleton] at hid
      split at hid
      · rename_i hzero
        cases hid
        refine Or.inr ?_
        rw [hown, Nat.le_antisymm (Nat.le_of_sub_eq_zero hzero) hge]
        exact List.mem_cons_self
      · cases hid

/-- The first of those who wait is told, unless its descriptor is -1. -/
theorem Inv.answered_unlock (h : s.Inv P L) {f : File} (hf : fileAt L key = some f)
    (hcases : f.subs = [] ∨ ∃ rest, f.subs = out.newOwner :: rest) :
    s.answered key (((Op.unlock key fd).grants out).map Write.fd) =
      if f.subs.head? = some (-1) then [] else (s.waiting key).head?.toList := by
  rcases hcases with hnil | ⟨rest, hcons⟩
  · have hwaiting := (h.waiting_eq_nil_iff hf).mpr hnil
    simp [answered, hwaiting]
  · obtain ⟨w, ws, hw, hrequest, -⟩ := List.map_eq_cons_iff.mp (hcons ▸ h.behind key f hf)
    by_cases hsub : out.newOwner = -1
    · simp [answered, Op.grants, hcons, hsub]
    · simp [answered, Op.grants, hcons, hsub, hw, hrequest]

/-- A list without its first entry does not have that one any more. -/
theorem Inv.head_notMem_tail (h : s.Inv P L) {id : Nat} (hid : (s.waiting key).head? = some id) :
    id ∉ (s.waiting key).tail := by
  have hnodup := h.nodup key
  obtain ⟨ws, hws⟩ := List.head?_eq_some_iff.mp hid
  rw [hws] at hnodup ⊢
  exact (List.nodup_cons.mp hnodup).1

/-- Only the first of those who wait can be lost, and is when nobody is told. -/
theorem Inv.first_kept_iff (h : s.Inv P L) {f : File} (hf : fileAt L key = some f)
    (htail : s'.waiting key = (s.waiting key).tail)
    (hothers : ∀ k, k ≠ key → s'.waiting k = s.waiting k) :
    (∀ k, ∀ id ∈ s.waiting k, id ∈ s'.waiting k ∨
      id ∈ if f.subs.head? = some (-1) then [] else (s.waiting key).head?.toList) ↔
        f.subs.head? ≠ some (-1) := by
  constructor
  · intro hall hminus
    rw [if_pos hminus] at hall
    obtain ⟨w, hw⟩ : ∃ w, (s.waiting key).head? = some w := by
      cases hwaiting : s.waiting key with
      | nil => rw [(h.waiting_eq_nil_iff hf).mp hwaiting] at hminus; cases hminus
      | cons w ws => exact ⟨w, rfl⟩
    have hlost := (hall key w (List.mem_of_mem_head? hw)).resolve_right List.not_mem_nil
    exact h.head_notMem_tail hw (htail ▸ hlost)
  · intro hne k id hid
    rw [if_neg hne]
    by_cases hk : k = key
    · subst hk
      rw [htail]
      cases hwaiting : s.waiting k with
      | nil => rw [hwaiting] at hid; cases hid
      | cons w ws =>
        rw [hwaiting] at hid
        rcases List.mem_cons.mp hid with rfl | hid
        · exact Or.inr (by simp)
        · exact Or.inl hid
    · rw [hothers k hk]
      exact Or.inl hid

/-- The lock is passed on, or nobody waits for it. -/
theorem Inv.record_unlock (h : s.Inv P L)
    (hexec : (Op.unlock key fd).exec P s.table rands = .ok (out, t')) (hcode : out.code = .ok) :
    Recorded P s (.unlock key fd) rands
      (s.record P (.unlock key fd) out t' (((Op.unlock key fd).grants out).map Write.fd)) := by
  obtain ⟨L', f, hstep, hstored, hf, hev, hframe⟩ :=
    h.found hexec rfl (fun _ _ _ => Op.noConfusion) (by rw [hcode]; decide)
  change fileAt L key = some f at hf
  obtain ⟨hown, -, hcases⟩ := (hstep.unlock_cases hf).resolve_left fun hnot => hnot.2.1 hcode
  obtain ⟨g, hfile, hsubs⟩ : ∃ g, fileAt L' key = some g ∧ g.subs = f.subs.tail := by
    rcases hcases with ⟨hnil, hfile⟩ | ⟨sub, rest, hcons, -, hfile⟩
    · exact ⟨_, hfile, by rw [hnil]; rfl⟩
    · exact ⟨_, hfile, by rw [hcons]; rfl⟩
  have hpassed : f.subs = [] ∨ ∃ rest, f.subs = out.newOwner :: rest := by
    rcases hcases with ⟨hnil, -⟩ | ⟨sub, rest, hcons, rfl, -⟩
    · exact Or.inl hnil
    · exact Or.inr ⟨rest, hcons⟩
  generalize hs' : s.record P (.unlock key fd) out t'
    (((Op.unlock key fd).grants out).map Write.fd) = s'
  have hrequests : s'.requests = s.requests ++ [] := by
    rw [← hs']
    rfl
  have hnotified : s'.notified = s.notified ++
      if f.subs.head? = some (-1) then [] else (s.waiting key).head?.toList := by
    rw [← hs', notified_record, Op.key, h.answered_unlock hf hpassed]
  have hothers : ∀ k, k ≠ key → s'.waiting k = s.waiting k := fun k hk => by
    rw [← hs']
    exact h.waiting_record_of_ne hstored _ hk (hframe k hk)
  have htail : s'.waiting key = (s.waiting key).tail := by
    rw [← hs', waiting_record hstored, hfile, Op.key, Function.update_self, Op.waitingAfter,
      if_pos hcode]
    rfl
  have hinv : s'.Inv P L' := by
    refine h.change (hs' ▸ hstored) hfile (fun k hk => ⟨hframe k hk, hothers k hk⟩) hrequests
      hnotified ?_ ?_ ?_ ?_ ?_
    · rw [htail, hrequests, List.append_nil, List.map_tail, h.behind key f hf, ← List.map_tail, hsubs]
    · rw [htail]
      exact (h.nodup key).tail
    · split
      · exact List.nodup_nil
      · cases (s.waiting key).head? with
        | none => exact List.nodup_nil
        | some w => exact List.nodup_singleton w
    · split
      · exact List.nil_subset _
      · exact fun id hid => List.mem_of_mem_head? (Option.mem_toList.mp hid)
    · rw [htail]
      intro id hid
      refine ⟨h.apart key id (List.mem_of_mem_tail hid), fun hmem => ?_⟩
      split at hmem
      · cases hmem
      · exact h.head_notMem_tail (Option.mem_toList.mp hmem) hid
  refine ⟨⟨L', hinv⟩, fun hs => ?_⟩
  have hspares : (Op.unlock key fd).SparesWaiters P s.table rands ↔ f.subs.head? ≠ some (-1) := by
    have hfetch : htableFetchFile P s.table key = .ok (some f) := by rw [h.stored.fetchFile, hf]
    rw [Op.sparesWaiters_iff hexec hev fun _ _ => Op.noConfusion]
    refine ⟨fun hpassed => hpassed key fd f rfl hfetch hown.1 hown.2, fun hne key' fd' f' ho hf' _ _ => ?_⟩
    cases ho
    cases hfetch.symm.trans hf'
    exact hne
  rw [hspares, h.conserved_next_iff hinv hs hnotified
    (fun id x hx => by rwa [hrequests, List.append_nil])
    fun id k fd' hid => Or.inl (by rwa [hrequests, List.append_nil] at hid)]
  exact h.first_kept_iff hf htail hothers

/-- Where no lock is passed on, the waiters are spared when no file goes that is waited for. -/
theorem Inv.sparesWaiters_iff_gone (h : s.Inv P L) {o : Op}
    (hexec : o.exec P s.table rands = .ok (out, t')) (hstep : MapStep (fileAt L) o out (fileAt L'))
    (hpass : ∀ key fd, o = .unlock key fd → out.code ≠ .ok) :
    o.SparesWaiters P s.table rands ↔
      ∀ key f, fileAt L key = some f → fileAt L' key = none → f.subs = [] := by
  constructor
  · intro hspares key f hf hgone
    -- a file goes because it is evicted, or because it is removed
    rcases (hstep.gone_iff hf).mp hgone with hev | ⟨fd, ho, hallowed⟩
    · obtain ⟨e, he, rfl⟩ := List.mem_map.mp hev
      obtain ⟨g, hg, hsubs⟩ := hstep.evicted_subs he
      cases hf.symm.trans hg
      rw [← hsubs]
      exact hspares.evicted out t' hexec e he
    · exact hspares.removed key fd f ho (by rw [h.stored.fetchFile, hf]) hallowed
  · intro hgone
    refine ⟨fun out' t₁ hexec' e he => ?_, fun key fd f ho hf hallowed => ?_,
      fun key fd f ho hf hlocked howner => ?_⟩
    · rw [hexec] at hexec'
      cases hexec'
      obtain ⟨g, hg, hsubs⟩ := hstep.evicted_subs he
      rw [hsubs]
      exact hgone e.key g hg ((hstep.gone_iff hg).mpr (Or.inl (List.mem_map_of_mem he)))
    · rw [h.stored.fetchFile, Except.ok.injEq] at hf
      exact hgone key f hf ((hstep.gone_iff hf).mpr (Or.inr ⟨fd, ho, hallowed⟩))
    · -- an unlock by the owner is never refused
      subst ho
      rw [h.stored.fetchFile, Except.ok.injEq] at hf
      rcases hstep.unlock_cases hf with ⟨hnot, -⟩ | ⟨-, hcode, -⟩
      · exact absurd ⟨hlocked, howner⟩ hnot
      · exact absurd hcode (hpass key fd rfl)

/-- Every other call changes a list only by taking its file away. -/
theorem Inv.record_other (h : s.Inv P L) {o : Op} (hexec : o.exec P s.table rands = .ok (out, t'))
    (hwait : ∀ key fd, o = .lock key fd → out.code ≠ .okWait)
    (hpass : ∀ key fd, o = .unlock key fd → out.code ≠ .ok) :
    Recorded P s o rands (s.record P o out t' ((o.grants out).map Write.fd)) := by
  obtain ⟨L', heffect⟩ := effect_of_exec h.stored hexec
  have hstep := heffect.mapStep h.stored
  have hstored := heffect.stored h.stored
  rw [hstep.grants_eq_nil hpass, List.map_nil]
  generalize hs' : s.record P o out t' [] = s'
  have hrequests : s'.requests = s.requests := by
    rw [← hs', requests_record, Op.queued_eq_nil hwait, List.append_nil]
  have hnotified : s'.notified = s.notified ++ [] := by
    rw [← hs']
    rfl
  have hwaiting : ∀ key, s'.waiting key = if (fileAt L' key).isSome then s.waiting key else [] := by
    intro key
    rw [← hs', waiting_record hstored, Op.waitingAfter_eq hwait hpass, Function.update_eq_self]
  have hstays : ∀ key, fileAt L' key ≠ none → s'.waiting key = s.waiting key := fun key hkey => by
    rw [hwaiting, if_pos (Option.isSome_iff_ne_none.mpr hkey)]
  have hgoes : ∀ key, fileAt L' key = none → s'.waiting key = [] := fun key hkey => by
    rw [hwaiting, hkey]
    rfl
  have hsub : ∀ key, s'.waiting key ⊆ s.waiting key := by
    intro key
    rw [hwaiting]
    split
    · exact fun _ => id
    · exact List.nil_subset _
  have hinv : s'.Inv P L' := by
    refine ⟨hs' ▸ hstored, fun key g hg => ?_, hgoes, fun key => ?_, ?_, ?_, ?_⟩
    · -- the list of a file that stays is as before, and that of a new file is empty
      rw [hstays key (by simp [hg]), hrequests]
      by_cases hkey : key = o.key
      · subst hkey
        cases hf : fileAt L o.key with
        | none => rw [h.absent _ hf, hstep.subs_eq_nil hf hg]; rfl
        | some f => rw [h.behind _ f hf, hstep.subs_eq hwait hpass hf hg]
      · rcases hstep.stored_before hg with hold | ⟨hsame, -⟩
        · exact h.behind key g hold
        · exact absurd hsame hkey
    · rw [hwaiting]
      split
      · exact h.nodup key
      · exact List.nodup_nil
    · rw [hnotified, List.append_nil, hrequests]
      exact h.told
    · rw [hnotified, List.append_nil]
      exact h.once
    · rw [hnotified, List.append_nil]
      exact fun key id hid => h.apart key id (hsub key hid)
  refine ⟨⟨L', hinv⟩, fun hs => ?_⟩
  rw [h.sparesWaiters_iff_gone hexec hstep hpass,
    h.conserved_next_iff hinv hs hnotified (fun id x hx => by rwa [hrequests])
      fun id key fd hid => Or.inl (by rwa [hrequests] at hid)]
  constructor
  · intro hall key f hf hgone
    rw [← h.waiting_eq_nil_iff hf, List.eq_nil_iff_forall_not_mem]
    intro id hid
    rcases hall key id hid with hmem | hmem
    · rw [hgoes key hgone] at hmem
      cases hmem
    · cases hmem
  · intro hgone key id hid
    refine Or.inl ?_
    rwa [hstays key fun hnone => ?_]
    cases hf : fileAt L key with
    | none =>
      rw [h.absent key hf] at hid
      cases hid
    | some f =>
      rw [(h.waiting_eq_nil_iff hf).mpr (hgone key f hf hnone)] at hid
      cases hid

theorem Inv.record (h : s.Inv P L) {o : Op} (hexec : o.exec P s.table rands = .ok (out, t')) :
    Recorded P s o rands (s.record P o out t' ((o.grants out).map Write.fd)) := by
  by_cases hwait : ∃ key fd, o = .lock key fd ∧ out.code = .okWait
  · obtain ⟨key, fd, rfl, hcode⟩ := hwait
    exact h.record_lock hexec hcode
  · by_cases hpass : ∃ key fd, o = .unlock key fd ∧ out.code = .ok
    · obtain ⟨key, fd, rfl, hcode⟩ := hpass
      exact h.record_unlock hexec hcode
    · exact h.record_other hexec (fun key fd ho hcode => hwait ⟨key, fd, ho, hcode⟩)
        fun key fd ho hcode => hpass ⟨key, fd, ho, hcode⟩

end

theorem grantedFds_eq {fd : Int} {code : UInt8} {writes grants : List Write}
    (hstatus : statusWrites writes = ⟨fd, [code], .status⟩ :: grants)
    (hgrants : ∀ w ∈ grants, w.kind = .granted) : grantedFds writes = grants.map Write.fd := by
  have hfilter : writes.filter (·.kind = .granted) = grants := by
    have hsub : (statusWrites writes).filter (·.kind = .granted) =
        writes.filter (·.kind = .granted) := by
      rw [statusWrites, List.filter_filter]
      refine List.filter_congr fun w _ => ?_
      cases w.kind <;> rfl
    rw [← hsub, hstatus, List.filter_cons_of_neg (by simp)]
    exact List.filter_eq_self.mpr fun w hw => decide_eq_true (hgrants w hw)
  rw [grantedFds, hfilter]

/-- A call either does nothing to the table and tells nobody, or is recorded. -/
theorem next_cases {call : ServerCall} (hx : s.next P call = some s') :
    (call.operation = none ∧ s' = s) ∨ ∃ o rands out t', call.operation = some (o, rands) ∧
      o.exec P s.table rands = .ok (out, t') ∧
        s' = s.record P o out t' ((o.grants out).map Write.fd) := by
  cases call with
  | table op rands =>
    obtain ⟨⟨out, t'⟩, hexec, hx⟩ := Option.bind_eq_some_iff.mp hx
    exact Or.inr ⟨op, rands, out, t', rfl, Exec.toOption_eq_some.mp hexec, (Option.some.inj hx).symm⟩
  | request fd op buffer rands =>
    obtain ⟨⟨writes, t'⟩, hhandle, hx⟩ := Option.bind_eq_some_iff.mp hx
    cases handled_of_ok (Exec.toOption_eq_some.mp hhandle) with
    | untouched htable hstatus hone hwrite =>
      simp only [htable] at hx
      cases hx
      exact Or.inl ⟨by simp only [ServerCall.operation, htable], rfl⟩
    | called o out htable hexec hstatus =>
      simp only [htable] at hx
      obtain ⟨⟨out', t₁⟩, hexec', hx⟩ := Option.bind_eq_some_iff.mp hx
      rw [hexec] at hexec'
      cases hexec'
      have hgrants : ∀ w ∈ o.grants out, w.kind = .granted := by
        intro w hw
        cases o with
        | unlock key fd' =>
          simp only [Op.grants] at hw
          split at hw
          · obtain rfl := List.mem_singleton.mp hw
            rfl
          · cases hw
        | create | «open» | close | lock | remove | replace | append => cases hw
      refine Or.inr ⟨o, rands, out, t', by simp only [ServerCall.operation, htable], hexec, ?_⟩
      rw [← grantedFds_eq hstatus hgrants]
      exact (Option.some.inj hx).symm

/-! ## 4. The runs -/

/-- The condition on a call. -/
def SparesAt (P : Platform) (s : WaitLedger) (call : ServerCall) : Prop :=
  ∀ o rands, call.operation = some (o, rands) → o.SparesWaiters P s.table rands

theorem Inv.next (h : s.Inv P L) {call : ServerCall} (hx : s.next P call = some s') :
    (∃ L', s'.Inv P L') ∧ (s.Conserved → (s'.Conserved ↔ s.SparesAt P call)) := by
  rcases next_cases hx with ⟨hnone, rfl⟩ | ⟨o, rands, out, t', hop, hexec, rfl⟩
  · refine ⟨⟨L, h⟩, fun hs => iff_of_true hs fun o rands hop => ?_⟩
    rw [hnone] at hop
    cases hop
  · obtain ⟨hinv, hconserved⟩ := h.record hexec
    refine ⟨hinv, fun hs => (hconserved hs).trans ⟨fun hx o' rands' hop' => ?_, fun hx => ?_⟩⟩
    · rw [hop] at hop'
      cases hop'
      exact hx
    · exact hx o rands hop

theorem inv_start {buckets : Nat} {config : Config} {t : HTable}
    (hcreate : htableCreate buckets config = .ok t) :
    (start t).Inv P (List.replicate buckets []) where
  stored := stored_create hcreate
  behind := fun key f hf => by simp [fileAt, lookup] at hf
  absent := fun _ _ => rfl
  nodup := fun _ => List.nodup_nil
  told := nofun
  once := List.nodup_nil
  apart := fun _ _ => nofun

/-- In every run the lists of the stored files are those of the requests that wait.  All requests
that were queued wait or were notified once, in every state, exactly when no call of the run takes
away a file that is waited for, or passes a lock on to the descriptor -1. -/
theorem waiters_conserved_iff {buckets : Nat} {config : Config}
    {tr : List (WaitLedger × ServerCall)} (run : Runs P buckets config tr s) :
    (∀ s' ∈ statesOf tr s, s'.ListsMatch P) ∧
      ((∀ s' ∈ statesOf tr s, s'.Conserved) ↔ ∀ x ∈ tr, x.1.SparesAt P x.2) := by
  obtain ⟨t₀, hcreate, run⟩ := run
  constructor
  · have hinv := run.invariant_states (fun s => ∃ L, s.Inv P L) (fun _ _ => True)
      ⟨_, inv_start hcreate⟩ (fun _ _ _ ⟨_, h⟩ _ hx => (h.next hx).1) fun _ _ => trivial
    intro s' hs'
    obtain ⟨L, h⟩ := hinv s' hs'
    exact h.listsMatch
  · exact run.good_iff (fun s => ∃ L, s.Inv P L) Conserved (SparesAt P) ⟨_, inv_start hcreate⟩ nofun
      (fun _ _ _ ⟨_, h⟩ hx => (h.next hx).1) fun _ _ _ ⟨_, h⟩ hs hx => (h.next hx).2 hs

/-- Nothing is evicted or removed, and no lock is passed on to the descriptor -1. -/
def sparing (P : Platform) (s : WaitLedger) (call : ServerCall) : Bool :=
  call.operation.all fun (o, rands) =>
    (o.exec P s.table rands).any (fun r => r.1.evicted.isEmpty) &&
      match o with
      | .remove _ _ => false
      | .unlock key _ => (htableFetchFile P s.table key).any fun found =>
          found.all fun f => decide (f.subs.head? ≠ some (-1))
      | _ => true

theorem sparesAt_of_sparing {call : ServerCall} (h : s.sparing P call = true) :
    s.SparesAt P call := by
  intro o rands hop
  simp only [sparing, hop, Option.all_some, Bool.and_eq_true] at h
  obtain ⟨hquiet, hlist⟩ := h
  obtain ⟨⟨out, t'⟩, hexec, hnone⟩ := Exec.any_eq_true.mp hquiet
  refine (Op.sparesWaiters_iff hexec (List.isEmpty_iff.mp hnone) fun key fd ho => ?_).mpr
    fun key fd f ho hf _ _ => ?_
  · rw [ho] at hlist
    cases hlist
  · rw [ho] at hlist
    obtain ⟨found, hfound, hall⟩ := Exec.any_eq_true.mp hlist
    cases hf.symm.trans hfound
    exact of_decide_eq_true hall

theorem runs_of_calls (P : Platform) (buckets : Nat) (config : Config) (calls : List ServerCall)
    (test : List (WaitLedger × ServerCall) → WaitLedger → Bool)
    (hx : ((htableCreate buckets config).toOption.bind fun t =>
      replay (next P) (start t) calls).any (fun r => test r.1 r.2) = true) :
    ∃ tr s, Runs P buckets config tr s ∧ test tr s = true := by
  obtain ⟨x, hreplay, htest⟩ := (Option.any_eq_true _ _).mp hx
  obtain ⟨t₀, hcreate, hreplay⟩ := Option.bind_eq_some_iff.mp hreplay
  exact ⟨x.1, x.2, ⟨t₀, Exec.toOption_eq_some.mp hcreate,
    Run.of_replay (fun _ _ _ h => h) hreplay⟩, htest⟩

/-- 4 waits for the file that 3 has created with the lock, and is told when 3 unlocks it. -/
theorem waiters_conserved_told :
    ∃ tr s, Runs samplePlatform 1 ⟨10, 10, .fifo⟩ tr s ∧ s.requests = [(bufToStr [97], 4)] ∧
      s.notified = [0] ∧ ∀ s' ∈ statesOf tr s, s'.Conserved := by
  obtain ⟨tr, s, run, htest⟩ := runs_of_calls samplePlatform 1 ⟨10, 10, .fifo⟩
    [.request 3 .openFileCreateLock [97] [], .request 4 .lockFile [97] [],
      .request 3 .unlockFile [97] []]
    (fun tr s => decide (s.requests = [(bufToStr [97], 4)] ∧ s.notified = [0]) &&
      tr.all fun x => x.1.sparing samplePlatform x.2)
    (by decide +kernel)
  rw [Bool.and_eq_true, decide_eq_true_eq, List.all_eq_true] at htest
  obtain ⟨⟨hrequests, hnotified⟩, hsparing⟩ := htest
  exact ⟨tr, s, run, hrequests, hnotified, (waiters_conserved_iff run).2.mpr fun x hx =>
    sparesAt_of_sparing (hsparing x hx)⟩

/-- 4 waits for the file that 3 has created with the lock; 3 removes it, and 4 is never told. -/
theorem waiter_forgotten :
    ¬∀ (P : Platform) (buckets : Nat) (config : Config) (tr : List (WaitLedger × ServerCall))
      (s : WaitLedger), Runs P buckets config tr s → ∀ s' ∈ statesOf tr s, s'.Conserved := by
  intro hclaim
  obtain ⟨tr, s, run, htest⟩ := runs_of_calls samplePlatform 1 ⟨10, 10, .fifo⟩
    [.request 3 .openFileCreateLock [97] [], .request 4 .lockFile [97] [],
      .request 3 .removeFile [97] []]
    (fun _ s => decide (s.requests = [(bufToStr [97], 4)] ∧ s.waiting (bufToStr [97]) = [] ∧
      s.notified = []))
    (by decide +kernel)
  obtain ⟨hrequests, hwaiting, hnotified⟩ := of_decide_eq_true htest
  have hconserved := hclaim _ _ _ _ _ run s (by simp [statesOf]) 0 (bufToStr [97]) 4
    (by rw [hrequests]; rfl)
  rw [hwaiting, hnotified] at hconserved
  simp at hconserved

end WaitLedger

end FileStorage.Server
