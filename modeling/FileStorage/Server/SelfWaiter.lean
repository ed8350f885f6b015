import FileStorage.Server.Steps

/-!
# SelfWaiter — an owner that waits for its own lock

The lock of a file goes to the descriptor that created, opened or locked the file, or to the first
waiter.  None of the four operations looks whether the new owner is among the waiters.
-/

namespace FileStorage.Server

/-- A locked file is not waited for by its owner. -/
def File.OwnerApart (f : File) : Prop := f.isLocked → f.fdOwner ∉ f.subs

/-- The operation makes the owner of the file one of its waiters: its owner locks it once more, a
waiter opens it with the lock while it is not locked, or the lock goes to a descriptor that waits
for it twice. -/
def Op.ownerWaits : Op → File → Prop
  | .lock _ fd, f => f.isLocked ∧ f.fdOwner = fd
  | .open _ fd withLock, f => withLock ∧ ¬f.isOpen ∧ ¬f.isLocked ∧ fd ∈ f.subs
  | .unlock _ fd, f => f.isLocked ∧ f.fdOwner = fd ∧ ∃ sub ∈ f.subs.head?, sub ∈ f.subs.tail
  | _, _ => False

instance : (op : Op) → (f : File) → Decidable (op.ownerWaits f)
  | .lock _ _, _ | .open _ _ _, _ | .unlock _ _, _ => by
      unfold Op.ownerWaits
      infer_instance
  | .create _ _ _, _ | .close _ _, _ | .remove _ _, _ | .replace _ _, _ | .append _ _, _ =>
      inferInstanceAs (Decidable False)

namespace HTable

/-- No locked file is waited for by its owner. -/
def OwnersApart (P : Platform) (t : HTable) : Prop :=
  ∀ key f, htableFetchFile P t key = .ok (some f) → f.OwnerApart

/-- An unlock that answers `HTABLE_ERR_OK` does not leave the file locked by who unlocked it. -/
def UnlocksPass (P : Platform) (t : HTable) : Prop :=
  ∀ key fd rands out t', (Op.unlock key fd).exec P t rands = .ok (out, t') → out.code = .ok →
    ∀ g, htableFetchFile P t' key = .ok (some g) → g.isLocked → g.fdOwner ≠ fd

end HTable

/-! ## 1. One file -/

section

variable {op : Op} {f g : File} {code : HTableError} {newOwner : Int}

theorem Op.not_ownerWaits_of_refuse (h : op.verdict (some f) = .refuse code) :
    ¬op.ownerWaits f := by
  cases op with
  | create | close | remove | replace | append => exact id
  | «open» key fd withLock =>
    rintro ⟨-, hopen, hlocked, -⟩
    simp [Op.verdict, File.lockedAgainst, hopen, hlocked] at h
  | lock key fd =>
    rintro ⟨hlocked, -⟩
    simp [Op.verdict, hlocked] at h
  | unlock key fd =>
    rintro ⟨hlocked, howner, sub, hhead, -⟩
    cases hsubs : f.subs with
    | nil => simp [Op.verdict, hlocked, howner, hsubs] at h
    | cons sub rest => simp [Op.verdict, hlocked, howner, hsubs] at h

theorem Op.verdict_open_ownerApart {key : CStr} {fd : Int} {withLock : Bool}
    (h : (Op.open key fd withLock).verdict (some f) = .put code newOwner g) (hf : f.OwnerApart) :
    g.OwnerApart ↔ ¬(Op.open key fd withLock).ownerWaits f := by
  simp only [Op.verdict] at h
  split at h
  · cases h
  · rename_i hopen
    split at h
    · cases h
    · rename_i hallowed
      cases h
      have hown : f.isLocked → f.fdOwner = fd := fun hlocked =>
        not_not.mp fun hne => hallowed ⟨hlocked, hne⟩
      constructor
      · rintro hg ⟨hlock, -, -, hmem⟩
        exact hg hlock hmem
      · intro hnot hlock hmem
        -- the file was not locked, or its owner would have been among the waiters before
        refine hnot ⟨hlock, hopen, fun hlocked => hf hlocked ?_, hmem⟩
        rwa [hown hlocked]

theorem Op.verdict_lock_ownerApart {key : CStr} {fd : Int}
    (h : (Op.lock key fd).verdict (some f) = .put code newOwner g) (hf : f.OwnerApart) :
    g.OwnerApart ↔ ¬(Op.lock key fd).ownerWaits f := by
  simp only [Op.verdict] at h
  split at h
  · -- it is locked, and `fd` is queued whoever has the lock
    rename_i hlocked
    cases h
    constructor
    · rintro hg ⟨-, howner⟩
      exact hg hlocked (howner ▸ List.mem_cons_self)
    · intro hnot _ hmem
      rcases List.mem_cons.mp hmem with howner | hmem
      · exact hnot ⟨hlocked, howner⟩
      · exact hf hlocked hmem
  · -- it is free, and by the assertion nobody waits
    rename_i hlocked
    split at h
    · cases h
    · rename_i hsubs
      cases h
      refine iff_of_true (fun _ => ?_) fun hwaits => hlocked hwaits.1
      show fd ∉ f.subs
      rw [not_not.mp hsubs]
      exact List.not_mem_nil

theorem Op.verdict_unlock_ownerApart {key : CStr} {fd : Int}
    (h : (Op.unlock key fd).verdict (some f) = .put code newOwner g) :
    g.OwnerApart ↔ ¬(Op.unlock key fd).ownerWaits f := by
  simp only [Op.verdict] at h
  split at h
  · cases h
  · rename_i hlocked
    split at h
    · cases h
    · rename_i howner
      split at h
      · -- nobody waits, and the file is unlocked
        rename_i hsubs
        cases h
        refine iff_of_true (fun hlocked' => Bool.noConfusion hlocked') ?_
        rintro ⟨-, -, sub, hhead, -⟩
        rw [hsubs] at hhead
        cases hhead
      · -- the lock goes to the first waiter
        rename_i sub rest hsubs
        cases h
        constructor
        · rintro hg ⟨-, -, sub', hhead, hmem⟩
          rw [hsubs] at hhead hmem
          cases hhead
          exact hg rfl hmem
        · intro hnot _ hmem
          refine hnot ⟨by simpa using hlocked, not_not.mp howner, newOwner, ?_⟩
          rw [hsubs]
          exact ⟨rfl, hmem⟩

/-- The owner is apart from the waiters after an operation exactly when this is not one of the
three. -/
theorem Op.verdict_ownerApart (h : op.verdict (some f) = .put code newOwner g)
    (hf : f.OwnerApart) : g.OwnerApart ↔ ¬op.ownerWaits f := by
  cases op with
  | create => cases h
  | «open» => exact Op.verdict_open_ownerApart h hf
  | close key fd =>
    simp only [Op.verdict] at h
    split at h
    · cases h
    · split at h
      · cases h
      · cases h
        exact iff_of_true hf id
  | lock => exact Op.verdict_lock_ownerApart h hf
  | unlock => exact Op.verdict_unlock_ownerApart h
  | remove key fd =>
    simp only [Op.verdict] at h
    split at h
    · cases h
    · cases h
  | replace | append =>
    cases h
    exact iff_of_true hf id

theorem Op.verdict_none_ownerApart (h : op.verdict none = .put code newOwner g) :
    g.OwnerApart := by
  cases op with
  | create =>
    cases h
    exact fun _ => List.not_mem_nil
  | «open» | close | lock | unlock | remove | replace | append => cases h

end

/-! ## 2. The table -/

/-- An operation keeps all owners apart exactly when it does not set its own one to wait. -/
theorem MapStep.ownersApart {m m' : FileMap} {op : Op} {out : Outcome} (h : MapStep m op out m')
    (hm : ∀ key f, m key = some f → f.OwnerApart) :
    (∀ key f, m' key = some f → f.OwnerApart) ↔ ∀ f, m op.key = some f → ¬op.ownerWaits f := by
  constructor
  · intro hm' f hf
    cases h with
    | refuse hverdict =>
      rw [hf] at hverdict
      exact Op.not_ownerWaits_of_refuse hverdict
    | put hverdict hev hquiet =>
      rename_i code newOwner g evicted
      rw [hf] at hverdict
      intro hwaits
      -- a write, which alone evicts, is none of the three
      have hop : op.writes = false := by
        cases op with
        | replace | append => exact absurd hwaits id
        | create | «open» | close | lock | unlock | remove => rfl
      obtain rfl := hquiet hop
      cases hev
      have hg := hm' op.key g (Function.update_self ..)
      exact (Op.verdict_ownerApart hverdict (hm _ f hf)).mp hg hwaits
    | drop hverdict =>
      rw [hf] at hverdict
      cases op with
      | remove => exact id
      | create | «open» | close | lock | unlock | replace | append =>
        simp only [Op.verdict] at hverdict
        grind
  · intro hok key g hg
    rcases h.stored_before hg with hold | ⟨rfl, code, newOwner, hverdict⟩
    · exact hm key g hold
    · cases hf : m op.key with
      | none =>
        rw [hf] at hverdict
        exact Op.verdict_none_ownerApart hverdict
      | some f =>
        rw [hf] at hverdict
        exact (Op.verdict_ownerApart hverdict (hm _ f hf)).mpr (hok f hf)

/-- After an unlock by the owner somebody else has the lock, if anybody has. -/
theorem MapStep.unlock_passes {m m' : FileMap} {key : CStr} {fd : Int} {out : Outcome}
    (h : MapStep m (.unlock key fd) out m') (hm : ∀ key f, m key = some f → f.OwnerApart)
    (hok : out.code = .ok) {g : File} (hg : m' key = some g) (hlocked : g.isLocked) :
    g.fdOwner ≠ fd := by
  cases hf : m key with
  | none =>
    rcases h.stored_before hg with hold | ⟨-, code, newOwner, hverdict⟩
    · rw [hf] at hold
      cases hold
    · simp [Op.key, hf, Op.verdict] at hverdict
  | some f =>
    rcases h.unlock_cases hf with ⟨-, hcode, -⟩ | ⟨⟨hbefore, howner⟩, -, hcases⟩
    · exact absurd hok hcode
    · rcases hcases with ⟨-, hfree⟩ | ⟨sub, rest, hsubs, -, hpassed⟩
      · rw [hfree] at hg
        cases hg
        cases hlocked
      · rw [hpassed] at hg
        cases hg
        -- the new owner was a waiter, and the old one was not
        rintro rfl
        refine hm key f hf hbefore ?_
        rw [howner, hsubs]
        exact List.mem_cons_self

/-! ## 3. The runs -/

theorem Stored.ownersApart_iff {P : Platform} {t : HTable} {L : Contents} (h : Stored P t L) :
    t.OwnersApart P ↔ ∀ key f, fileAt L key = some f → f.OwnerApart := by
  simp only [HTable.OwnersApart, h.fetchFile, Except.ok.injEq]

theorem Stored.unlocksPass {P : Platform} {t : HTable} {L : Contents} (h : Stored P t L)
    (hapart : t.OwnersApart P) : t.UnlocksPass P := by
  intro key fd rands out t' hexec hok g hg
  obtain ⟨L', heffect⟩ := effect_of_exec h hexec
  rw [(heffect.stored h).fetchFile, Except.ok.injEq] at hg
  exact (heffect.mapStep h).unlock_passes (h.ownersApart_iff.mp hapart) hok hg

/-- In every state of a run no owner waits for its own lock, and every unlock passes the lock on,
exactly when no operation of the run sets an owner to wait. -/
theorem owners_apart_iff {P : Platform} {buckets : Nat} {config : Config}
    {tr : List (HTable × Call)} {t : HTable} (run : SequentialRun P buckets config tr t) :
    (∀ s ∈ statesOf tr t, s.OwnersApart P ∧ s.UnlocksPass P) ↔
      ∀ x ∈ tr, ∀ f, htableFetchFile P x.1 x.2.op.key = .ok (some f) → ¬x.2.op.ownerWaits f := by
  have hstates : ∀ s ∈ statesOf tr t, ∃ L, Stored P s L := by
    intro s hs
    obtain ⟨tr', run', -⟩ := run.of_state hs
    exact run'.stored
  obtain ⟨t₀, hcreate, steps⟩ := run
  have hstart : t₀.OwnersApart P := by
    rw [(stored_create hcreate).ownersApart_iff]
    intro key f hf
    simp [fileAt, lookup] at hf
  rw [← steps.good_iff (fun s => ∃ L, Stored P s L) (HTable.OwnersApart P)
    (fun s c => ∀ f, htableFetchFile P s c.op.key = .ok (some f) → ¬c.op.ownerWaits f)
    ⟨_, stored_create hcreate⟩ hstart]
  · constructor
    · exact fun hall s hs => (hall s hs).1
    · intro hapart s hs
      obtain ⟨L, h⟩ := hstates s hs
      exact ⟨hapart s hs, h.unlocksPass (hapart s hs)⟩
  · rintro s c s' ⟨L, h⟩ ⟨out, hexec⟩
    obtain ⟨L', heffect⟩ := effect_of_exec h hexec
    exact ⟨L', heffect.stored h⟩
  · rintro s c s' ⟨L, h⟩ hgood ⟨out, hexec⟩
    obtain ⟨L', heffect⟩ := effect_of_exec h hexec
    rw [(heffect.stored h).ownersApart_iff,
      (heffect.mapStep h).ownersApart (h.ownersApart_iff.mp hgood)]
    simp only [h.fetchFile, Except.ok.injEq]

/-- 3 locks a file, 4 waits for it, and the lock goes to 4. -/
theorem owners_apart_handed_over :
    ∃ tr t, SequentialRun samplePlatform 1 ⟨10, 10, .fifo⟩ tr t ∧ tr.length = 3 ∧
      ∀ s ∈ statesOf tr t, s.OwnersApart samplePlatform ∧ s.UnlocksPass samplePlatform := by
  obtain ⟨tr, t, run, htest⟩ := SequentialRun.of_run_test samplePlatform 1 ⟨10, 10, .fifo⟩
    [⟨.create (bufToStr [97]) 3 true, []⟩, ⟨.lock (bufToStr [97]) 4, []⟩,
      ⟨.unlock (bufToStr [97]) 3, []⟩]
    (fun tr _ => tr.length == 3 && tr.all fun x =>
      (htableFetchFile samplePlatform x.1 x.2.op.key).any fun found =>
        found.all fun f => !decide (x.2.op.ownerWaits f))
    (by decide +kernel)
  rw [Bool.and_eq_true, beq_iff_eq, List.all_eq_true] at htest
  refine ⟨tr, t, run, htest.1, (owners_apart_iff run).mpr fun x hx f hf hwaits => ?_⟩
  have hnot := htest.2 x hx
  simp [hf, Exec.any, hwaits] at hnot

/-- 3 locks the file that it has created with the lock. -/
theorem owner_waits_for_itself :
    ¬∀ (P : Platform) (buckets : Nat) (config : Config) (tr : List (HTable × Call)) (t : HTable),
      SequentialRun P buckets config tr t →
        ∀ s ∈ statesOf tr t, s.OwnersApart P ∧ s.UnlocksPass P := by
  intro hclaim
  obtain ⟨tr, t, run, htest⟩ := SequentialRun.of_run_test samplePlatform 1 ⟨10, 10, .fifo⟩
    [⟨.create (bufToStr [97]) 3 true, []⟩, ⟨.lock (bufToStr [97]) 3, []⟩]
    (fun _ t => (htableFetchFile samplePlatform t (bufToStr [97])).anySome fun f =>
      decide (f.isLocked ∧ f.fdOwner ∈ f.subs))
    (by decide +kernel)
  obtain ⟨f, hf, hself⟩ := Exec.anySome_eq_true.mp htest
  obtain ⟨hlocked, hmem⟩ := of_decide_eq_true hself
  exact (hclaim _ _ _ _ _ run t (by simp [statesOf])).1 _ f hf hlocked hmem

end FileStorage.Server
