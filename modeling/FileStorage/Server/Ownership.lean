import FileStorage.Server.StoreMap

/-!
# Ownership — who holds the lock of a file, and who waits for it
-/

namespace FileStorage.Server

/-! ## 1. Waiters -/

/-- Nobody waits for a file that nobody has locked. -/
def FileMap.Quiet (m : FileMap) : Prop :=
  ∀ key f, m key = some f → f.isLocked = false → f.subs = []

/-- The owner of a closed file opens it without `O_LOCK` while others wait for it: `open` writes
`is_locked` and leaves the waiters behind. -/
def Op.strands (f : File) : Op → Prop
  | .open _ fd withLock =>
      withLock = false ∧ f.isOpen = false ∧ f.isLocked = true ∧ f.fdOwner = fd ∧ f.subs ≠ []
  | _ => False

instance (f : File) (op : Op) : Decidable (op.strands f) :=
  match op with
  | .open _ _ _ => inferInstanceAs (Decidable (_ ∧ _))
  | .create _ _ _ | .close _ _ | .lock _ _ | .unlock _ _ | .remove _ _ | .replace _ _
  | .append _ _ => inferInstanceAs (Decidable False)

namespace MapStep

variable {m m' : FileMap} {op : Op} {out : Outcome}

theorem quiet (h : MapStep m op out m') (hm : m.Quiet)
    (hop : ∀ f, m op.key = some f → ¬op.strands f) : m'.Quiet := by
  intro key g hg hunlocked
  rcases h.stored_before hg with hold | ⟨-, code, newOwner, hverdict⟩
  · exact hm key g hold hunlocked
  · cases hf : m op.key with
    | none =>
      rw [hf] at hverdict
      cases op <;> simp only [Op.verdict, Verdict.put.injEq] at hverdict <;> cases hverdict
      rename_i hnew
      rw [← hnew.2]
      rfl
    | some f =>
      have hnot := hop f hf
      have hsubs := hm op.key f hf
      rw [hf] at hverdict
      cases op <;> simp only [Op.verdict] at hverdict <;>
        grind [Op.strands, File.lockedAgainst, File.withBytes]

/-- The converse: stranding waiters is all it takes. -/
theorem not_quiet (h : MapStep m op out m') {f : File} (hf : m op.key = some f)
    (hop : op.strands f) : ¬m'.Quiet := by
  cases op with
  | «open» key fd withLock =>
    obtain ⟨rfl, hopen, hlocked, howner, hsubs⟩ := hop
    have hverdict : Op.verdict (.open key fd false) (some f) =
        .put .ok (-1) { f with isOpen := true, isLocked := false, fdOwner := fd } := by
      simp [Op.verdict, hopen, File.lockedAgainst, howner]
    rcases h.own_key (by simp [h.evicted_eq_nil rfl]) with ⟨code, hv, -⟩ | ⟨code, newOwner, g, hv, hg⟩ | ⟨hv, -⟩
    · rw [hf, hverdict] at hv
      cases hv
    · rw [hf, hverdict] at hv
      cases hv
      intro hquiet
      have hleft := hquiet _ _ hg
      exact hsubs (hleft rfl)
    · rw [hf, hverdict] at hv
      cases hv
  | create | close | lock | unlock | remove | replace | append => exact hop.elim

end MapStep

/-- No waiter is left behind on an unlocked file of the table. -/
def NoOrphanWaiters (P : Platform) (t : HTable) : Prop :=
  ∀ key f, htableFetchFile P t key = .ok (some f) → f.isLocked = false → f.subs = []

/-- The assertion of `htable_lock_file` holds, whoever locks whichever file next. -/
def LockAssertionHolds (P : Platform) (t : HTable) : Prop :=
  ∀ key fd, htableLockFile P t key fd ≠ .error .assertion

theorem noOrphanWaiters_iff {P : Platform} {t : HTable} {L : Contents} (hs : Stored P t L) :
    NoOrphanWaiters P t ↔ FileMap.Quiet (fileAt L) := by
  simp only [NoOrphanWaiters, FileMap.Quiet, hs.fetchFile, Except.ok.injEq]

theorem NoOrphanWaiters.lockAssertionHolds {P : Platform} {t : HTable} {L : Contents}
    (hs : Stored P t L) (h : NoOrphanWaiters P t) : LockAssertionHolds P t := by
  intro key fd hassert
  rcases hs.fetchItem key with ⟨-, hfetch⟩ | ⟨a, item, hsome, -, -, hfetch⟩
  · simp [htableLockFile, hfetch] at hassert
  · have hfile : htableFetchFile P t key = .ok (some item.file) := by
      rw [hs.fetchFile, fileAt_of_lookup hsome]
    by_cases hlocked : item.file.isLocked
    · simp [htableLockFile, hfetch, hlocked] at hassert
    · have hsubs := h key item.file hfile (by simpa using hlocked)
      simp [htableLockFile, hfetch, hlocked, hsubs] at hassert

namespace SequentialRun

variable {P : Platform} {buckets : Nat} {config : Config} {tr : List (HTable × Call)} {t : HTable}

theorem noOrphanWaiters (run : SequentialRun P buckets config tr t)
    (hcalls : ∀ x ∈ tr, ∀ f, htableFetchFile P x.1 x.2.op.key = .ok (some f) →
      ¬x.2.op.strands f) : NoOrphanWaiters P t := by
  obtain ⟨t₀, hcreate, run⟩ := run
  have hstored := stored_create (P := P) hcreate
  have hinv := run.invariant (fun t => ∃ L, Stored P t L ∧ FileMap.Quiet (fileAt L))
    (fun t c => ∀ f, htableFetchFile P t c.op.key = .ok (some f) → ¬c.op.strands f)
    ⟨_, hstored, ?_⟩ ?_ hcalls
  · obtain ⟨L, hs, hquiet⟩ := hinv
    exact (noOrphanWaiters_iff hs).mpr hquiet
  · intro key f hf
    simp [fileAt, lookup] at hf
  · rintro s c s' ⟨L, hs, hquiet⟩ hcall ⟨out, hexec⟩
    obtain ⟨L', heffect⟩ := effect_of_exec hs hexec
    refine ⟨L', heffect.stored hs, (heffect.mapStep hs).quiet hquiet fun f hf => hcall f ?_⟩
    rw [hs.fetchFile, hf]

end SequentialRun

/-- Over a run, no waiter is left behind and the assertion of `htable_lock_file` holds in every
state exactly when nobody re-opens a file this way. -/
theorem waiters_kept_iff {P : Platform} {buckets : Nat} {config : Config}
    {tr : List (HTable × Call)} {t : HTable} (run : SequentialRun P buckets config tr t) :
    (∀ s ∈ statesOf tr t, NoOrphanWaiters P s ∧ LockAssertionHolds P s) ↔
      ∀ x ∈ tr, ∀ f, htableFetchFile P x.1 x.2.op.key = .ok (some f) → ¬x.2.op.strands f := by
  constructor
  · intro hall x hx f hf hop
    obtain ⟨t₀, hcreate, steps⟩ := run
    obtain ⟨s', hs', out, hexec⟩ := steps.next_mem x hx
    have hmem : x.1 ∈ statesOf tr t := List.mem_append_left _ (List.mem_map_of_mem hx)
    obtain ⟨tr', run', -⟩ := SequentialRun.of_state ⟨t₀, hcreate, steps⟩ hmem
    obtain ⟨L, hs⟩ := run'.stored
    obtain ⟨L', heffect⟩ := effect_of_exec hs hexec
    rw [hs.fetchFile, Except.ok.injEq] at hf
    have hquiet := (noOrphanWaiters_iff (heffect.stored hs)).mp (hall s' hs').1
    exact (heffect.mapStep hs).not_quiet hf hop hquiet
  · intro hcalls s hs
    obtain ⟨tr', run', hpre⟩ := run.of_state hs
    obtain ⟨L, hstored⟩ := run'.stored
    have hquiet := run'.noOrphanWaiters fun x hx => hcalls x (hpre.subset hx)
    exact ⟨hquiet, hquiet.lockAssertionHolds hstored⟩

/-- 3 creates a locked file, 4 waits for it, 3 closes it and opens it again without `O_LOCK`. -/
theorem waiters_left_behind :
    ¬∀ (P : Platform) (buckets : Nat) (config : Config) (tr : List (HTable × Call)) (t : HTable),
      SequentialRun P buckets config tr t → NoOrphanWaiters P t ∧ LockAssertionHolds P t := by
  intro hclaim
  obtain ⟨tr, t, run, htest⟩ := SequentialRun.of_run_test samplePlatform 1 ⟨10, 10, .fifo⟩
    [⟨.create (bufToStr [97]) 3 true, []⟩, ⟨.lock (bufToStr [97]) 4, []⟩,
      ⟨.close (bufToStr [97]) 3, []⟩, ⟨.open (bufToStr [97]) 3 false, []⟩]
    (fun _ t => decide (htableLockFile samplePlatform t (bufToStr [97]) 5 = .error .assertion))
    (by decide +kernel)
  exact (hclaim _ _ _ _ _ run).2 _ _ (of_decide_eq_true htest)

/-- With `O_LOCK` the re-opened file keeps its lock and the waiter gets it later. -/
theorem waiters_kept_with_lock_flag :
    ∃ tr t, SequentialRun samplePlatform 1 ⟨10, 10, .fifo⟩ tr t ∧ tr.length = 5 ∧
      ∀ s ∈ statesOf tr t, NoOrphanWaiters samplePlatform s ∧
        LockAssertionHolds samplePlatform s := by
  obtain ⟨tr, t, run, htest⟩ := SequentialRun.of_run_test samplePlatform 1 ⟨10, 10, .fifo⟩
    [⟨.create (bufToStr [97]) 3 true, []⟩, ⟨.lock (bufToStr [97]) 4, []⟩,
      ⟨.close (bufToStr [97]) 3, []⟩, ⟨.open (bufToStr [97]) 3 true, []⟩,
      ⟨.unlock (bufToStr [97]) 3, []⟩]
    (fun tr _ => tr.length == 5 && tr.all fun x =>
      (htableFetchFile samplePlatform x.1 x.2.op.key).any fun file =>
        file.all fun f => decide (¬x.2.op.strands f))
    (by decide +kernel)
  rw [Bool.and_eq_true, beq_iff_eq, List.all_eq_true] at htest
  refine ⟨tr, t, run, htest.1, (waiters_kept_iff run).mpr fun x hx f hf => ?_⟩
  obtain ⟨file, hfile, hcall⟩ := Exec.any_eq_true.mp (htest.2 x hx)
  rw [hf] at hfile
  cases hfile
  exact of_decide_eq_true hcall

/-! ## 2. Owners -/

/-- `fd` may have issued the operation; the two writes do not tell who did. -/
def Op.issuedBy (fd : Int) : Op → Prop
  | .create _ fd' _ | .open _ fd' _ | .close _ fd' | .lock _ fd' | .unlock _ fd'
  | .remove _ fd' => fd' = fd
  | .replace _ _ | .append _ _ => True

namespace MapStep

variable {m m' : FileMap} {op : Op} {out : Outcome} {key : CStr} {f : File}

/-- Nobody but the owner takes the lock away or opens or closes the file. -/
theorem kept_from_others (h : MapStep m op out m') (hf : m key = some f) (hlocked : f.isLocked)
    (hev : key ∉ out.evicted.map File.key) {b : Int} (hissued : op.issuedBy b) (hb : 0 ≤ b)
    (hne : b ≠ f.fdOwner) :
    ∃ f', m' key = some f' ∧ f'.isLocked ∧ f'.fdOwner = f.fdOwner ∧ f'.isOpen = f.isOpen := by
  by_cases hkey : key = op.key
  · subst hkey
    rcases h.own_key hev with ⟨code, -, hsame⟩ | ⟨code, newOwner, g, hverdict, hg⟩ | ⟨hverdict, -⟩
    · exact ⟨f, hsame.trans hf, hlocked, rfl, rfl⟩
    · refine ⟨g, hg, ?_⟩
      rw [hf] at hverdict
      cases op <;> simp only [Op.verdict, Op.issuedBy] at hverdict hissued <;>
        grind [File.lockedAgainst, File.withBytes]
    · rw [hf] at hverdict
      cases op <;> simp only [Op.verdict, Op.issuedBy] at hverdict hissued <;>
        grind [File.lockedAgainst]
  · exact ⟨f, (h.frame hkey hev).trans hf, hlocked, rfl, rfl⟩

/-- The lock goes from one owner to another only when the first one unlocks. -/
theorem handed_over (h : MapStep m op out m') (hf : m key = some f) (hlocked : f.isLocked)
    (hev : key ∉ out.evicted.map File.key) {f' : File} (hf' : m' key = some f')
    (hlocked' : f'.isLocked) (hne : f'.fdOwner ≠ f.fdOwner) :
    op = .unlock key f.fdOwner ∧ f.subs = f'.fdOwner :: f'.subs := by
  by_cases hkey : key = op.key
  · subst hkey
    rcases h.own_key hev with ⟨code, -, hsame⟩ | ⟨code, newOwner, g, hverdict, hg⟩ | ⟨-, hnone⟩
    · obtain rfl := Option.some.inj (hf.symm.trans (hsame.symm.trans hf'))
      exact absurd rfl hne
    · obtain rfl := Option.some.inj (hg.symm.trans hf')
      rw [hf] at hverdict
      cases op <;> simp only [Op.verdict] at hverdict <;>
        grind [File.lockedAgainst, File.withBytes, Op.key]
    · rw [hf'] at hnone
      cases hnone
  · obtain rfl := Option.some.inj (hf.symm.trans ((h.frame hkey hev).symm.trans hf'))
    exact absurd rfl hne

end MapStep

/-- Mutual exclusion: whatever another descriptor does to whichever key, a locked file that it
does not evict stays stored, locked, with its owner and its `is_open`; and the lock passes from
one owner to another only through the owner's unlock, to the first of the file's own waiters. -/
theorem lock_is_exclusive {P : Platform} {buckets : Nat} {config : Config}
    {tr : List (HTable × Call)} {t t' : HTable} (run : SequentialRun P buckets config tr t)
    {key : CStr} {f : File} (hf : htableFetchFile P t key = .ok (some f)) (hlocked : f.isLocked)
    {op : Op} {rands : List Nat} {out : Outcome} (hx : op.exec P t rands = .ok (out, t'))
    (hev : key ∉ out.evicted.map File.key) :
    (∀ b, op.issuedBy b → 0 ≤ b → b ≠ f.fdOwner →
      ∃ f', htableFetchFile P t' key = .ok (some f') ∧ f'.isLocked ∧ f'.fdOwner = f.fdOwner ∧
        f'.isOpen = f.isOpen) ∧
      ∀ f', htableFetchFile P t' key = .ok (some f') → f'.isLocked → f'.fdOwner ≠ f.fdOwner →
        op = .unlock key f.fdOwner ∧ f.subs = f'.fdOwner :: f'.subs := by
  obtain ⟨m, m', hm, hm', -, hstep⟩ := run.mapStep hx
  rw [hm, Except.ok.injEq] at hf
  constructor
  · intro b hissued hb hne
    obtain ⟨f', hf', hkept⟩ := hstep.kept_from_others hf hlocked hev hissued hb hne
    exact ⟨f', by rw [hm', hf'], hkept⟩
  · intro f' hf' hlocked' hne
    rw [hm', Except.ok.injEq] at hf'
    exact hstep.handed_over hf hlocked hev hf' hlocked' hne

/-- 3 unlocks a file that 4 waits for. -/
theorem lock_is_exclusive_hand_over :
    ∃ tr t f f' out t', SequentialRun samplePlatform 1 ⟨10, 10, .fifo⟩ tr t ∧
      htableFetchFile samplePlatform t (bufToStr [97]) = .ok (some f) ∧
      (Op.unlock (bufToStr [97]) 3).exec samplePlatform t [] = .ok (out, t') ∧
      htableFetchFile samplePlatform t' (bufToStr [97]) = .ok (some f') ∧
      f'.fdOwner = 4 ∧ f.subs = 4 :: f'.subs := by
  obtain ⟨tr, t, out, t', run, hx, htest⟩ := SequentialRun.of_test samplePlatform 1 ⟨10, 10, .fifo⟩
    [⟨.create (bufToStr [97]) 3 true, []⟩, ⟨.lock (bufToStr [97]) 4, []⟩]
    ⟨.unlock (bufToStr [97]) 3, []⟩
    (fun t out t' =>
      (htableFetchFile samplePlatform t (bufToStr [97])).anySome fun f =>
        (htableFetchFile samplePlatform t' (bufToStr [97])).anySome fun f' =>
          f.isLocked && f'.isLocked && f.fdOwner == 3 && f'.fdOwner == 4 && out.evicted.isEmpty)
    (by decide +kernel)
  obtain ⟨f, hf, htest⟩ := Exec.anySome_eq_true.mp htest
  obtain ⟨f', hf', htest⟩ := Exec.anySome_eq_true.mp htest
  simp only [Bool.and_eq_true, beq_iff_eq, List.isEmpty_iff] at htest
  obtain ⟨⟨⟨⟨hlocked, hlocked'⟩, howner⟩, howner'⟩, hev⟩ := htest
  have hsubs := (lock_is_exclusive run hf hlocked hx (by simp [hev])).2 f' hf' hlocked'
    (by rw [howner, howner']; decide)
  exact ⟨tr, t, f, f', out, t', run, hf, hx, hf', howner', howner' ▸ hsubs.2⟩

end FileStorage.Server
