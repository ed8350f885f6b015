import FileStorage.Server.Counters

/-!
# Capacity — the configured limits between two operations

`htable_create_file` adds an item and, unlike the two writes, returns without evicting anything.  So
the number of files goes over its limit with the first file created in a full table, and comes back
with the next write.
-/

namespace FileStorage.Server

open Memory

/-- Both counters are within the limits of the configuration. -/
def HTable.withinLimits (t : HTable) : Prop :=
  t.stats.itemsCount ≤ t.maxItemsCount ∧ t.stats.totalSpaceInBytes ≤ t.maxSpaceInBytes

instance (t : HTable) : Decidable t.withinLimits := inferInstanceAs (Decidable (_ ∧ _))

/-- The size that comes off `total_space_in_bytes` is part of it, or the counter wraps to a number
below the limit.  Files of fewer than 2^64 bytes in all always meet the first half. -/
def HTable.CanRelease (t : HTable) (sizeInBytes : Nat) : Prop :=
  sizeInBytes ≤ t.stats.totalSpaceInBytes ∨
    t.stats.totalSpaceInBytes + wordSize ≤ t.maxSpaceInBytes + sizeInBytes

/-- A new file finds a free place, and the size of a removed file can be taken off. -/
def HasRoom (P : Platform) (t : HTable) (c : Call) : Prop :=
  match c.op with
  | .create key _ _ =>
      htableFetchFile P t key = .ok none → t.stats.itemsCount < t.maxItemsCount
  | .remove key fd => ∀ f, htableFetchFile P t key = .ok (some f) →
      ¬(f.lockedAgainst fd ∧ fd ≠ -1) → t.CanRelease f.lengthInBytes
  | _ => True

theorem HTable.withinLimits_iff (t : HTable) : t.withinLimits ↔ ¬t.exceedsLimits := by
  rw [HTable.withinLimits, HTable.exceedsLimits, not_or, Nat.not_lt, Nat.not_lt]

theorem HTable.canRelease_iff (t : HTable) (hspace : t.stats.totalSpaceInBytes ≤ t.maxSpaceInBytes)
    (sizeInBytes : Nat) :
    t.CanRelease sizeInBytes ↔
      wsub t.stats.totalSpaceInBytes sizeInBytes ≤ t.maxSpaceInBytes := by
  unfold HTable.CanRelease wsub
  split
  · rename_i hle
    exact iff_of_true (Or.inl hle) (Nat.le_trans (Nat.sub_le _ _) hspace)
  · rename_i hmore
    rw [or_iff_right hmore]
    omega

/-! ## 1. One operation -/

namespace Effect

variable {P : Platform} {t t' : HTable} {L L' : Contents} {c : Call} {out : Outcome}

theorem touchStats_counts (op : Op) (s : HTableStats) :
    (op.touchStats s).itemsCount = s.itemsCount ∧
      (op.touchStats s).totalSpaceInBytes = s.totalSpaceInBytes := by
  cases op with
  | create | «open» | close | lock | unlock | remove | replace | append => exact ⟨rfl, rfl⟩

/-- A new item counts for one file and no bytes. -/
theorem withinLimits_created (hs : Stored P t L) (hc : Counted False t.stats L.flatten)
    (hwithin : t.withinLimits) {t₁ : HTable} {key : CStr} (hsame : SameElse t t₁)
    (hlive : t₁.items.live = t.items.live + 1) (hroom : t₁.items.live < wordSize)
    (hstats : createStatsSection t₁ key = .ok t') :
    t'.withinLimits ↔ t.stats.itemsCount < t.maxItemsCount := by
  obtain ⟨hsettings, hstats', -, -⟩ := createStatsSection_ok hstats
  -- the number of items does not wrap, since each of them has a block
  have hitems : t'.stats.itemsCount = t.stats.itemsCount + 1 := by
    have hlive' := hs.length_le_live
    have hadd : t.stats.itemsCount + 1 < wordSize := by
      rw [hc.items]
      omega
    rw [hstats', hsame.stats]
    simpa using wadd_of_lt hadd
  have hspace : t'.stats.totalSpaceInBytes = t.stats.totalSpaceInBytes := by
    rw [hstats', hsame.stats]
    simp
  have hmax := hsettings.maxItemsCount.trans hsame.maxItemsCount
  have hmax' := hsettings.maxSpaceInBytes.trans hsame.maxSpaceInBytes
  rw [HTable.withinLimits, hitems, hspace, hmax, hmax']
  exact and_iff_left hwithin.2

theorem withinLimits_removed (hc : Counted False t.stats L.flatten) (hwithin : t.withinLimits)
    {t₁ : HTable} {a : Addr} {f : File} (hmem : (a, f) ∈ L.flatten) (hsame : SameElse t t₁) :
    (removeStatsSection t₁ f.lengthInBytes).withinLimits ↔ t.CanRelease f.lengthInBytes := by
  have hitems : (removeStatsSection t₁ f.lengthInBytes).stats.itemsCount ≤ t.stats.itemsCount := by
    have hpos : 1 ≤ t.stats.itemsCount := by
      rw [hc.items]
      exact List.length_pos_of_mem hmem
    simp [removeStatsSection, hsame.stats, wsub_of_le hpos]
  have hspace : (removeStatsSection t₁ f.lengthInBytes).stats.totalSpaceInBytes =
      wsub t.stats.totalSpaceInBytes f.lengthInBytes := by
    simp [removeStatsSection, hsame.stats]
  rw [HTable.canRelease_iff t hwithin.2, HTable.withinLimits, hspace]
  show _ ≤ t₁.maxItemsCount ∧ _ ≤ t₁.maxSpaceInBytes ↔ _
  rw [hsame.maxItemsCount, hsame.maxSpaceInBytes]
  exact and_iff_right (hitems.trans hwithin.1)

/-- An operation keeps the limits exactly when it has room. -/
theorem withinLimits_iff (h : Effect P t L c.op out t' L') (hs : Stored P t L)
    (hc : Counted False t.stats L.flatten) (hwithin : t.withinLimits) :
    t'.withinLimits ↔ HasRoom P t c := by
  obtain ⟨op, rands⟩ := c
  cases h with
  | refused hverdict =>
    refine iff_of_true hwithin ?_
    cases op with
    | create key fd withLock =>
      intro hnone
      rw [hs.fetchFile, Except.ok.injEq] at hnone
      simp only [Op.key, hnone, Op.verdict] at hverdict
      cases hverdict
    | remove key fd =>
      intro f hf hallowed
      rw [hs.fetchFile, Except.ok.injEq] at hf
      simp only [Op.key, hf, Op.verdict, if_neg hallowed] at hverdict
      cases hverdict
    | «open» | close | lock | unlock | replace | append => exact trivial
  | touched hop hlook hverdict =>
    obtain ⟨hitems, hspace⟩ := touchStats_counts op t.stats
    refine iff_of_true ?_ ?_
    · show (op.touchStats t.stats).itemsCount ≤ t.maxItemsCount ∧
        (op.touchStats t.stats).totalSpaceInBytes ≤ t.maxSpaceInBytes
      rw [hitems, hspace]
      exact hwithin
    · cases op with
      | create | remove | replace | append => simp [Op.touches] at hop
      | «open» | close | lock | unlock => exact trivial
  | created hlook hlinked hsame hlive hroom hstats =>
    rename_i key fd withLock t₁
    have habsent : htableFetchFile P t key = .ok none := by
      rw [hs.fetchFile, fileAt_of_lookup_none hlook]
    rw [withinLimits_created hs hc hwithin hsame hlive hroom hstats]
    exact ⟨fun hless _ => hless, fun hnew => hnew habsent⟩
  | removed hlook hallowed hremoved =>
    rename_i key fd a f t₁
    have hfile : htableFetchFile P t key = .ok (some f) := by
      rw [hs.fetchFile, fileAt_of_lookup hlook]
    rw [withinLimits_removed hc hwithin (mem_of_lookup hlook) hremoved.same]
    constructor
    · intro hcan g hg _
      rw [hfile, Except.ok.injEq, Option.some.injEq] at hg
      exact hg ▸ hcan
    · intro hroom
      exact hroom f hfile hallowed
  | wrote hop hlook hverdict hsize hev =>
    refine iff_of_true ((HTable.withinLimits_iff t').mpr hev.limits) ?_
    cases op with
    | create | «open» | close | lock | unlock | remove => simp [Op.writes] at hop
    | replace | append => exact trivial

end Effect

/-! ## 2. Over a run -/

theorem withinLimits_create {buckets : Nat} {config : Config} {t : HTable}
    (hx : htableCreate buckets config = .ok t) : t.withinLimits := by
  unfold htableCreate at hx
  split at hx
  · obtain rfl := Except.ok.inj hx
    exact ⟨Nat.zero_le _, Nat.zero_le _⟩
  · cases hx

/-- In every state of a sequential run both counters are within the limits exactly when each call of
the run has room. -/
theorem capacity_kept_iff {P : Platform} {buckets : Nat} {config : Config}
    {tr : List (HTable × Call)} {t : HTable} (run : SequentialRun P buckets config tr t) :
    (∀ s ∈ statesOf tr t, s.withinLimits) ↔ ∀ x ∈ tr, HasRoom P x.1 x.2 := by
  obtain ⟨t₀, hcreate, steps⟩ := run
  constructor
  · intro hwithin x hx
    -- the limits are kept before the call and after it
    have hbefore : x.1 ∈ statesOf tr t := List.mem_append_left _ (List.mem_map_of_mem hx)
    obtain ⟨tr', run', -⟩ := SequentialRun.of_state ⟨t₀, hcreate, steps⟩ hbefore
    obtain ⟨L, hs, hc⟩ := run'.counted False fun hfalse => hfalse.elim
    obtain ⟨s', hs', out, hexec⟩ := steps.next_mem x hx
    obtain ⟨L', heffect⟩ := effect_of_exec hs hexec
    exact (heffect.withinLimits_iff hs hc (hwithin x.1 hbefore)).mp (hwithin s' hs')
  · intro hroom s hs
    have hinv := steps.invariant_states
      (fun s => s.withinLimits ∧ ∃ L, Stored P s L ∧ Counted False s.stats L.flatten) (HasRoom P)
      ⟨withinLimits_create hcreate, _, stored_create hcreate, counted_create False hcreate⟩ ?_ hroom
    · exact (hinv s hs).1
    · rintro s c s' ⟨hwithin, L, hs, hc⟩ hroom ⟨out, hexec⟩
      obtain ⟨L', heffect⟩ := effect_of_exec hs hexec
      exact ⟨(heffect.withinLimits_iff hs hc hwithin).mpr hroom, L', heffect.stored hs,
        heffect.counted hs hc fun hfalse => hfalse.elim⟩

/-- As long as the stored bytes stay below 2^64, room is a matter of the number of files alone. -/
theorem hasRoom_of_bytes {P : Platform} {buckets : Nat} {config : Config}
    {tr : List (HTable × Call)} {t : HTable} (run : SequentialRun P buckets config tr t)
    (hbytes : t.linkedBytes < wordSize) (c : Call)
    (hcreate : ∀ key fd withLock, c.op = .create key fd withLock →
      htableFetchFile P t key = .ok none → t.stats.itemsCount < t.maxItemsCount) :
    HasRoom P t c := by
  obtain ⟨L, hs, hc⟩ := run.counted False fun hfalse => hfalse.elim
  obtain ⟨op, rands⟩ := c
  cases op with
  | create key fd withLock => exact hcreate key fd withLock rfl
  | remove key fd =>
    intro f hf _
    rw [hs.fetchFile, Except.ok.injEq] at hf
    obtain ⟨a, hmem, -⟩ := hs.fileAt_iff.mp hf
    have hpart := hs.drop_bytes hmem
    rw [hs.linkedBytes_eq] at hbytes
    refine Or.inl ?_
    rw [hc.space, Nat.mod_eq_of_lt hbytes]
    omega
  | «open» | close | lock | unlock | replace | append => exact trivial

/-- A full table from which a file is removed before the next one is created, and a write that
evicts its own file. -/
theorem capacity_kept_in_turns :
    ∃ tr t, SequentialRun samplePlatform 1 ⟨1, 3, .segmentedFifo⟩ tr t ∧ tr.length = 5 ∧
      ∀ x ∈ tr, HasRoom samplePlatform x.1 x.2 := by
  obtain ⟨tr, t, run, htest⟩ := SequentialRun.of_run_test samplePlatform 1 ⟨1, 3, .segmentedFifo⟩
    [⟨.create (bufToStr [97]) 3 false, []⟩, ⟨.replace (bufToStr [97]) [7, 8], []⟩,
      ⟨.remove (bufToStr [97]) 3, []⟩, ⟨.create (bufToStr [98]) 3 false, []⟩,
      ⟨.append (bufToStr [98]) [7, 8, 9, 7], [0]⟩]
    (fun tr t => decide (tr.length = 5 ∧ ∀ s ∈ statesOf tr t, s.withinLimits)) (by decide +kernel)
  obtain ⟨hlength, hwithin⟩ := of_decide_eq_true htest
  exact ⟨tr, t, run, hlength, (capacity_kept_iff run).mp hwithin⟩

/-- Two files are created in a table for one. -/
theorem capacity_exceeded :
    ¬∀ (P : Platform) (buckets : Nat) (config : Config) (tr : List (HTable × Call)) (t : HTable),
      0 < config.maxFiles → 0 < config.maxStorageInBytes →
      SequentialRun P buckets config tr t → ∀ s ∈ statesOf tr t, s.withinLimits := by
  intro hclaim
  obtain ⟨tr, t, run, htest⟩ := SequentialRun.of_run_test samplePlatform 1 ⟨1, 10, .fifo⟩
    [⟨.create (bufToStr [97]) 3 false, []⟩, ⟨.create (bufToStr [98]) 3 false, []⟩]
    (fun _ t => decide ¬t.withinLimits) (by decide +kernel)
  exact of_decide_eq_true htest (hclaim _ _ _ _ _ (by decide) (by decide) run t (by simp [statesOf]))

end FileStorage.Server
