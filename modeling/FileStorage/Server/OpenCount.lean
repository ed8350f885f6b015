import FileStorage.Server.Counters

/-!
# OpenCount — `open_count` against the files that are open

`htable_remove_file` takes one off `open_count` without looking whether the file was open, where the
eviction loop looks.  Every other operation keeps the counter exact.
-/

namespace FileStorage.Server

open Memory

/-! ## 1. What an operation does to the counter -/

/-- How often the operation adds one to `open_count` when it finds `found` under its key. -/
def Op.increments (op : Op) (found : Option File) : Nat :=
  match op, op.verdict found with
  | .create _ _ _, .put _ _ _ | .open _ _ _, .put _ _ _ => 1
  | _, _ => 0

/-- How often it takes one off, the files that it evicts aside. -/
def Op.closes (op : Op) (found : Option File) : Nat :=
  match op, op.verdict found with
  | .close _ _, .put _ _ _ | .remove _ _, .drop => 1
  | _, _ => 0

theorem Op.increments_of_refuse {op : Op} {found : Option File} {code : HTableError}
    (h : op.verdict found = .refuse code) : op.increments found = 0 := by
  cases op <;> simp [Op.increments, h]

theorem Op.closes_of_refuse {op : Op} {found : Option File} {code : HTableError}
    (h : op.verdict found = .refuse code) : op.closes found = 0 := by
  cases op <;> simp [Op.closes, h]

/-- Every time that it takes one off. -/
def Op.decrements (op : Op) (found : Option File) (evicted : List File) : Nat :=
  op.closes found + evicted.countP File.isOpen

def openOf (l : List Entry) : Nat := l.countP fun e => e.2.isOpen

namespace HTableStats

variable (s : HTableStats) (n : Nat)

@[simp] theorem incOpen_openCount : s.incOpen.openCount = wadd s.openCount 1 := rfl

@[simp] theorem decOpen_openCount : s.decOpen.openCount = wsub s.openCount 1 := rfl

@[simp] theorem incItems_openCount : s.incItems.openCount = s.openCount := rfl

@[simp] theorem decItems_openCount : s.decItems.openCount = s.openCount := rfl

@[simp] theorem addSpace_openCount : (s.addSpace n).openCount = s.openCount := rfl

@[simp] theorem subSpace_openCount : (s.subSpace n).openCount = s.openCount := rfl

@[simp] theorem incEvictions_openCount : s.incEvictions.openCount = s.openCount := rfl

@[simp] theorem raiseMaxItems_openCount : s.raiseMaxItems.openCount = s.openCount := by
  unfold raiseMaxItems
  split <;> rfl

@[simp] theorem raiseMaxSpace_openCount : s.raiseMaxSpace.openCount = s.openCount := by
  unfold raiseMaxSpace
  split <;> rfl

/-- The counter is `n` modulo 2^64. -/
def OpenTally (s : HTableStats) (n : Int) : Prop := (s.openCount : Int) = n % wordSize

variable {s n} {k : Int}

theorem OpenTally.congr {s' : HTableStats} (h : s.OpenTally k) (hsame : s'.openCount = s.openCount) :
    s'.OpenTally k := by
  rw [OpenTally, hsame]
  exact h

theorem OpenTally.inc (h : s.OpenTally k) : s.incOpen.OpenTally (k + 1) :=
  wadd_emod (b := 1) h

theorem OpenTally.dec (h : s.OpenTally k) : s.decOpen.OpenTally (k - 1) :=
  wsub_emod (b := 1) h (by decide)

theorem OpenTally.evictStats (h : s.OpenTally k) (f : File) :
    (evictStats s f).OpenTally (k - f.isOpen.toNat) := by
  cases hopen : f.isOpen with
  | false =>
    have hsame : s.OpenTally (k - false.toNat) := by simpa using h
    exact hsame.congr (by simp [Server.evictStats, hopen])
  | true => exact h.dec.congr (by simp [Server.evictStats, hopen])

end HTableStats

/-! ## 2. The open files -/

/-- The operation removes a file that is closed. -/
def Op.removesClosed (op : Op) (found : Option File) : Bool :=
  match op, found with
  | .remove _ fd, some f => !f.isOpen && !decide (f.lockedAgainst fd ∧ fd ≠ -1)
  | _, _ => false

theorem openOf_perm {l l' : List Entry} (h : l.Perm l') : openOf l = openOf l' := h.countP_eq _

theorem openOf_cons (e : Entry) (l : List Entry) :
    openOf (e :: l) = e.2.isOpen.toNat + openOf l := by
  rw [openOf, List.countP_cons, Nat.add_comm]
  cases e.2.isOpen <;> rfl

namespace Linked

variable {P : Platform} {t : HTable} {L : Contents} {a : Addr} {f : File}

theorem drop_openOf (h : Linked P t L) (hmem : (a, f) ∈ L.flatten) :
    f.isOpen.toNat + openOf (L.drop a).flatten = openOf L.flatten := by
  rw [openOf_perm (h.drop_perm hmem), openOf_cons]

theorem setFile_openOf (h : Linked P t L) (hmem : (a, f) ∈ L.flatten) (f' : File) :
    f.isOpen.toNat + openOf (L.setFile a f').flatten = f'.isOpen.toNat + openOf L.flatten := by
  have hdrop := h.drop_openOf hmem
  rw [openOf_perm (h.setFile_perm hmem f'), openOf_cons]
  show f.isOpen.toNat + (f'.isOpen.toNat + _) = _
  omega

theorem openFiles_eq (h : Linked P t L) : t.linkedFiles.countP File.isOpen = openOf L.flatten := by
  rw [h.linkedFiles_eq, List.countP_map]
  rfl

end Linked

namespace Evictions

variable {P : Platform} {t t' : HTable} {L L' : Contents} {evicted : List File}

theorem openTally (h : Evictions P t L evicted t' L') {k : Int} (ho : t.stats.OpenTally k) :
    t'.stats.OpenTally (k - evicted.countP File.isOpen) := by
  induction h generalizing k with
  | done hlimits => simpa using ho
  | round hlimits hev rest ih =>
    rename_i f evicted
    have hrest := ih (hev.stats ▸ ho.evictStats f)
    convert hrest using 1
    rw [List.countP_cons]
    cases f.isOpen with
    | false => simp
    | true =>
      simp only [Bool.toNat_true, if_true]
      omega

theorem openOf (h : Evictions P t L evicted t' L') (hs : Stored P t L) :
    openOf L'.flatten + evicted.countP File.isOpen = Server.openOf L.flatten := by
  induction h with
  | done hlimits => rfl
  | round hlimits hev rest ih =>
    rename_i f evicted
    have hrest := ih (hs.drop hev.mem hev.linked hev.live)
    have hdrop := hs.drop_openOf hev.mem
    rw [List.countP_cons]
    cases hopen : f.isOpen with
    | false =>
      rw [hopen, Bool.toNat_false] at hdrop
      simp only [Bool.false_eq_true, if_false]
      omega
    | true =>
      rw [hopen, Bool.toNat_true] at hdrop
      simp only [if_true]
      omega

end Evictions

/-! ## 3. One operation -/

/-- A refused operation leaves the counter alone. -/
theorem Op.counts_of_refuse {op : Op} {found : Option File} {code : HTableError}
    (h : op.verdict found = .refuse code) :
    op.increments found = 0 ∧ op.closes found = 0 ∧ op.removesClosed found = false := by
  refine ⟨Op.increments_of_refuse h, Op.closes_of_refuse h, ?_⟩
  cases op with
  | remove key fd =>
    cases found with
    | none => rfl
    | some f =>
      simp only [Op.verdict] at h
      split at h
      · rename_i hdenied
        simp [Op.removesClosed, hdenied]
      · cases h
  | create | «open» | close | lock | unlock | replace | append => rfl

/-- A change in place counts what it does to its file. -/
theorem Op.counts_of_touch {op : Op} (hop : op.touches) {f f' : File} {code : HTableError}
    {newOwner : Int} (h : op.verdict (some f) = .put code newOwner f') :
    op.removesClosed (some f) = false ∧
      f'.isOpen.toNat + op.closes (some f) = f.isOpen.toNat + op.increments (some f) := by
  cases op with
  | create | remove | replace | append => simp [Op.touches] at hop
  | «open» | close | lock | unlock =>
    refine ⟨rfl, ?_⟩
    simp only [Op.increments, Op.closes, h]
    simp only [Op.verdict] at h
    grind

theorem Op.counts_of_create (key : CStr) (fd : Int) (withLock : Bool) :
    (Op.create key fd withLock).increments none = 1 ∧
      (Op.create key fd withLock).closes none = 0 ∧
      (Op.create key fd withLock).removesClosed none = false := by
  simp [Op.increments, Op.closes, Op.removesClosed, Op.verdict]

/-- The removal counts as a close, also of a file that is closed. -/
theorem Op.counts_of_remove (key : CStr) {fd : Int} {f : File}
    (hallowed : ¬(f.lockedAgainst fd ∧ fd ≠ -1)) :
    (Op.remove key fd).increments (some f) = 0 ∧ (Op.remove key fd).closes (some f) = 1 ∧
      (Op.remove key fd).removesClosed (some f) = !f.isOpen := by
  simp [Op.increments, Op.closes, Op.removesClosed, Op.verdict, hallowed]

/-- A write opens and closes nothing of its own. -/
theorem Op.counts_of_write {op : Op} (hop : op.writes) (found : Option File) :
    op.increments found = 0 ∧ op.closes found = 0 ∧ op.removesClosed found = false := by
  cases op with
  | create | «open» | close | lock | unlock | remove => simp [Op.writes] at hop
  | replace | append => simp [Op.increments, Op.closes, Op.removesClosed]

theorem Op.verdict_write_isOpen {op : Op} (hop : op.writes) {f f' : File} {code : HTableError}
    {newOwner : Int} (h : op.verdict (some f) = .put code newOwner f') : f'.isOpen = f.isOpen := by
  cases op with
  | create | «open» | close | lock | unlock | remove => simp [Op.writes] at hop
  | replace | append =>
    simp only [Op.verdict, Verdict.put.injEq] at h
    rw [← h.2.2]
    rfl

namespace Effect

variable {P : Platform} {t t' : HTable} {L L' : Contents} {op : Op} {out : Outcome}

theorem openTally (h : Effect P t L op out t' L') {k : Int} (ho : t.stats.OpenTally k) :
    t'.stats.OpenTally (k + op.increments (fileAt L op.key) -
      op.decrements (fileAt L op.key) out.evicted) := by
  cases h with
  | refused hverdict =>
    obtain ⟨hinc, hcloses, -⟩ := Op.counts_of_refuse hverdict
    simpa [Op.decrements, hinc, hcloses] using ho
  | touched hop hlook hverdict =>
    rw [fileAt_of_lookup hlook]
    cases op with
    | create | remove | replace | append => simp [Op.touches] at hop
    | «open» key fd withLock =>
      simpa [Op.increments, Op.decrements, Op.closes, hverdict, Op.touchStats] using ho.inc
    | close key fd =>
      simpa [Op.increments, Op.decrements, Op.closes, hverdict, Op.touchStats] using ho.dec
    | lock | unlock => simpa [Op.increments, Op.decrements, Op.closes, Op.touchStats] using ho
  | created hlook hlinked hsame hlive hroom hstats =>
    rename_i key fd withLock t₁
    obtain ⟨-, hstats', -, -⟩ := createStatsSection_ok hstats
    obtain ⟨hinc, hcloses, -⟩ := Op.counts_of_create key fd withLock
    have htally : t'.stats.OpenTally (k + 1) :=
      ho.inc.congr (by rw [hstats', hsame.stats]; simp)
    simpa [Op.key, Op.decrements, fileAt_of_lookup_none hlook, hinc, hcloses] using htally
  | removed hlook hallowed hremoved =>
    rename_i key fd a f t₁
    obtain ⟨hinc, hcloses, -⟩ := Op.counts_of_remove key hallowed
    have htally : (removeStatsSection t₁ f.lengthInBytes).stats.OpenTally (k - 1) :=
      ho.dec.congr (by simp [removeStatsSection, hremoved.same.stats])
    simpa [Op.key, Op.decrements, fileAt_of_lookup hlook, hinc, hcloses] using htally
  | wrote hop hlook hverdict hsize hev =>
    rename_i a f f' evicted
    obtain ⟨hinc, hcloses, -⟩ := Op.counts_of_write hop (fileAt L op.key)
    have hwritten : (t.written op a f f').stats.OpenTally k := by
      refine ho.congr ?_
      cases op with
      | create | «open» | close | lock | unlock | remove => simp [Op.writes] at hop
      | replace | append => simp [HTable.written, Op.writeStats]
    simpa [Op.decrements, hinc, hcloses] using hev.openTally hwritten

/-- Only the removal of a closed file changes the counter and the files that are open by different
amounts. -/
theorem openOf (h : Effect P t L op out t' L') (hs : Stored P t L) :
    openOf L'.flatten + op.decrements (fileAt L op.key) out.evicted =
      Server.openOf L.flatten + op.increments (fileAt L op.key) +
        (op.removesClosed (fileAt L op.key)).toNat := by
  cases h with
  | refused hverdict =>
    obtain ⟨hinc, hcloses, hkept⟩ := Op.counts_of_refuse hverdict
    rw [Op.decrements, hinc, hcloses, hkept]
    rfl
  | touched hop hlook hverdict =>
    rename_i code newOwner a f f'
    have hset := hs.setFile_openOf (mem_of_lookup hlook) f'
    have hcounts := Op.counts_of_touch hop hverdict
    rw [Op.decrements, fileAt_of_lookup hlook, hcounts.1]
    show Server.openOf (L.setFile a f').flatten + (op.closes (some f) + 0) = _
    have hbalance := hcounts.2
    rw [Bool.toNat_false]
    omega
  | created hlook hlinked hsame hlive hroom hstats =>
    rename_i key fd withLock t₁
    have hperm := openOf_perm (hs.push_perm (t.items.fresh, newFile key fd withLock))
    rw [openOf_cons] at hperm
    obtain ⟨hinc, hcloses, hkept⟩ := Op.counts_of_create key fd withLock
    rw [Op.decrements, Op.key, fileAt_of_lookup_none hlook, hinc, hcloses, hkept, Bool.toNat_false]
    refine hperm.trans ?_
    show 1 + _ = _
    omega
  | removed hlook hallowed hremoved =>
    rename_i key fd a f t₁
    have hdrop := hs.drop_openOf (mem_of_lookup hlook)
    obtain ⟨hinc, hcloses, hclosed⟩ := Op.counts_of_remove key hallowed
    rw [Op.decrements, Op.key, fileAt_of_lookup hlook, hinc, hcloses, hclosed]
    show Server.openOf (L.drop a).flatten + (1 + 0) = _
    -- one file less is open, unless the removed one was not
    cases hopen : f.isOpen with
    | false =>
      rw [hopen, Bool.toNat_false] at hdrop
      rw [Bool.not_false, Bool.toNat_true]
      omega
    | true =>
      rw [hopen, Bool.toNat_true] at hdrop
      rw [Bool.not_true, Bool.toNat_false]
      omega
  | wrote hop hlook hverdict hsize hev =>
    rename_i a f f' evicted
    have hset := hs.setFile_openOf (mem_of_lookup hlook) f'
    have hevicted := hev.openOf (stored_written hs hop hlook hverdict hsize)
    have hcounts := Op.counts_of_write hop (fileAt L op.key)
    have hopen := Op.verdict_write_isOpen hop hverdict
    rw [hopen] at hset
    rw [Op.decrements, hcounts.1, hcounts.2.1, hcounts.2.2, Bool.toNat_false]
    show _ + (0 + evicted.countP File.isOpen) = _
    omega

/-- No operation changes the counter both ways. -/
theorem one_way (h : Effect P t L op out t' L') :
    op.increments (fileAt L op.key) = 0 ∨ op.decrements (fileAt L op.key) out.evicted = 0 := by
  cases h with
  | refused hverdict => exact Or.inl (Op.counts_of_refuse hverdict).1
  | touched hop hlook hverdict =>
    rw [fileAt_of_lookup hlook]
    cases op with
    | create | remove | replace | append => simp [Op.touches] at hop
    | «open» => exact Or.inr (by simp [Op.decrements, Op.closes])
    | close | lock | unlock => exact Or.inl (by simp [Op.increments])
  | created hlook hlinked hsame hlive hroom hstats =>
    exact Or.inr (by simp [Op.decrements, Op.closes])
  | removed hlook hallowed hremoved => exact Or.inl (by simp [Op.increments])
  | wrote hop hlook hverdict hsize hev => exact Or.inl (Op.counts_of_write hop _).1

theorem decrements_le (h : Effect P t L op out t' L') (hs : Stored P t L)
    (hkept : op.removesClosed (fileAt L op.key) = false) :
    op.decrements (fileAt L op.key) out.evicted ≤ Server.openOf L.flatten := by
  have hopen := h.openOf hs
  rw [hkept, Bool.toNat_false] at hopen
  rcases h.one_way with hinc | hdec
  · omega
  · omega

end Effect

/-! ## 4. Over a run -/

def HTable.openFiles (t : HTable) : Nat := t.linkedFiles.countP File.isOpen

/-- The call takes no more off `open_count` than it holds. -/
def DecrementsFit (P : Platform) (t : HTable) (c : Call) : Prop :=
  ∀ found out t', htableFetchFile P t c.op.key = .ok found →
    c.op.exec P t c.rands = .ok (out, t') →
    c.op.decrements found out.evicted ≤ t.stats.openCount

/-- The call removes a file that is closed. -/
def RemovesClosed (P : Platform) (t : HTable) (c : Call) : Prop :=
  ∃ found, htableFetchFile P t c.op.key = .ok found ∧ c.op.removesClosed found = true

/-- The counter counts the open files of the store. -/
structure OpenExact (P : Platform) (t : HTable) (L : Contents) : Prop extends Stored P t L where
  counted : Counted False t.stats L.flatten
  opened : t.stats.openCount = openOf L.flatten

namespace OpenExact

variable {P : Platform} {t t' : HTable} {L L' : Contents} {c : Call} {out : Outcome}

theorem tally (h : OpenExact P t L) : t.stats.OpenTally (openOf L.flatten) := by
  have hle : openOf L.flatten ≤ L.flatten.length := List.countP_le_length
  have hroom := h.counted.room
  rw [HTableStats.OpenTally, h.opened, Int.emod_eq_of_lt (by omega) (by omega)]

/-- The counter stays exact unless a closed file is removed. -/
theorem step (h : OpenExact P t L) (heffect : Effect P t L c.op out t' L')
    (hkept : c.op.removesClosed (fileAt L c.op.key) = false) : OpenExact P t' L' := by
  have hstored := heffect.stored h.toStored
  have hcounted := heffect.counted h.toStored h.counted fun hfalse => hfalse.elim
  have htally := heffect.openTally h.tally
  have hopen := heffect.openOf h.toStored
  rw [hkept, Bool.toNat_false] at hopen
  have hle : openOf L'.flatten ≤ L'.flatten.length := List.countP_le_length
  have hroom := hcounted.room
  refine ⟨hstored, hcounted, ?_⟩
  -- the sum is the number of open files afterwards, which does not wrap
  have hsum : (openOf L.flatten : Int) + c.op.increments (fileAt L c.op.key) -
      c.op.decrements (fileAt L c.op.key) out.evicted = openOf L'.flatten := by omega
  rw [HTableStats.OpenTally, hsum, Int.emod_eq_of_lt (by omega) (by omega)] at htally
  exact Int.ofNat_inj.mp htally

theorem removesClosed_iff (h : Stored P t L) :
    RemovesClosed P t c ↔ c.op.removesClosed (fileAt L c.op.key) = true := by
  constructor
  · rintro ⟨found, hfetch, hcloses⟩
    rw [h.fetchFile, Except.ok.injEq] at hfetch
    rwa [hfetch]
  · intro hcloses
    exact ⟨_, h.fetchFile _, hcloses⟩

theorem fits (h : OpenExact P t L) (hkept : ¬RemovesClosed P t c) : DecrementsFit P t c := by
  intro found out t' hfetch hexec
  rw [h.fetchFile, Except.ok.injEq] at hfetch
  obtain ⟨L', heffect⟩ := effect_of_exec h.toStored hexec
  rw [removesClosed_iff h.toStored, Bool.not_eq_true] at hkept
  rw [← hfetch, h.opened]
  exact heffect.decrements_le h.toStored hkept

/-- The removal of a closed file takes one off the counter and none off the open files. -/
theorem not_exact (h : OpenExact P t L) (hexec : c.op.exec P t c.rands = .ok (out, t'))
    (hcloses : RemovesClosed P t c) : t'.stats.openCount ≠ t'.openFiles := by
  obtain ⟨L', heffect⟩ := effect_of_exec h.toStored hexec
  rw [removesClosed_iff h.toStored] at hcloses
  have htally := heffect.openTally h.tally
  have hopen := heffect.openOf h.toStored
  have hroom := (heffect.counted h.toStored h.counted fun hfalse => hfalse.elim).room
  have hle : openOf L'.flatten ≤ L'.flatten.length := List.countP_le_length
  rw [hcloses, Bool.toNat_true] at hopen
  have hsum : (openOf L.flatten : Int) + c.op.increments (fileAt L c.op.key) -
      c.op.decrements (fileAt L c.op.key) out.evicted = openOf L'.flatten - 1 := by omega
  rw [HTableStats.OpenTally, hsum] at htally
  rw [HTable.openFiles, (heffect.stored h.toStored).openFiles_eq]
  simp only [wordSize] at htally hroom
  omega

end OpenExact

theorem openExact_create {P : Platform} {buckets : Nat} {config : Config} {t : HTable}
    (hx : htableCreate buckets config = .ok t) : OpenExact P t (List.replicate buckets []) := by
  refine ⟨stored_create hx, counted_create False hx, ?_⟩
  unfold htableCreate at hx
  split at hx
  · obtain rfl := Except.ok.inj hx
    simp [openOf, HTableStats.zero]
  · cases hx

/-- In every state of a sequential run `open_count` is the number of open files, and no decrement of
it wraps, exactly when no call of the run removes a file that is closed. -/
theorem open_count_exact_iff {P : Platform} {buckets : Nat} {config : Config}
    {tr : List (HTable × Call)} {t : HTable} (run : SequentialRun P buckets config tr t) :
    ((∀ s ∈ statesOf tr t, s.stats.openCount = s.openFiles) ∧
        ∀ x ∈ tr, DecrementsFit P x.1 x.2) ↔
      ∀ x ∈ tr, ¬RemovesClosed P x.1 x.2 := by
  obtain ⟨t₀, hcreate, steps⟩ := run
  constructor
  · rintro ⟨hexact, -⟩ x hx hcloses
    -- the counter is exact before the call, so it is not after it
    have hbefore : x.1 ∈ statesOf tr t := List.mem_append_left _ (List.mem_map_of_mem hx)
    obtain ⟨tr', run', -⟩ := SequentialRun.of_state ⟨t₀, hcreate, steps⟩ hbefore
    obtain ⟨L, hs, hc⟩ := run'.counted False fun hfalse => hfalse.elim
    have hopened := hexact x.1 hbefore
    rw [HTable.openFiles, hs.openFiles_eq] at hopened
    obtain ⟨s', hs', out, hexec⟩ := steps.next_mem x hx
    exact OpenExact.not_exact ⟨hs, hc, hopened⟩ hexec hcloses (hexact s' hs')
  · intro hkept
    have hinv : ∀ s ∈ statesOf tr t, ∃ L, OpenExact P s L := by
      refine steps.invariant_states (fun s => ∃ L, OpenExact P s L) (fun s c => ¬RemovesClosed P s c)
        ⟨_, openExact_create hcreate⟩ ?_ hkept
      rintro s c s' ⟨L, h⟩ hnot ⟨out, hexec⟩
      obtain ⟨L', heffect⟩ := effect_of_exec h.toStored hexec
      rw [OpenExact.removesClosed_iff h.toStored, Bool.not_eq_true] at hnot
      exact ⟨L', h.step heffect hnot⟩
    constructor
    · intro s hs
      obtain ⟨L, h⟩ := hinv s hs
      rw [h.opened, HTable.openFiles, h.openFiles_eq]
    · intro x hx
      obtain ⟨L, h⟩ := hinv x.1 (List.mem_append_left _ (List.mem_map_of_mem hx))
      exact h.fits (hkept x hx)

instance (P : Platform) (t : HTable) (c : Call) : Decidable (RemovesClosed P t c) :=
  decidable_of_iff ((htableFetchFile P t c.op.key).any c.op.removesClosed = true) Exec.any_eq_true

/-- Closing, opening again, removing and evicting open files. -/
theorem open_count_exact_in_turns :
    ∃ tr t, SequentialRun samplePlatform 1 ⟨1, 10, .segmentedFifo⟩ tr t ∧ tr.length = 7 ∧
      (∀ s ∈ statesOf tr t, s.stats.openCount = s.openFiles) ∧
      ∀ x ∈ tr, DecrementsFit samplePlatform x.1 x.2 := by
  obtain ⟨tr, t, run, htest⟩ := SequentialRun.of_run_test samplePlatform 1 ⟨1, 10, .segmentedFifo⟩
    [⟨.create (bufToStr [97]) 3 false, []⟩, ⟨.close (bufToStr [97]) 3, []⟩,
      ⟨.create (bufToStr [98]) 3 false, []⟩, ⟨.replace (bufToStr [98]) [7], [0]⟩,
      ⟨.close (bufToStr [98]) 3, []⟩, ⟨.open (bufToStr [98]) 4 true, []⟩,
      ⟨.remove (bufToStr [98]) 4, []⟩]
    (fun tr _ => decide (tr.length = 7 ∧ ∀ x ∈ tr, ¬RemovesClosed samplePlatform x.1 x.2))
    (by decide +kernel)
  obtain ⟨hlength, hkept⟩ := of_decide_eq_true htest
  exact ⟨tr, t, run, hlength, (open_count_exact_iff run).mpr hkept⟩

/-- A file is created, closed and removed: the counter goes below zero. -/
theorem open_count_wraps :
    ¬∀ (P : Platform) (buckets : Nat) (config : Config) (tr : List (HTable × Call)) (t : HTable),
      SequentialRun P buckets config tr t →
        (∀ s ∈ statesOf tr t, s.stats.openCount = s.openFiles) ∧
          ∀ x ∈ tr, DecrementsFit P x.1 x.2 := by
  intro hclaim
  obtain ⟨tr, t, run, htest⟩ := SequentialRun.of_run_test samplePlatform 1 ⟨1, 10, .fifo⟩
    [⟨.create (bufToStr [97]) 3 false, []⟩, ⟨.close (bufToStr [97]) 3, []⟩,
      ⟨.remove (bufToStr [97]) 3, []⟩]
    (fun _ t => decide (t.stats.openCount = wordSize - 1 ∧ t.openFiles = 0)) (by decide +kernel)
  obtain ⟨hcount, hfiles⟩ := of_decide_eq_true htest
  have hexact := (hclaim _ _ _ _ _ run).1 t (by simp [statesOf])
  rw [hcount, hfiles] at hexact
  exact absurd hexact (by decide)

end FileStorage.Server
