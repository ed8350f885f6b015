import FileStorage.Server.Capacity
import FileStorage.Server.Creation

/-!
# SegmentedEviction — the eviction loop under segmented FIFO

A bucket is drawn at random and loses its last item, which is its oldest.  Whatever is drawn, the
loop evicts only what it has to, and its assertion and its fatal exit are never reached.
-/

namespace FileStorage.Server

open Memory

/-! ## 1. The single eviction as the source has it -/

/-- One turn of the loop; `none` when the bucket that was drawn is empty. -/
def segmentedTurn (t : HTable) (r : Nat) : Exec (Option (Addr × HTable)) := do
  let i := r % t.buckets.length
  let bucket ← t.bucket i
  match bucket.last with
  | none => if bucket.head.isSome then throw .assertion else return none
  | some a => do
      let item ← t.items.load a
      let t ←
        match item.prev with
        | some p => do
            let t := t.setBucket i fun bucket => { bucket with last := item.prev }
            t.storeItem p fun item => { item with next := none }
        | none => pure (t.setBucket i fun _ => ⟨none, none⟩)
      let t ← t.storeItem a fun item => { item with next := none, prev := none }
      return some (a, t)

/-- `while (htable->stats.items_count > 0)`, and the fatal exit behind it. -/
def segmentedWhile (t : HTable) : List Nat → Exec (Addr × HTable × List Nat)
  | [] => if t.stats.itemsCount > 0 then throw .diverge else throw .exit
  | r :: rands =>
      if t.stats.itemsCount > 0 then do
        match ← segmentedTurn t r with
        | some (a, t) => return (a, t, rands)
        | none => segmentedWhile t rands
      else
        throw .exit

def evictSingleWhile (t : HTable) (rands : List Nat) : Exec (Addr × HTable × List Nat) :=
  if t.stats.itemsCount = 0 then throw .assertion else segmentedWhile t rands

theorem segmentedLoop_cons (t : HTable) (r : Nat) (rands : List Nat) :
    segmentedLoop t (r :: rands) = (do
      match ← segmentedTurn t r with
      | some (a, t) => return (a, t, rands)
      | none => segmentedLoop t rands) := by
  simp only [segmentedLoop, segmentedTurn, bind_assoc]
  cases t.bucket (r % t.buckets.length) with
  | error e => rfl
  | ok bucket =>
    simp only [Exec.ok_bind]
    cases bucket.last with
    | none => cases bucket.head <;> rfl
    | some a =>
      simp only [bind_assoc]
      cases t.items.load a with
      | error e => rfl
      | ok item =>
        simp only [Exec.ok_bind]
        cases item.prev with
        | none =>
          simp only [Exec.pure_eq_ok, Exec.ok_bind]
          cases (t.setBucket (r % t.buckets.length) fun _ => ⟨none, none⟩).storeItem a _ <;> rfl
        | some p =>
          simp only [bind_assoc]
          cases (t.setBucket (r % t.buckets.length) fun bucket => ⟨bucket.head, some p⟩).storeItem p
              _ with
          | error e => rfl
          | ok t₁ =>
            simp only [Exec.ok_bind]
            cases t₁.storeItem a _ <;> rfl

theorem segmentedWhile_eq {t : HTable} (hitems : 0 < t.stats.itemsCount) (rands : List Nat) :
    segmentedWhile t rands = segmentedLoop t rands := by
  induction rands with
  | nil =>
    rw [segmentedWhile, if_pos hitems]
    rfl
  | cons r rands ih =>
    rw [segmentedWhile, if_pos hitems, segmentedLoop_cons, ih]

/-- The loop leaves `items_count` alone, so it never ends without an item. -/
theorem evictSingleWhile_eq (t : HTable) (rands : List Nat) :
    evictSingleWhile t rands = htableEvictSingleFileSegmentedFifo t rands := by
  rw [evictSingleWhile, htableEvictSingleFileSegmentedFifo]
  split
  · rfl
  · rename_i hitems
    exact segmentedWhile_eq (Nat.pos_of_ne_zero hitems) rands

/-! ## 2. The rounds of the loop -/

/-- The loop that starts with `t` and the draws `rands` comes to its test with the table `t₁`, when
it has evicted these files. -/
inductive LoopHead (P : Platform) (t : HTable) (rands : List Nat) :
    HTable → List File → List Nat → Prop
  | start : LoopHead P t rands t [] rands
  | round {t₁ t₂ : HTable} {evicted₁ evicted₂ : List File} {rands₁ rands₂ : List Nat}
      (head : LoopHead P t rands t₁ evicted₁ rands₁) (hlimits : t₁.exceedsLimits)
      (hround : evictRound P t₁ evicted₁ rands₁ = .ok (t₂, evicted₂, rands₂)) :
      LoopHead P t rands t₂ evicted₂ rands₂

/-- No file of the same bucket is as old as `f`. -/
def OldestOfBucket (P : Platform) (age : CStr → Nat) (t : HTable) (f : File) : Prop :=
  htableFetchFile P t f.key = .ok (some f) ∧
    ∀ g, htableFetchFile P t g.key = .ok (some g) → g.key ≠ f.key →
      htableBucketPtr P t g.key = htableBucketPtr P t f.key → age f.key < age g.key

/-- The loop that starts with `t` and these draws. -/
structure SegmentedEviction (P : Platform) (age : CStr → Nat) (t : HTable) (rands : List Nat) :
    Prop where
  /-- The assertion holds and the fatal exit is not reached: without an item the loop is still
  running. -/
  safe : ∀ t₁ evicted rands₁, LoopHead P t rands t₁ evicted rands₁ → t₁.exceedsLimits →
    evictSingleWhile t₁ rands₁ = .error .diverge ∨ ∃ r, evictSingleWhile t₁ rands₁ = .ok r
  oldest : ∀ t₁ evicted₁ rands₁ t₂ evicted₂ rands₂, LoopHead P t rands t₁ evicted₁ rands₁ →
    t₁.exceedsLimits → evictRound P t₁ evicted₁ rands₁ = .ok (t₂, evicted₂, rands₂) →
    ∃ f, evicted₂ = evicted₁ ++ [f] ∧ OldestOfBucket P age t₁ f ∧
      ∀ key, htableFetchFile P t₂ key =
        if key = f.key then .ok none else htableFetchFile P t₁ key
  ends : ∀ evicted t', htableEvictFiles P t rands = .ok (evicted, t') →
    t'.withinLimits ∧ (∃ rands', LoopHead P t rands t' evicted rands') ∧
      evicted.length < unsignedSize ∧ (∀ f ∈ evicted, htableFetchFile P t f.key = .ok (some f)) ∧
      ∀ key, htableFetchFile P t' key =
        if key ∈ evicted.map File.key then .ok none else htableFetchFile P t key

/-- What holds whenever the loop comes to its test. -/
structure SegmentedReady (P : Platform) (age : CStr → Nat) (t : HTable) (L : Contents) : Prop
    extends Stored P t L where
  counted : Counted False t.stats L.flatten
  youngest : YoungestFirst age L
  policy : t.policy = .segmentedFifo

theorem LoopHead.of_evictLoop {P : Platform} {t₀ t t' : HTable} {rands₀ rands rands' : List Nat}
    {fuel : Nat} {evicted evicted' : List File} (head : LoopHead P t₀ rands₀ t evicted rands)
    (hx : evictLoop P fuel t evicted rands = .ok (t', evicted', rands')) :
    LoopHead P t₀ rands₀ t' evicted' rands' := by
  induction fuel generalizing t evicted rands with
  | zero =>
    unfold evictLoop at hx
    split at hx
    · cases hx
    · cases hx
      exact head
  | succ fuel ih =>
    unfold evictLoop at hx
    split at hx
    · rename_i hlimits
      obtain ⟨⟨t₁, evicted₁, rands₁⟩, hround, hx⟩ := Exec.bind_eq_ok.mp hx
      exact ih (head.round hlimits hround) hx
    · cases hx
      exact head

/-- Under segmented FIFO a round takes the last entry of some bucket. -/
theorem Linked.evictRound_last {P : Platform} {t t' : HTable} {L : Contents}
    {evicted evicted' : List File} {rands rands' : List Nat} (h : Linked P t L)
    (hpolicy : t.policy = .segmentedFifo)
    (hx : evictRound P t evicted rands = .ok (t', evicted', rands')) :
    ∃ (i : Nat) (l : List Entry) (a : Addr) (f : File),
      L[i]? = some (l ++ [(a, f)]) ∧ evicted' = evicted ++ [f] := by
  unfold evictRound at hx
  simp only at hx
  split at hx
  · cases hx
  · obtain ⟨⟨p, t₁, rands₁⟩, hsingle, hx⟩ := Exec.bind_eq_ok.mp hx
    simp only [htableEvictSingleFile, hpolicy, htableEvictSingleFileSegmentedFifo] at hsingle
    obtain ⟨⟨a, t₂, rands₂⟩, hloop, hsingle⟩ := Exec.bind_eq_ok.mp hsingle
    cases hsingle
    split at hloop
    · cases hloop
    · rcases h.segmentedLoop_eq rands with hdiv | ⟨i, l, b, f, t₃, rands₃, hl, hloop', hun⟩
      · rw [hdiv] at hloop
        cases hloop
      · rw [hloop'] at hloop
        cases hloop
        obtain ⟨item, hread, hfile⟩ := Heap.field_eq_some hun.file
        simp only [Heap.load_of_read hread, Exec.ok_bind] at hx
        split at hx
        · cases hx
        · cases hx
          exact ⟨i, l, a, f, hl, by rw [hfile]⟩

namespace SegmentedReady

variable {P : Platform} {age : CStr → Nat} {t t' : HTable} {L : Contents}

/-- The sections of a write leave the table as the loop takes it. -/
theorem written (hs : Stored P t L) (hc : Counted False t.stats L.flatten)
    (hy : YoungestFirst age L) (hpolicy : t.policy = .segmentedFifo) {op : Op} (hop : op.writes)
    {a : Addr} {f f' : File} (hlook : lookup L op.key = some (a, f))
    (hverdict : op.verdict (some f) = .put .ok (-1) f') (hsize : f'.lengthInBytes < wordSize) :
    SegmentedReady P age (t.written op a f f') (L.setFile a f') :=
  ⟨stored_written hs hop hlook hverdict hsize,
    Effect.counted_written hs hc hop hlook hverdict fun hfalse => hfalse.elim,
    hy.setFile hs.toLinked (mem_of_lookup hlook) (Op.verdict_some_key hverdict), hpolicy⟩

/-- A table over its limits has an item. -/
theorem items_pos (h : SegmentedReady P age t L) (hlimits : t.exceedsLimits) :
    0 < t.stats.itemsCount := by
  rw [h.counted.items]
  cases hL : L.flatten with
  | nil =>
    have hitems := h.counted.items
    have hspace := h.counted.space
    rw [hL] at hitems hspace
    rcases hlimits with hmore | hmore
    · rw [hitems] at hmore
      exact absurd hmore (Nat.not_lt_zero _)
    · rw [hspace] at hmore
      exact absurd hmore (Nat.not_lt_zero _)
  | cons e l => exact Nat.succ_pos _

theorem single (h : SegmentedReady P age t L) (hlimits : t.exceedsLimits) (rands : List Nat) :
    evictSingleWhile t rands = .error .diverge ∨ ∃ r, evictSingleWhile t rands = .ok r := by
  rw [evictSingleWhile, if_neg (Nat.ne_of_gt (h.items_pos hlimits)),
    segmentedWhile_eq (h.items_pos hlimits)]
  rcases h.segmentedLoop_eq rands with hdiv | ⟨i, l, a, f, t₁, rands₁, -, hloop, -⟩
  · exact Or.inl hdiv
  · exact Or.inr ⟨_, hloop⟩

/-- The last entry of a bucket is the oldest. -/
theorem oldest (h : SegmentedReady P age t L) {i : Nat} {l : List Entry} {a : Addr} {f : File}
    (hl : L[i]? = some (l ++ [(a, f)])) : OldestOfBucket P age t f := by
  have hmem : (a, f) ∈ l ++ [(a, f)] := by simp
  have hflat : (a, f) ∈ L.flatten := List.mem_flatten.mpr ⟨_, List.mem_of_getElem? hl, hmem⟩
  have hhome := h.home i _ hl (a, f) hmem
  refine ⟨by rw [h.fetchFile, h.fileAt_mem hflat], fun g hg hne hbucket => ?_⟩
  rw [h.fetchFile, Except.ok.injEq] at hg
  obtain ⟨b, hgmem, -⟩ := h.fileAt_iff.mp hg
  obtain ⟨l', hl', hgl⟩ := List.mem_flatten.mp hgmem
  obtain ⟨j, hj⟩ := List.mem_iff_getElem?.mp hl'
  -- `g` is in the same bucket, before the last entry
  have hij : j = i := by
    rw [← h.home j l' hj (b, g) hgl, ← hhome, ← h.bucketPtr_eq, ← h.bucketPtr_eq]
    exact hbucket
  subst hij
  rw [hl] at hj
  obtain rfl := Option.some.inj hj
  rcases List.mem_append.mp hgl with hbefore | hlast
  · have hpairs := h.youngest _ hl'
    rw [List.pairwise_append] at hpairs
    exact hpairs.2.2 (b, g) hbefore (a, f) List.mem_cons_self
  · obtain heq := List.mem_singleton.mp hlast
    cases heq
    exact absurd rfl hne

theorem round (h : SegmentedReady P age t L) {evicted evicted' : List File}
    {rands rands' : List Nat} (hx : evictRound P t evicted rands = .ok (t', evicted', rands')) :
    ∃ a f, evicted' = evicted ++ [f] ∧ OldestOfBucket P age t f ∧
      fileAt (L.drop a) = Function.update (fileAt L) f.key none ∧
      SegmentedReady P age t' (L.drop a) := by
  obtain ⟨i, l, b, g, hl, hevicted⟩ := h.evictRound_last h.policy hx
  obtain ⟨a, f, hev, happ, -, -⟩ := h.evictRound_ok hx
  obtain rfl : f = g := by
    have heq := happ.symm.trans hevicted
    simpa using heq
  refine ⟨a, f, happ, h.oldest hl, h.fileAt_drop hev.mem, h.drop hev.mem hev.linked hev.live, ?_,
    h.youngest.drop a, hev.settings.policy.trans h.policy⟩
  rw [hev.stats]
  exact (h.counted.perm (h.drop_perm hev.mem)).evictStats (h.sized _ hev.mem).2

theorem of_head (h : SegmentedReady P age t L) {rands rands₁ : List Nat} {t₁ : HTable}
    {evicted : List File} (head : LoopHead P t rands t₁ evicted rands₁) :
    ∃ L₁, SegmentedReady P age t₁ L₁ := by
  induction head with
  | start => exact ⟨L, h⟩
  | round head hlimits hround ih =>
    obtain ⟨L₁, h₁⟩ := ih
    obtain ⟨a, f, -, -, -, h₂⟩ := h₁.round hround
    exact ⟨_, h₂⟩

theorem eviction (h : SegmentedReady P age t L) (rands : List Nat) :
    SegmentedEviction P age t rands := by
  refine ⟨?_, ?_, ?_⟩
  · intro t₁ evicted rands₁ head hlimits
    obtain ⟨L₁, h₁⟩ := h.of_head head
    exact h₁.single hlimits rands₁
  · intro t₁ evicted₁ rands₁ t₂ evicted₂ rands₂ head _ hround
    obtain ⟨L₁, h₁⟩ := h.of_head head
    obtain ⟨a, f, happ, holdest, hmap, h₂⟩ := h₁.round hround
    refine ⟨f, happ, holdest, fun key => ?_⟩
    rw [h₂.fetchFile, hmap, h₁.fetchFile]
    by_cases hkey : key = f.key
    · rw [if_pos hkey, hkey, Function.update_self]
    · rw [if_neg hkey, Function.update_of_ne hkey]
  · intro evicted t' hx
    have hlength := evictFiles_length_lt hx
    obtain ⟨L', hev⟩ := evictFiles_ok h.toLinked hx
    obtain ⟨⟨t₁, evicted₁, rands₁⟩, hloop, hret⟩ := Exec.bind_eq_ok.mp hx
    cases hret
    have hevicts := hev.evicts h.toStored
    refine ⟨(HTable.withinLimits_iff _).mpr hev.limits, ⟨rands₁, LoopHead.start.of_evictLoop hloop⟩,
      hlength, fun f hf => ?_, fun key => ?_⟩
    · rw [h.fetchFile, hevicts.mem hf]
    · rw [(hev.stored h.toStored).fetchFile, h.fetchFile, hevicts.apply]
      split <;> rfl

end SegmentedReady

/-! ## 3. Over a run -/

/-- After any sequential run, and with any draws, the loop of a write is safe, evicts the oldest
file of a bucket in each round, and when it ends it has evicted what it lists and nothing more. -/
theorem segmented_eviction_oldest {P : Platform} {buckets : Nat} {config : Config}
    {tr : List (HTable × Call)} {t : HTable} (run : SequentialRun P buckets config tr t)
    (hpolicy : config.cacheEvictionPolicy = .segmentedFifo) {op : Op} {t₁ : HTable}
    (hx : op.writeSections P t = .ok (some t₁)) (rands : List Nat) :
    SegmentedEviction P (createdAt P tr) t₁ rands ∧
      op.exec P t rands = (htableEvictFiles P t₁ rands).map fun r => (⟨.ok, -1, r.1⟩, r.2) := by
  have hop : op.writes = true := by
    cases hw : op.writes with
    | true => rfl
    | false =>
      rw [Op.writeSections_of_not_writes hw] at hx
      cases hx
  obtain ⟨L, hs, hc, hy⟩ := run.youngestFirst
  rcases writeSections_ok hs hop hx with ⟨-, hnone⟩ | ⟨a, f, f', hlook, hverdict, hsize, hsome⟩
  · cases hnone
  obtain rfl := Option.some.inj hsome
  have hready : SegmentedReady P (createdAt P tr) (t.written op a f f') (L.setFile a f') :=
    .written hs hc hy (run.policy.trans hpolicy) hop hlook hverdict hsize
  refine ⟨hready.eviction rands, ?_⟩
  rw [Op.exec_write hop, hx, Exec.ok_bind]
  cases hloop : htableEvictFiles P (t.written op a f f') rands with
  | error e => simp only [hloop, Exec.error_bind, Except.map]
  | ok r => simp only [hloop, Exec.ok_bind, Exec.pure_eq_ok, Except.map]

/-- The first file of the bucket was created again, so the second one is the oldest.  Two draws of an
empty bucket come before the one that evicts it. -/
theorem segmented_eviction_oldest_of_three :
    ∃ tr t t₁, SequentialRun samplePlatform 2 ⟨2, 10, .segmentedFifo⟩ tr t ∧
      (Op.replace (bufToStr [99]) [7]).writeSections samplePlatform t = .ok (some t₁) ∧
      (∃ r, htableEvictFiles samplePlatform t₁ [0, 0, 1] = .ok r ∧
        r.1.map File.key = [bufToStr [98]]) ∧
      SegmentedEviction samplePlatform (createdAt samplePlatform tr) t₁ [0, 0, 1] := by
  obtain ⟨tr, t, run, htest⟩ := SequentialRun.of_run_test samplePlatform 2 ⟨2, 10, .segmentedFifo⟩
    [⟨.create (bufToStr [97]) 3 false, []⟩, ⟨.create (bufToStr [98]) 3 false, []⟩,
      ⟨.remove (bufToStr [97]) 3, []⟩, ⟨.create (bufToStr [97]) 3 false, []⟩,
      ⟨.create (bufToStr [99]) 3 false, []⟩]
    (fun _ t => ((Op.replace (bufToStr [99]) [7]).writeSections samplePlatform t).anySome fun t₁ =>
      (htableEvictFiles samplePlatform t₁ [0, 0, 1]).any fun r =>
        decide (r.1.map File.key = [bufToStr [98]]))
    (by decide +kernel)
  obtain ⟨t₁, hsections, htest⟩ := Exec.anySome_eq_true.mp htest
  obtain ⟨r, hloop, htest⟩ := Exec.any_eq_true.mp htest
  exact ⟨tr, t, t₁, run, hsections, ⟨r, hloop, of_decide_eq_true htest⟩,
    (segmented_eviction_oldest run rfl hsections [0, 0, 1]).1⟩

end FileStorage.Server
