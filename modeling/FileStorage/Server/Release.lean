import FileStorage.Server.FifoIndex
import FileStorage.Server.Summary

/-!
# Release — freeing the table at the end

`htable_free` goes over the buckets and then, with the FIFO policy, over the chain from `head`.  An
eviction frees the node at the other end of that chain and leaves the node before it pointing there.
-/

namespace FileStorage.Server

open Memory

/-! ## 1. The code -/

/-- The loop over the items of a bucket.  `item->next` is read before the item is freed. -/
def freeBucket (items : Heap HTableItem) : Nat → Ptr → Exec (Heap HTableItem)
  | _, none => .ok items
  | 0, some _ => .error .diverge
  | fuel + 1, some a => do
      let item ← items.load a
      freeBucket (items.free a) fuel item.next

def freeBuckets (items : Heap HTableItem) : List HTableBucket → Exec (Heap HTableItem)
  | [] => .ok items
  | bucket :: buckets => do
      let items ← freeBucket items items.live bucket.head
      freeBuckets items buckets

/-- The heaps of the items and of the FIFO nodes when the table is freed. -/
def htableFree (t : HTable) : Exec (Heap HTableItem × Heap FifoItem) := do
  let items ← freeBuckets t.items t.buckets
  let (_, fifoItems) ← fifoFree t
  return (items, fifoItems)

/-! ## 2. The buckets -/

/-- On a list the loop frees what is on it. -/
theorem freeBucket_path {items : Heap HTableItem} {p : Ptr} {as : List Addr} {fuel : Nat}
    (h : Path (items.field HTableItem.next) p as none) (hfuel : as.length ≤ fuel) :
    ∃ items', freeBucket items fuel p = .ok items' ∧ items'.live + as.length = items.live ∧
      ∀ b, b ∉ as → items'.read b = items.read b := by
  induction as generalizing items p fuel with
  | nil =>
    obtain rfl : p = none := h
    exact ⟨items, by cases fuel <;> rfl, rfl, fun _ _ => rfl⟩
  | cons a as ih =>
    have hnot := (List.nodup_cons.mp h.nodup).1
    obtain ⟨rfl, n, hn, hrest⟩ := h
    obtain ⟨item, hread, rfl⟩ := Heap.field_eq_some hn
    cases fuel with
    | zero => exact absurd hfuel (Nat.not_succ_le_zero _)
    | succ fuel =>
      have hrest' : Path ((items.free a).field HTableItem.next) item.next as none :=
        hrest.congr fun b hb => Heap.field_congr
          (Heap.read_free_of_ne items fun (hab : a = b) => hnot (hab ▸ hb)) _
      obtain ⟨items', hloop, hlive, hsame⟩ := ih hrest' (Nat.le_of_succ_le_succ hfuel)
      have hfree := Heap.live_free hread
      refine ⟨items', ?_, by rw [List.length_cons]; omega, fun b hb => ?_⟩
      · rw [freeBucket, Heap.load_of_read hread, Exec.ok_bind, hloop]
      · have hne : a ≠ b := fun hab => hb (hab ▸ List.mem_cons_self)
        rw [hsame b fun hmem => hb (List.mem_cons_of_mem _ hmem), Heap.read_free_of_ne _ hne]

/-- The loop over the buckets, when the items still there are as they were. -/
theorem freeBuckets_links {items₀ items : Heap HTableItem} {buckets : List HTableBucket}
    {L : Contents} (h : List.Forall₂ (Links items₀) buckets L)
    (hnodup : (L.flatten.map Prod.fst).Nodup)
    (hsame : ∀ e ∈ L.flatten, items.read e.1 = items₀.read e.1) :
    ∃ items', freeBuckets items buckets = .ok items' ∧
      items'.live + L.flatten.length = items.live := by
  induction h generalizing items with
  | nil => exact ⟨items, rfl, rfl⟩
  | @cons b l buckets L hlinks hrest ih =>
    rw [List.flatten_cons, List.map_append] at hnodup
    obtain ⟨-, hnodup', hdisjoint⟩ := List.nodup_append.mp hnodup
    have hlinks' := hlinks.congr fun e he => hsame e (List.mem_append_left _ he)
    have hlive := items.length_le_live _ hlinks'.dlist.nodup hlinks'.isSome_read
    obtain ⟨items₁, hbucket, hlive₁, hkept⟩ := freeBucket_path hlinks'.dlist.fwd hlive
    -- no later bucket holds one of the freed items
    have hsame₁ : ∀ e ∈ L.flatten, items₁.read e.1 = items₀.read e.1 := by
      intro e he
      have hnot : e.1 ∉ l.map Prod.fst := fun hmem =>
        hdisjoint _ hmem _ (List.mem_map_of_mem he) rfl
      rw [hkept _ hnot]
      exact hsame e (List.mem_append_right _ he)
    obtain ⟨items', hloop, hlive'⟩ := ih hnodup' hsame₁
    rw [List.length_map] at hlive₁
    refine ⟨items', ?_, ?_⟩
    · rw [freeBuckets, hbucket, Exec.ok_bind]
      exact hloop
    · rw [List.flatten_cons, List.length_append]
      omega

theorem Linked.freeBuckets {P : Platform} {t : HTable} {L : Contents} (h : Linked P t L) :
    ∃ items, freeBuckets t.items t.buckets = .ok items ∧
      items.live + L.flatten.length = t.items.live := by
  refine freeBuckets_links (List.forall₂_iff_get.mpr ⟨h.length.symm, fun i hi hi' => ?_⟩)
    h.addrs_nodup fun _ _ => rfl
  exact h.bucket i _ _ (List.getElem?_eq_getElem hi) (List.getElem?_eq_getElem hi')

/-! ## 3. The chain -/

/-- Every node that the loop returns is freed, and no other one. -/
theorem fifoFreeLoop_live {nodes nodes' : Heap FifoItem} {fuel : Nat} {p : Ptr} {freed : List Addr}
    (hx : fifoFreeLoop nodes fuel p = .ok (freed, nodes')) :
    nodes'.live + freed.length = nodes.live := by
  induction fuel generalizing nodes p freed with
  | zero =>
    cases p with
    | none =>
      cases hx
      rfl
    | some a => cases hx
  | succ fuel ih =>
    cases p with
    | none =>
      cases hx
      rfl
    | some a =>
      obtain ⟨node, hload, hx⟩ := Exec.bind_eq_ok.mp hx
      obtain ⟨⟨freed₁, nodes₁⟩, hloop, hx⟩ := Exec.bind_eq_ok.mp hx
      cases hx
      have hrest := ih hloop
      have hfree := Heap.live_free (Heap.load_eq_ok.mp hload)
      rw [List.length_cons]
      omega

theorem FifoLinks.free_live {t : HTable} {as : List Addr} {keys : List CStr}
    (h : FifoLinks t as keys) : ∃ nodes, fifoFree t = .ok (as, nodes) ∧ nodes.live = 0 := by
  obtain ⟨nodes, hfree⟩ := h.free
  obtain ⟨fifo, hfifo, -, hpath⟩ := h.chain
  have hlive := fifoFreeLoop_live (show fifoFreeLoop _ _ fifo.head = .ok (as, nodes) by
    rw [← hfree, fifoFree, hfifo])
  have hcount := t.fifoItems.live_eq_length as hpath.nodup h.live
  exact ⟨nodes, hfree, by omega⟩

/-- The chain after these files were evicted. -/
def ChainAfter (t : HTable) (evicted : List File) : Prop :=
  match t.policy with
  | .segmentedFifo => t.fifo = none ∧ t.fifoItems = .empty
  | .fifo => if evicted = [] then ∃ as keys, FifoLinks t as keys else FifoSevered t

namespace ChainAfter

variable {P : Platform} {t t' : HTable} {L L' : Contents} {before evicted : List File}

theorem of_segmented (hpolicy : t.policy = .segmentedFifo) :
    ChainAfter t before ↔ t.fifo = none ∧ t.fifoItems = .empty := by
  rw [ChainAfter, hpolicy]

theorem of_fifo (hpolicy : t.policy = .fifo) :
    ChainAfter t before ↔
      if before = [] then ∃ as keys, FifoLinks t as keys else FifoSevered t := by
  rw [ChainAfter, hpolicy]

theorem of_same (h : ChainAfter t before) (hpolicy : t'.policy = t.policy)
    (hfifo : t'.fifo = t.fifo) (hitems : t'.fifoItems = t.fifoItems) : ChainAfter t' before := by
  cases hcase : t.policy with
  | segmentedFifo =>
    rw [of_segmented hcase] at h
    rw [of_segmented (hpolicy.trans hcase)]
    exact ⟨hfifo.trans h.1, hitems.trans h.2⟩
  | fifo =>
    rw [of_fifo hcase] at h
    rw [of_fifo (hpolicy.trans hcase)]
    by_cases hnone : before = []
    · rw [if_pos hnone] at h ⊢
      obtain ⟨as, keys, hlinks⟩ := h
      exact ⟨as, keys, hlinks.of_same hfifo hitems⟩
    · rw [if_neg hnone] at h ⊢
      obtain ⟨fifo, hsome, hsevered⟩ := h
      exact ⟨fifo, hfifo.trans hsome, by rw [hitems]; exact hsevered⟩

/-- A policy that goes by age has freed a node, and none of the others leads to `NULL` now. -/
theorem round {a : Addr} {f : File} (h : ChainAfter t before)
    (hev : Linked.Evicted P t L a f t') : ChainAfter t' (before ++ [f]) := by
  cases hev.picked with
  | atRandom hpolicy hfifo hitems =>
    rw [of_segmented hpolicy] at h
    rw [of_segmented (hev.settings.policy.trans hpolicy)]
    exact ⟨hfifo.trans h.1, hitems.trans h.2⟩
  | @inOrder fifo last node hpolicy hfifo hlast hread hkey hfifo' hitems =>
    have hpop := Linked.fifoEvict_of_last hfifo hlast hread
    rw [of_fifo hpolicy] at h
    rw [of_fifo (hev.settings.policy.trans hpolicy),
      if_neg (List.append_ne_nil_of_right_ne_nil _ (List.cons_ne_nil f []))]
    have hsevered : FifoSevered (t.popFifo fifo last node) := by
      by_cases hnone : before = []
      · rw [if_pos hnone] at h
        obtain ⟨as, keys, hlinks⟩ := h
        obtain ⟨fifo', hsome, hlast', -⟩ := hlinks.chain
        rw [hfifo, Option.some.injEq] at hsome
        rw [← hsome, hlast] at hlast'
        cases as with
        | nil => cases hlast'
        | cons b bs => exact hlinks.evict_severs hpop
      · rw [if_neg hnone] at h
        exact h.evict hpop
    obtain ⟨fifo₁, hsome, hnone⟩ := hsevered
    exact ⟨fifo₁, hfifo'.trans hsome, by rw [hitems]; exact hnone⟩

theorem evictions (h : ChainAfter t before) (hev : Evictions P t L evicted t' L') :
    ChainAfter t' (before ++ evicted) := by
  induction hev generalizing before with
  | done hlimits => rwa [List.append_nil]
  | round hlimits hround rest ih =>
    have hrest := ih (h.round hround)
    rwa [List.append_assoc] at hrest

/-- The new file is added at the head, whether or not the other end is gone. -/
theorem created {t₁ : HTable} {key : CStr} (h : ChainAfter t before) (hsame : SameElse t t₁)
    (hstats : createStatsSection t₁ key = .ok t') : ChainAfter t' before := by
  have h₁ := h.of_same hsame.policy hsame.fifo hsame.fifoItems
  have hpolicy' := (createStatsSection_ok hstats).1.policy.trans hsame.policy
  cases hcase : t.policy with
  | segmentedFifo =>
    have hne : t₁.policy ≠ .fifo := by
      rw [hsame.policy, hcase]
      decide
    unfold createStatsSection at hstats
    simp only at hstats
    rw [if_neg hne] at hstats
    obtain rfl := Except.ok.inj hstats
    exact h₁.of_same rfl rfl rfl
  | fifo =>
    rw [of_fifo (hpolicy'.trans hcase)]
    by_cases hnone : before = []
    · rw [of_fifo hcase, if_pos hnone] at h
      rw [if_pos hnone]
      obtain ⟨as, keys, hlinks⟩ := h
      obtain ⟨as', hlinks'⟩ := hlinks.created hcase hsame hstats
      exact ⟨as', _, hlinks'⟩
    · rw [of_fifo (hsame.policy.trans hcase), if_neg hnone] at h₁
      rw [if_neg hnone]
      unfold createStatsSection at hstats
      simp only at hstats
      rw [if_pos (hsame.policy.trans hcase)] at hstats
      have hsevered : FifoSevered { t₁ with stats := t₁.stats.incOpen.incItems.raiseMaxItems } := h₁
      exact hsevered.add hstats

theorem effect {op : Op} {out : Outcome} (h : ChainAfter t evicted)
    (heffect : Effect P t L op out t' L') : ChainAfter t' (evicted ++ out.evicted) := by
  cases heffect with
  | refused hverdict => rwa [List.append_nil]
  | touched hop hlook hverdict =>
    rw [List.append_nil]
    exact h.of_same rfl rfl rfl
  | created hlook hlinked hsame hlive hroom hstats =>
    rw [List.append_nil]
    exact h.created hsame hstats
  | removed hlook hallowed hremoved =>
    have hsame := hremoved.same
    rw [List.append_nil]
    exact h.of_same hsame.policy hsame.fifo hsame.fifoItems
  | @wrote op a f f' evicted' t' L' hop hlook hverdict hsize hev =>
    have hwritten : ChainAfter (t.written op a f f') evicted := h.of_same rfl rfl rfl
    exact hwritten.evictions hev

/-- A new table stores nothing, and it has a chain exactly when its policy goes by one. -/
theorem create {buckets : Nat} {config : Config} (hx : htableCreate buckets config = .ok t) :
    t.items.live = 0 ∧ ChainAfter t [] := by
  have hfields : t.items = .empty ∧ t.fifoItems = .empty ∧
      t.fifo = if config.cacheEvictionPolicy = .fifo then some ⟨none, none⟩ else none := by
    unfold htableCreate at hx
    split at hx
    · obtain rfl := Except.ok.inj hx
      exact ⟨rfl, rfl, rfl⟩
    · cases hx
  obtain ⟨hitems, hnodes, hfifo⟩ := hfields
  have hpolicy := policy_create hx
  refine ⟨by rw [hitems]; rfl, ?_⟩
  cases hcase : config.cacheEvictionPolicy with
  | segmentedFifo =>
    rw [hcase, if_neg (by decide)] at hfifo
    exact (of_segmented (hpolicy.trans hcase)).mpr ⟨hfifo, hnodes⟩
  | fifo =>
    have hlinks := FifoLinks.create t
    rw [fifoCreate_of_create hx hcase] at hlinks
    exact (of_fifo (hpolicy.trans hcase)).mpr (by rw [if_pos rfl]; exact ⟨_, _, hlinks⟩)

/-- Unless the policy goes by age and something was evicted, the chain is freed as a whole. -/
theorem freed (h : ChainAfter t before) (hquiet : t.policy = .segmentedFifo ∨ before = []) :
    ∃ freed nodes, fifoFree t = .ok (freed, nodes) ∧ nodes.live = 0 := by
  cases hcase : t.policy with
  | segmentedFifo =>
    obtain ⟨hnone, hempty⟩ := (of_segmented hcase).mp h
    exact ⟨[], .empty, by rw [fifoFree, hnone, hempty], rfl⟩
  | fifo =>
    rw [hcase] at hquiet
    have hafter := (of_fifo hcase).mp h
    rw [if_pos (hquiet.resolve_left (by decide))] at hafter
    obtain ⟨as, keys, hlinks⟩ := hafter
    obtain ⟨nodes, hx, hlive⟩ := hlinks.free_live
    exact ⟨as, nodes, hx, hlive⟩

theorem not_freed (h : ChainAfter t before) (hpolicy : t.policy = .fifo) (hevicted : before ≠ [])
    (r : List Addr × Heap FifoItem) : fifoFree t ≠ .ok r := by
  have hafter := (of_fifo hpolicy).mp h
  rw [if_neg hevicted] at hafter
  exact FifoSevered.not_free hafter

end ChainAfter

/-! ## 4. Over a run -/

/-- Nothing is allocated but the linked items. -/
theorem Evictions.no_leak {P : Platform} {t t' : HTable} {L L' : Contents} {evicted : List File}
    (h : Evictions P t L evicted t' L') (hs : Stored P t L)
    (hlive : t.items.live = L.flatten.length) : t'.items.live = L'.flatten.length := by
  induction h with
  | done hlimits => exact hlive
  | round hlimits hev rest ih =>
    have hlength := hs.drop_length hev.mem
    have hround := hev.live
    exact ih (hs.drop hev.mem hev.linked hev.live) (by omega)

theorem Effect.no_leak {P : Platform} {t t' : HTable} {L L' : Contents} {op : Op} {out : Outcome}
    (h : Effect P t L op out t' L') (hs : Stored P t L) (hlive : t.items.live = L.flatten.length) :
    t'.items.live = L'.flatten.length := by
  cases h with
  | refused hverdict => exact hlive
  | touched hop hlook hverdict =>
    rw [Linked.setFile_length]
    exact (Heap.live_modify _ _ _).trans hlive
  | created hlook hlinked hsame hlive' hroom hstats =>
    rename_i key fd withLock t₁
    have hpush := (hs.push_perm (t.items.fresh, newFile key fd withLock)).length_eq
    rw [List.length_cons] at hpush
    rw [(createStatsSection_ok hstats).2.2.2, hlive', hlive]
    exact hpush.symm
  | removed hlook hallowed hremoved =>
    have hlength := hs.drop_length (mem_of_lookup hlook)
    have hfree := hremoved.live
    show _ = _
    simp only [removeStatsSection]
    omega
  | wrote hop hlook hverdict hsize hev =>
    refine hev.no_leak (stored_written hs hop hlook hverdict hsize) ?_
    rw [Linked.setFile_length]
    exact (Heap.live_modify _ _ _).trans hlive

theorem SequentialRun.left {P : Platform} {buckets : Nat} {config : Config}
    {tr : List (HTable × Call)} {t : HTable} (run : SequentialRun P buckets config tr t) :
    ChainAfter t (tr.flatMap (evictedBy P)) ∧
      ∃ L, Stored P t L ∧ t.items.live = L.flatten.length := by
  obtain ⟨t₀, hcreate, run⟩ := run
  induction run with
  | nil =>
    obtain ⟨hlive, hchain⟩ := ChainAfter.create hcreate
    have hflat : (List.replicate buckets ([] : List Entry)).flatten = [] := by simp
    exact ⟨hchain, _, stored_create hcreate, by rw [hflat]; exact hlive⟩
  | snoc run next ih =>
    rename_i tr s s' c
    obtain ⟨hchain, L, hs, hlive⟩ := ih
    obtain ⟨out, hexec⟩ := next
    obtain ⟨L', heffect⟩ := effect_of_exec hs hexec
    have hevicted : evictedBy P (s, c) = out.evicted := by rw [evictedBy, hexec]
    refine ⟨?_, L', heffect.stored hs, heffect.no_leak hs hlive⟩
    rw [List.flatMap_append, List.flatMap_singleton, hevicted]
    exact hchain.effect heffect

/-- Freeing the table after any run comes to its end exactly when the policy is not FIFO or nothing
was ever evicted, and then no item and no node is left behind. -/
theorem htableFree_returns_iff {P : Platform} {buckets : Nat} {config : Config}
    {tr : List (HTable × Call)} {t : HTable} (run : SequentialRun P buckets config tr t) :
    ((∃ items nodes, htableFree t = .ok (items, nodes)) ↔
      config.cacheEvictionPolicy = .segmentedFifo ∨ tr.flatMap (evictedBy P) = []) ∧
    ∀ items nodes, htableFree t = .ok (items, nodes) → items.live = 0 ∧ nodes.live = 0 := by
  obtain ⟨hchain, L, hs, hlive⟩ := run.left
  have hpolicy := run.policy
  obtain ⟨items, hbuckets, hleft⟩ := hs.toLinked.freeBuckets
  have hitems : items.live = 0 := by omega
  have hfree : htableFree t = (fifoFree t).map fun r => (items, r.2) := by
    rw [htableFree, hbuckets, Exec.ok_bind]
    cases fifoFree t <;> rfl
  by_cases hquiet : config.cacheEvictionPolicy = .segmentedFifo ∨ tr.flatMap (evictedBy P) = []
  · obtain ⟨freed, nodes, hx, hnodes⟩ := hchain.freed (hpolicy ▸ hquiet)
    rw [hfree, hx]
    refine ⟨⟨fun _ => hquiet, fun _ => ⟨items, nodes, rfl⟩⟩, fun items' nodes' hr => ?_⟩
    cases hr
    exact ⟨hitems, hnodes⟩
  · -- the loop over the chain runs into the freed node
    have hnever : ∀ items nodes, htableFree t ≠ .ok (items, nodes) := by
      intro items' nodes hr
      have hfifo : t.policy = .fifo := by
        rw [hpolicy]
        cases hcase : config.cacheEvictionPolicy with
        | segmentedFifo => exact absurd (Or.inl hcase) hquiet
        | fifo => rfl
      rw [hfree] at hr
      cases hx : fifoFree t with
      | error e =>
        rw [hx] at hr
        cases hr
      | ok r => exact hchain.not_freed hfifo (fun hnone => hquiet (Or.inr hnone)) r hx
    exact ⟨⟨fun ⟨items', nodes, hr⟩ => absurd hr (hnever items' nodes), fun h => absurd h hquiet⟩,
      fun items' nodes hr => absurd hr (hnever items' nodes)⟩

/-- A table that goes by age, with one eviction: it cannot be freed. -/
theorem htableFree_returns_iff_evicted :
    ∃ tr t, SequentialRun samplePlatform 1 ⟨10, 3, .fifo⟩ tr t ∧ t.linkedFiles.length = 1 ∧
      ∀ items nodes, htableFree t ≠ .ok (items, nodes) := by
  obtain ⟨tr, t, run, htest⟩ := SequentialRun.of_run_test samplePlatform 1 ⟨10, 3, .fifo⟩
    [⟨.create (bufToStr [97]) 3 false, []⟩, ⟨.replace (bufToStr [97]) [7, 8], []⟩,
      ⟨.create (bufToStr [98]) 4 false, []⟩, ⟨.replace (bufToStr [98]) [7, 8, 9], []⟩]
    (fun tr t => decide (t.linkedFiles.length = 1 ∧
      tr.flatMap (evictedBy samplePlatform) ≠ [])) (by decide +kernel)
  obtain ⟨hlength, hevicted⟩ := of_decide_eq_true htest
  refine ⟨tr, t, run, hlength, fun items nodes hr => ?_⟩
  rcases (htableFree_returns_iff run).1.mp ⟨items, nodes, hr⟩ with hpolicy | hquiet
  · cases hpolicy
  · exact hevicted hquiet

end FileStorage.Server
