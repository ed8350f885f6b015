import FileStorage.Server.FifoChain
import Mathlib.Data.List.Find
import Mathlib.Data.List.Perm.Subperm

/-!
# FifoEviction — when the eviction loop of the FIFO policy gets through

The loop evicts what the chain names from `fifo.last` on, in that order, and dereferences `NULL`
when the chain ends too early or names a file that is gone.
-/

namespace FileStorage.Server

open Memory

/-! ## 1. What a run of the loop takes away -/

namespace Evictions

variable {P : Platform} {t t' : HTable} {L L' : Contents} {evicted : List File}

theorem length (h : Evictions P t L evicted t' L') (hs : Stored P t L) :
    L'.flatten.length + evicted.length = L.flatten.length := by
  induction h with
  | done hlimits => rfl
  | round hlimits hev rest ih =>
    have hrest := ih (hs.drop hev.mem hev.linked hev.live)
    have hdrop := hs.drop_length hev.mem
    rw [List.length_cons]
    omega

theorem bytes (h : Evictions P t L evicted t' L') (hs : Stored P t L) :
    bytesOf L'.flatten + (evicted.map File.lengthInBytes).sum = bytesOf L.flatten := by
  induction h with
  | done hlimits => rfl
  | round hlimits hev rest ih =>
    have hrest := ih (hs.drop hev.mem hev.linked hev.live)
    have hdrop := hs.drop_bytes hev.mem
    rw [List.map_cons, List.sum_cons]
    omega

end Evictions

/-- No file is evicted twice. -/
theorem Evicts.nodup {m m' : FileMap} {evicted : List File} (h : Evicts m evicted m') :
    (evicted.map File.key).Nodup := by
  induction h with
  | nil m => exact List.nodup_nil
  | cons hf rest ih =>
    rename_i m m' f evicted
    refine List.nodup_cons.mpr ⟨fun hmem => ?_, ih⟩
    obtain ⟨g, hg, hkey⟩ := List.mem_map.mp hmem
    have hstored := rest.mem hg
    rw [hkey, Function.update_self] at hstored
    cases hstored

/-! ## 2. What the chain names -/

/-- The files `fs` are the first ones the chain names from `fifo.last` on, they are stored, and
without them the table is within its limits. -/
structure ChainNames (P : Platform) (t : HTable) (fs : List File) : Prop where
  named : fs.map File.key <+: t.fifoOrder
  distinct : (fs.map File.key).Nodup
  stored : ∀ f ∈ fs, htableFetchFile P t f.key = .ok (some f)
  items : t.linkedFiles.length - fs.length ≤ t.maxItemsCount
  space : (t.linkedBytes - (fs.map File.lengthInBytes).sum) % wordSize ≤ t.maxSpaceInBytes

/-- Dropping an entry changes the lookup of its own key only. -/
theorem Linked.lookup_drop {P : Platform} {t : HTable} {L : Contents} (h : Linked P t L) {a : Addr}
    {f : File} (hmem : (a, f) ∈ L.flatten) {key : CStr} (hne : key ≠ f.key) :
    lookup (L.drop a) key = lookup L key := by
  rw [lookup, lookup, Contents.drop_flatten, List.find?_filter]
  refine List.find?_congr fun e he => ?_
  by_cases haddr : e.1 = a
  · obtain rfl : e = (a, f) := h.eq_of_addr he hmem haddr
    simp [hne.symm]
  · simp [haddr]

namespace ChainNames

variable {P : Platform} {t t₁ : HTable} {L : Contents} {f g : File} {fs : List File} {a : Addr}

/-- With exact counters and nothing left to name the table is within its limits. -/
theorem within (h : ChainNames P t []) (hitems : t.stats.itemsCount = t.linkedFiles.length)
    (hspace : t.stats.totalSpaceInBytes = t.linkedBytes % wordSize) : ¬t.exceedsLimits := by
  intro hexceeds
  rcases hexceeds with hmore | hmore
  · rw [hitems] at hmore
    exact Nat.not_lt.mpr h.items hmore
  · rw [hspace] at hmore
    exact Nat.not_lt.mpr h.space hmore

/-- The first file is the one that a round would take. -/
theorem first (h : ChainNames P t (g :: fs)) (hl : Linked P t L) :
    ∃ fifo last node, t.fifo = some fifo ∧ fifo.last = some last ∧
      t.fifoItems.read last = some node ∧ ∃ a, lookup L node.key = some (a, g) := by
  obtain ⟨rest, hrest⟩ := h.named
  rw [List.map_cons, List.cons_append] at hrest
  obtain ⟨fifo, last, node, hfifo, hlast, hread, hkey⟩ := fifoOrder_cons hrest.symm
  have hfetch := h.stored g List.mem_cons_self
  rw [hl.fetchFile, Except.ok.injEq] at hfetch
  obtain ⟨⟨a, g'⟩, hlook, rfl⟩ := Option.map_eq_some_iff.mp hfetch
  exact ⟨fifo, last, node, hfifo, hlast, hread, a, hkey ▸ hlook⟩

/-- A round takes the first file, and the others are still named. -/
theorem round (h : ChainNames P t (g :: fs)) (hl : Linked P t L) (hwf : FifoWf t)
    (hpolicy : t.policy = .fifo) (hev : Linked.Evicted P t L a f t₁) :
    f = g ∧ ChainNames P t₁ fs := by
  -- the node that was taken off the chain is its first
  have horder : t.fifoOrder = f.key :: t₁.fifoOrder := by
    cases hev.picked with
    | atRandom hrandom _ _ =>
      rw [hpolicy] at hrandom
      cases hrandom
    | inOrder _ hfifo hlast hread hkey hfifo' hitems =>
      rw [← hkey]
      exact fifoOrder_pop hwf hfifo hlast hread hfifo' hitems
  obtain ⟨rest, hrest⟩ := h.named
  rw [List.map_cons, List.cons_append, horder, List.cons.injEq] at hrest
  obtain ⟨hkey, hrest⟩ := hrest
  have hfetch := h.stored g List.mem_cons_self
  rw [hl.fetchFile, Except.ok.injEq, hkey, fileAt_of_lookup (hev.found hpolicy)] at hfetch
  obtain rfl := Option.some.inj hfetch
  obtain ⟨hnot, hdistinct⟩ := List.nodup_cons.mp h.distinct
  have hcount := hl.drop_length hev.mem
  have hbytes := hl.drop_bytes hev.mem
  refine ⟨rfl, ⟨rest, hrest⟩, hdistinct, ?_, ?_, ?_⟩
  · intro x hx
    have hne : x.key ≠ f.key := fun heq => hnot (heq ▸ List.mem_map_of_mem hx)
    have hstored := h.stored x (List.mem_cons_of_mem _ hx)
    rw [hl.fetchFile] at hstored
    rw [hev.linked.fetchFile, fileAt, hl.lookup_drop hev.mem hne]
    exact hstored
  · have hitems := h.items
    rw [hl.linkedFiles_length, List.length_cons] at hitems
    rw [hev.linked.linkedFiles_length, hev.settings.maxItemsCount]
    omega
  · have hspace := h.space
    rw [hl.linkedBytes_eq, ← hbytes, List.map_cons, List.sum_cons, Nat.add_sub_add_left] at hspace
    rw [hev.linked.linkedBytes_eq, hev.settings.maxSpaceInBytes]
    exact hspace

end ChainNames

/-! ## 3. The loop -/

/-- The allocator grants the array for every one of the next `n` files. -/
def GrantsEvicted (P : Platform) (done n : Nat) : Prop :=
  ∀ k < n, P.grants (decide (done + k = 0)) (sizeofFile * (done + k + 1)) = true

theorem isEmpty_eq {α : Type} (l : List α) : l.isEmpty = decide (l.length = 0) := by
  cases l <;> rfl

section

variable {P : Platform} {t t' : HTable} {L : Contents}

/-- What a loop that returns has evicted is what the chain names. -/
theorem evictLoop_fifo_ok {fuel : Nat} {evicted evicted' : List File} {rands rands' : List Nat}
    (h : Linked P t L) (hwf : FifoWf t) (hpolicy : t.policy = .fifo)
    (hlength : evicted.length < unsignedSize)
    (hx : evictLoop P fuel t evicted rands = .ok (t', evicted', rands')) :
    ∃ more L', evicted' = evicted ++ more ∧ Evictions P t L more t' L' ∧
      more.map File.key <+: t.fifoOrder ∧ evicted.length + more.length < unsignedSize ∧
      GrantsEvicted P evicted.length more.length := by
  induction fuel generalizing t L evicted rands with
  | zero =>
    unfold evictLoop at hx
    split at hx
    · cases hx
    · rename_i hlimits
      simp only [Except.ok.injEq, Prod.mk.injEq] at hx
      obtain ⟨rfl, rfl, -⟩ := hx
      exact ⟨[], L, (List.append_nil _).symm, .done hlimits, List.nil_prefix, hlength,
        fun k hk => absurd hk (Nat.not_lt_zero k)⟩
  | succ fuel ih =>
    unfold evictLoop at hx
    split at hx
    · rename_i hlimits
      obtain ⟨⟨t₁, evicted₁, rands₁⟩, hround, hx⟩ := Exec.bind_eq_ok.mp hx
      obtain ⟨a, f, hev, rfl, hcount, hgrants⟩ := h.evictRound_ok hround
      -- the counter has not wrapped, so it is the length of the array
      have hlength' : evicted.length + 1 < unsignedSize := by
        rcases Nat.lt_or_ge (evicted.length + 1) unsignedSize with hlt | hge
        · exact hlt
        · have heq : evicted.length + 1 = unsignedSize := by omega
          rw [heq, Nat.mod_self] at hcount
          exact absurd rfl hcount
      rw [Nat.mod_eq_of_lt hlength', isEmpty_eq] at hgrants
      have hwf₁ := hwf.picked hev.picked
      cases hev.picked with
      | atRandom hrandom hfifo hitems =>
        rw [hpolicy] at hrandom
        cases hrandom
      | inOrder _ hfifo hlast hread hkey hfifo' hitems =>
        have horder := fifoOrder_pop hwf hfifo hlast hread hfifo' hitems
        obtain ⟨more, L', hmore, hrest, hnamed, hbound, hgranted⟩ :=
          ih hev.linked hwf₁ (hev.settings.policy.trans hpolicy) (by simpa using hlength') hx
        rw [List.length_append, List.length_singleton] at hbound hgranted
        refine ⟨f :: more, L', ?_, .round hlimits hev hrest, ?_, ?_, ?_⟩
        · rw [hmore, List.append_assoc, List.singleton_append]
        · rw [List.map_cons, horder, ← hkey]
          exact List.cons_prefix_cons.mpr ⟨rfl, hnamed⟩
        · rw [List.length_cons]
          omega
        · intro k hk
          cases k with
          | zero => exact hgrants
          | succ k =>
            rw [List.length_cons] at hk
            have hnext := hgranted k (by omega)
            rwa [Nat.add_assoc, Nat.add_comm 1 k] at hnext
    · rename_i hlimits
      simp only [Except.ok.injEq, Prod.mk.injEq] at hx
      obtain ⟨rfl, rfl, -⟩ := hx
      exact ⟨[], L, (List.append_nil _).symm, .done hlimits, List.nil_prefix, hlength,
        fun k hk => absurd hk (Nat.not_lt_zero k)⟩

/-- While the chain names enough stored files the loop goes on to its end. -/
theorem evictLoop_fifo_of_chain {fs : List File} {fuel : Nat} (evicted : List File)
    (hs : Stored P t L) (hc : Counted False t.stats L.flatten) (hwf : FifoWf t)
    (hpolicy : t.policy = .fifo) (hnames : ChainNames P t fs) (hfuel : fs.length ≤ fuel)
    (hlength : evicted.length + fs.length < unsignedSize)
    (hgrants : GrantsEvicted P evicted.length fs.length) (rands : List Nat) :
    ∃ t' evicted', evictLoop P fuel t evicted rands = .ok (t', evicted', rands) := by
  -- on the files named: every round takes one of them
  induction fs generalizing t L fuel evicted with
  | nil =>
    have hlimits : ¬t.exceedsLimits :=
      hnames.within (hc.items.trans hs.linkedFiles_length.symm)
        (by rw [hs.linkedBytes_eq]; exact hc.space)
    refine ⟨t, evicted, ?_⟩
    cases fuel <;> rw [evictLoop, if_neg hlimits]
  | cons g fs ih =>
    by_cases hlimits : t.exceedsLimits
    · obtain ⟨fuel, rfl⟩ : ∃ n, fuel = n + 1 := by
        cases fuel with
        | zero => simp at hfuel
        | succ n => exact ⟨n, rfl⟩
      simp only [List.length_cons] at hfuel hlength
      -- the round takes the file that the chain names first
      obtain ⟨fifo, last, node, hfifo, hlast, hread, a, hlook⟩ := hnames.first hs.toLinked
      have hfirst : P.grants evicted.isEmpty (sizeofFile * (evicted.length + 1)) := by
        rw [isEmpty_eq]
        exact hgrants 0 (by simp)
      obtain ⟨t₁, hround⟩ := hs.evictRound_of_fifo hpolicy hfifo hlast hread hlook
        (show evicted.length + 1 < unsignedSize by omega) hfirst rands
      obtain ⟨b, f, hev, happ, -, -⟩ := hs.evictRound_ok hround
      obtain ⟨rfl, hnames₁⟩ := hnames.round hs.toLinked hwf hpolicy hev
      have hmem := hev.mem
      have hc₁ : Counted False t₁.stats (L.drop b).flatten := by
        rw [hev.stats]
        exact (hc.perm (hs.drop_perm hmem)).evictStats (hs.sized _ hmem).2
      obtain ⟨t', evicted', hloop⟩ := ih (evicted ++ [f]) (hs.drop hmem hev.linked hev.live) hc₁
        (hwf.picked hev.picked) (hev.settings.policy.trans hpolicy) hnames₁
        (show fs.length ≤ fuel by omega)
        (by rw [List.length_append, List.length_singleton]; omega)
        (by
          intro k hk
          have hnext := hgrants (k + 1) (by rw [List.length_cons]; omega)
          rw [List.length_append, List.length_singleton]
          rwa [Nat.add_assoc evicted.length 1 k, Nat.add_comm 1 k])
      refine ⟨t', evicted', ?_⟩
      rw [evictLoop, if_pos hlimits, hround, Exec.ok_bind]
      exact hloop
    · refine ⟨t, evicted, ?_⟩
      cases fuel <;> rw [evictLoop, if_neg hlimits]

end

/-! ## 4. One write -/

/-- The chain names the files, and the array for them can be allocated. -/
structure FifoServes (P : Platform) (t : HTable) (fs : List File) : Prop
    extends ChainNames P t fs where
  count : fs.length < unsignedSize
  granted : GrantsEvicted P 0 fs.length

/-- The eviction loop that the call comes to, if any, evicts stored files only and returns within
both limits. -/
def EvictionsServed (P : Platform) (t : HTable) (c : Call) : Prop :=
  ∀ t₁, c.op.writeSections P t = .ok (some t₁) →
    ∃ evicted t', htableEvictFiles P t₁ c.rands = .ok (evicted, t') ∧
      (∀ f ∈ evicted, htableFetchFile P t₁ f.key = .ok (some f)) ∧
      t'.stats.itemsCount ≤ t'.maxItemsCount ∧ t'.stats.totalSpaceInBytes ≤ t'.maxSpaceInBytes

/-- When the loop starts, the chain names the files it takes. -/
def ChainServes (P : Platform) (t : HTable) (c : Call) : Prop :=
  ∀ t₁, c.op.writeSections P t = .ok (some t₁) → ∃ fs, FifoServes P t₁ fs

/-- What holds before every call of a run under FIFO. -/
structure FifoReady (P : Platform) (t : HTable) (L : Contents) : Prop extends Stored P t L where
  counted : Counted False t.stats L.flatten
  chain : FifoWf t
  policy : t.policy = .fifo

section

variable {P : Platform} {t : HTable} {L : Contents}

theorem fifoServes_iff (h : FifoReady P t L) (rands : List Nat) :
    (∃ evicted t', htableEvictFiles P t rands = .ok (evicted, t') ∧
        (∀ f ∈ evicted, htableFetchFile P t f.key = .ok (some f)) ∧
        t'.stats.itemsCount ≤ t'.maxItemsCount ∧
        t'.stats.totalSpaceInBytes ≤ t'.maxSpaceInBytes) ↔
      ∃ fs, FifoServes P t fs := by
  constructor
  · rintro ⟨evicted, t', hx, -, -, -⟩
    obtain ⟨⟨t₁, evicted₁, rands₁⟩, hloop, hx⟩ := Exec.bind_eq_ok.mp hx
    simp only [Exec.pure_eq_ok, Except.ok.injEq, Prod.mk.injEq] at hx
    obtain ⟨rfl, rfl⟩ := hx
    obtain ⟨more, L', hmore, hev, hnamed, hcount, hgranted⟩ :=
      evictLoop_fifo_ok h.toLinked h.chain h.policy (by decide) hloop
    rw [List.nil_append] at hmore
    subst hmore
    rw [List.length_nil, Nat.zero_add] at hcount
    have hevicts := hev.evicts h.toStored
    have hc := hev.counted h.toStored h.counted
    have hlimits := hev.limits
    have hlength := hev.length h.toStored
    have hbytes := hev.bytes h.toStored
    refine ⟨evicted₁, ⟨hnamed, hevicts.nodup, ?_, ?_, ?_⟩, hcount, hgranted⟩
    · intro f hf
      rw [h.fetchFile, hevicts.mem hf]
    · have hitems : ¬t₁.stats.itemsCount > t₁.maxItemsCount := fun hmore => hlimits (Or.inl hmore)
      rw [hc.items, hev.settings.maxItemsCount] at hitems
      rw [h.linkedFiles_length]
      omega
    · have hspace : ¬t₁.stats.totalSpaceInBytes > t₁.maxSpaceInBytes :=
        fun hmore => hlimits (Or.inr hmore)
      rw [hc.space, hev.settings.maxSpaceInBytes] at hspace
      rw [h.linkedBytes_eq, ← hbytes, Nat.add_sub_cancel]
      exact Nat.not_lt.mp hspace
  · rintro ⟨fs, hfs⟩
    have hstored : ∀ f ∈ fs, fileAt L f.key = some f := by
      intro f hf
      have hfetch := hfs.stored f hf
      rwa [h.fetchFile, Except.ok.injEq] at hfetch
    -- the files are different stored files, so the loop has fuel for all of them
    have hfuel : fs.length ≤ L.flatten.length := by
      have hsub : fs.map File.key ⊆ keysOf L.flatten := by
        intro key hkey
        obtain ⟨f, hf, rfl⟩ := List.mem_map.mp hkey
        obtain ⟨a, hmem, -⟩ := h.fileAt_iff.mp (hstored f hf)
        exact List.mem_map.mpr ⟨(a, f), hmem, rfl⟩
      have hle := (List.subperm_of_subset hfs.distinct hsub).length_le
      rwa [List.length_map, keysOf, List.length_map] at hle
    have hlive := h.length_le_live
    obtain ⟨t', evicted', hloop⟩ := evictLoop_fifo_of_chain [] h.toStored h.counted h.chain
      h.policy hfs.toChainNames (show fs.length ≤ t.items.live + 1 by omega)
      (by rw [List.length_nil, Nat.zero_add]; exact hfs.count) hfs.granted rands
    have hx : htableEvictFiles P t rands = .ok (evicted', t') := by
      rw [htableEvictFiles, hloop]
      rfl
    obtain ⟨L', hev⟩ := evictFiles_ok h.toLinked hx
    refine ⟨evicted', t', hx, ?_, ?_, ?_⟩
    · intro f hf
      rw [h.fetchFile, (hev.evicts h.toStored).mem hf]
    · exact Nat.not_lt.mp fun hmore => hev.limits (Or.inl hmore)
    · exact Nat.not_lt.mp fun hmore => hev.limits (Or.inr hmore)

/-- The sections of a write leave a table that is ready for the loop. -/
theorem FifoReady.writeSections (h : FifoReady P t L) {op : Op} {t₁ : HTable}
    (hx : op.writeSections P t = .ok (some t₁)) : ∃ L₁, FifoReady P t₁ L₁ := by
  cases hop : op.writes with
  | false =>
    rw [Op.writeSections_of_not_writes hop] at hx
    cases hx
  | true =>
    rcases writeSections_ok h.toStored hop hx with
      ⟨-, hr⟩ | ⟨a, f, f', hlook, hverdict, hsize, hr⟩
    · cases hr
    · obtain rfl := Option.some.inj hr
      exact ⟨_, stored_written h.toStored hop hlook hverdict hsize,
        Effect.counted_written h.toStored h.counted hop hlook hverdict fun hfalse => hfalse.elim,
        h.chain.of_same rfl rfl, h.policy⟩

theorem evictionsServed_iff (h : FifoReady P t L) (c : Call) :
    EvictionsServed P t c ↔ ChainServes P t c := by
  constructor
  · intro hserved t₁ hx
    obtain ⟨L₁, h₁⟩ := h.writeSections hx
    exact (fifoServes_iff h₁ c.rands).mp (hserved t₁ hx)
  · intro hchain t₁ hx
    obtain ⟨L₁, h₁⟩ := h.writeSections hx
    exact (fifoServes_iff h₁ c.rands).mpr (hchain t₁ hx)

end

/-! ## 5. Over a run -/

namespace SequentialRun

variable {P : Platform} {buckets : Nat} {config : Config} {tr : List (HTable × Call)} {t : HTable}

theorem fifoReady (run : SequentialRun P buckets config tr t)
    (hpolicy : config.cacheEvictionPolicy = .fifo) : ∃ L, FifoReady P t L := by
  obtain ⟨t₀, hcreate, run⟩ := run
  have hpolicy₀ := (policy_create hcreate).trans hpolicy
  refine run.invariant (fun t => ∃ L, FifoReady P t L) (fun _ _ => True)
    ⟨_, stored_create hcreate, counted_create False hcreate, .create hcreate, hpolicy₀⟩ ?_
    fun _ _ => trivial
  rintro s c s' ⟨L, h⟩ - ⟨out, hexec⟩
  obtain ⟨L', heffect⟩ := effect_of_exec h.toStored hexec
  exact ⟨L', heffect.stored h.toStored,
    heffect.counted h.toStored h.counted fun hfalse => hfalse.elim,
    .effect heffect h.chain, heffect.settings.policy.trans h.policy⟩

end SequentialRun

/-- Over a run under FIFO, with `c` the call made next, every eviction loop that is entered finds
a stored file in each round and ends within the limits exactly when, at each call that comes to
the loop, the chain names the files to go from `fifo.last` on. -/
theorem fifo_evictions_served_iff {P : Platform} {buckets : Nat} {config : Config}
    {tr : List (HTable × Call)} {t : HTable} (run : SequentialRun P buckets config tr t)
    (hpolicy : config.cacheEvictionPolicy = .fifo) (c : Call) :
    (∀ x ∈ tr ++ [(t, c)], EvictionsServed P x.1 x.2) ↔
      ∀ x ∈ tr ++ [(t, c)], ChainServes P x.1 x.2 := by
  have hiff : ∀ x ∈ tr ++ [(t, c)], EvictionsServed P x.1 x.2 ↔ ChainServes P x.1 x.2 := by
    intro x hx
    have hstate : x.1 ∈ statesOf tr t := by
      have hmem := List.mem_map_of_mem (f := Prod.fst) hx
      rwa [List.map_append] at hmem
    obtain ⟨tr', run', -⟩ := run.of_state hstate
    obtain ⟨L, h⟩ := run'.fifoReady hpolicy
    exact evictionsServed_iff h x.2
  exact forall₂_congr hiff

/-- One file too many: the oldest file is evicted and the loop ends. -/
theorem fifo_evictions_served_once :
    ∃ tr t, SequentialRun samplePlatform 1 ⟨1, 10, .fifo⟩ tr t ∧ tr.length = 2 ∧
      ∀ x ∈ tr ++ [(t, ⟨.replace (bufToStr [98]) [7], []⟩)], ChainServes samplePlatform x.1 x.2 := by
  obtain ⟨tr, t, run, htest⟩ := SequentialRun.of_run_test samplePlatform 1 ⟨1, 10, .fifo⟩
    [⟨.create (bufToStr [97]) 3 false, []⟩, ⟨.create (bufToStr [98]) 3 false, []⟩]
    (fun tr t => tr.length == 2 && (tr ++ [(t, Call.mk (.replace (bufToStr [98]) [7]) [])]).all fun x =>
      (x.2.op.writeSections samplePlatform x.1).any fun r => r.all fun t₁ =>
        (htableEvictFiles samplePlatform t₁ x.2.rands).any fun e =>
          e.1.all (fun f => decide (htableFetchFile samplePlatform t₁ f.key = .ok (some f))) &&
            decide (e.2.stats.itemsCount ≤ e.2.maxItemsCount ∧
              e.2.stats.totalSpaceInBytes ≤ e.2.maxSpaceInBytes))
    (by decide +kernel)
  rw [Bool.and_eq_true, beq_iff_eq, List.all_eq_true] at htest
  refine ⟨tr, t, run, htest.1, (fifo_evictions_served_iff run rfl _).mp fun x hx t₁ ht₁ => ?_⟩
  obtain ⟨r, hr, hcall⟩ := Exec.any_eq_true.mp (htest.2 x hx)
  rw [ht₁] at hr
  cases hr
  obtain ⟨e, hloop, hcall⟩ := Exec.any_eq_true.mp hcall
  simp only [Bool.and_eq_true, List.all_eq_true, decide_eq_true_eq] at hcall
  exact ⟨e.1, e.2, hloop, hcall.1, hcall.2⟩

/-- Two files too many: after the first eviction `fifo.last` is `NULL`, and the second round of
the loop reads the file through it. -/
theorem fifo_eviction_reads_null :
    ¬∀ (P : Platform) (buckets : Nat) (config : Config) (tr : List (HTable × Call)) (t : HTable),
      0 < config.maxFiles → 0 < config.maxStorageInBytes → config.cacheEvictionPolicy = .fifo →
      SequentialRun P buckets config tr t → ∀ c, EvictionsServed P t c := by
  intro hclaim
  obtain ⟨tr, t, run, htest⟩ := SequentialRun.of_run_test samplePlatform 1 ⟨1, 10, .fifo⟩
    [⟨.create (bufToStr [97]) 3 false, []⟩, ⟨.create (bufToStr [98]) 3 false, []⟩,
      ⟨.create (bufToStr [99]) 3 false, []⟩]
    (fun _ t =>
      (Op.writeSections samplePlatform t (.replace (bufToStr [99]) [7])).anySome fun t₁ =>
        decide (htableEvictFiles samplePlatform t₁ [] = .error .fault))
    (by decide +kernel)
  have hserved := hclaim _ _ _ _ _ (by decide) (by decide) rfl run
    ⟨.replace (bufToStr [99]) [7], []⟩
  obtain ⟨t₁, hr, htest⟩ := Exec.anySome_eq_true.mp htest
  obtain ⟨evicted, t', hloop, -⟩ := hserved t₁ hr
  rw [of_decide_eq_true htest] at hloop
  cases hloop

end FileStorage.Server
