import FileStorage.Server.Creation
import FileStorage.Server.FifoQueue

/-!
# FifoIndex — the chain of the FIFO policy against the table

The chain is a second index of the stored files.  `htable_create_file` adds to both, and
`htable_remove_file` takes the file out of the table only.
-/

namespace FileStorage.Server

open Memory

/-! ## 1. The chain as an index -/

/-- The keys of the chain, the one added first in front, are the stored keys by age. -/
structure KeysInStep (age : CStr → Nat) (m : FileMap) (keys : List CStr) : Prop where
  nodup : keys.Nodup
  stored : ∀ key, key ∈ keys ↔ ∃ f, m key = some f
  byAge : keys.Pairwise fun key key' => age key < age key'

/-- The chain of the table holds the stored keys, each once and by age, and the key that comes off
it next is that of the oldest file. -/
structure ChainInStep (P : Platform) (age : CStr → Nat) (t : HTable) : Prop where
  keys : ∃ (fifo : Fifo) (as : List Addr) (keys : List CStr), t.fifo = some fifo ∧
    Path (t.fifoItems.field FifoItem.prev) fifo.head as none ∧
    as.reverse.map (t.fifoItems.field FifoItem.key) = keys.map some ∧ keys.Nodup ∧
    (∀ key, key ∈ keys ↔ ∃ f, htableFetchFile P t key = .ok (some f)) ∧
    keys.Pairwise fun key key' => age key < age key'
  next : ∀ key t', fifoEvict t = .ok (some key, t') →
    ∃ f, htableFetchFile P t key = .ok (some f) ∧
      ∀ key' f', htableFetchFile P t key' = .ok (some f') → key' ≠ key → age key < age key'

/-- The call returns, and no file was evicted. -/
def EvictsNothing (P : Platform) (t : HTable) (c : Call) : Prop :=
  ∃ r, c.op.exec P t c.rands = .ok r ∧ r.1.evicted = []

/-- The call removes a stored file. -/
def RemovesFile (P : Platform) (t : HTable) (c : Call) : Prop :=
  ∃ found, htableFetchFile P t c.op.key = .ok found ∧ c.op.verdict found = .drop

instance (P : Platform) (t : HTable) (c : Call) : Decidable (EvictsNothing P t c) :=
  decidable_of_iff
    ((c.op.exec P t c.rands).any (fun r => decide (r.1.evicted = [])) = true)
    (by simp only [Exec.any_eq_true, decide_eq_true_eq, EvictsNothing])

instance (P : Platform) (t : HTable) (c : Call) : Decidable (RemovesFile P t c) :=
  decidable_of_iff
    ((htableFetchFile P t c.op.key).any (fun found => decide (c.op.verdict found = .drop)) = true)
    (by simp only [Exec.any_eq_true, decide_eq_true_eq, RemovesFile])

/-! ## 2. One call -/

theorem FifoLinks.of_same {t t' : HTable} {as : List Addr} {keys : List CStr}
    (h : FifoLinks t as keys) (hfifo : t'.fifo = t.fifo) (hitems : t'.fifoItems = t.fifoItems) :
    FifoLinks t' as keys := by
  refine ⟨?_, ?_, ?_⟩
  · rw [hfifo, hitems]
    exact h.chain
  · rw [hitems]
    exact h.live
  · rw [hitems]
    exact h.keys

/-- The key that comes off the chain is the one that was added first. -/
theorem FifoLinks.next {t t' : HTable} {as : List Addr} {keys : List CStr} {key : CStr}
    (h : FifoLinks t as keys) (hx : fifoEvict t = .ok (some key, t')) :
    ∃ rest, keys = key :: rest := by
  obtain ⟨fifo, last, node, hfifo, hlast, hread, rfl, -⟩ := Linked.fifoEvict_ok hx
  obtain ⟨fifo', hfifo', hlast', -⟩ := h.chain
  obtain rfl : fifo = fifo' := by simpa [hfifo] using hfifo'
  obtain ⟨bs, hbs⟩ : ∃ bs, as.reverse = last :: bs := by
    rw [hlast, ← List.head?_reverse] at hlast'
    exact List.head?_eq_some_iff.mp hlast'.symm
  have hkeys := h.keys
  rw [hbs, List.map_cons, Heap.field_eq_of_read hread] at hkeys
  cases keys with
  | nil => cases hkeys
  | cons k rest =>
    rw [List.map_cons, List.cons.injEq, Option.some.injEq] at hkeys
    exact ⟨rest, by rw [hkeys.1]⟩

/-- What a call that evicts nothing does to the chain and to the stored keys. -/
inductive IndexStep (P : Platform) (t : HTable) (L : Contents) (op : Op) (as : List Addr)
    (keys : List CStr) (t' : HTable) (L' : Contents) : Prop
  | kept (hkept : op.verdict (fileAt L op.key) ≠ .drop) (hlinks : FifoLinks t' as keys)
      (hlength : L'.flatten.length = L.flatten.length)
      (hold : ∀ rands key, creates P key (t, ⟨op, rands⟩) = false)
      (hstored : ∀ key, (∃ f, fileAt L' key = some f) ↔ ∃ f, fileAt L key = some f)
  | added {as' : List Addr} (hkept : op.verdict (fileAt L op.key) ≠ .drop)
      (hlinks : FifoLinks t' as' (keys ++ [op.key]))
      (hlength : L'.flatten.length = L.flatten.length + 1)
      (habsent : fileAt L op.key = none)
      (hnew : ∀ rands key, creates P key (t, ⟨op, rands⟩) = decide (key = op.key))
      (hstored : ∀ key, (∃ f, fileAt L' key = some f) ↔ key = op.key ∨ ∃ f, fileAt L key = some f)
  | dropped (hdrop : op.verdict (fileAt L op.key) = .drop) (hlinks : FifoLinks t' as keys)
      (hlength : L'.flatten.length < L.flatten.length)

theorem update_stored {m : FileMap} {key : CStr} {f f' : File} (hf : m key = some f)
    (key' : CStr) :
    (∃ g, Function.update m key (some f') key' = some g) ↔ ∃ g, m key' = some g := by
  by_cases hkey : key' = key
  · subst hkey
    simp [hf]
  · rw [Function.update_of_ne hkey]

section

variable {P : Platform} {t t' : HTable} {L L' : Contents} {op : Op} {out : Outcome}
  {as : List Addr} {keys : List CStr}

/-- A file is changed in place. -/
theorem IndexStep.setFile (hs : Stored P t L) {a : Addr} {f f' : File} {code : HTableError}
    {newOwner : Int} (hop : ∀ key fd withLock, op ≠ .create key fd withLock)
    (hlook : lookup L op.key = some (a, f)) (hverdict : op.verdict (some f) = .put code newOwner f')
    (hlinks : FifoLinks t' as keys) : IndexStep P t L op as keys t' (L.setFile a f') := by
  have hmem := mem_of_lookup hlook
  refine .kept ?_ hlinks (Linked.setFile_length _) (fun _ => creates_of_not_create hop) fun key => ?_
  · rw [fileAt_of_lookup hlook, hverdict]
    simp
  · rw [hs.fileAt_setFile hmem (Op.verdict_some_key hverdict)]
    exact update_stored (hs.fileAt_mem hmem) key

/-- The last section of `htable_create_file` adds the key to the chain. -/
theorem FifoLinks.created (hlinks : FifoLinks t as keys) (hpolicy : t.policy = .fifo) {t₁ : HTable}
    {key : CStr} (hsame : SameElse t t₁) (hstats : createStatsSection t₁ key = .ok t') :
    ∃ as', FifoLinks t' as' (keys ++ [key]) := by
  have hlinks₁ : FifoLinks { t₁ with stats := t₁.stats.incOpen.incItems.raiseMaxItems } as keys :=
    hlinks.of_same hsame.fifo hsame.fifoItems
  obtain ⟨t₂, hfifo, hlinks₂⟩ := hlinks₁.add key
  have hpolicy₁ : t₁.policy = .fifo := hsame.policy.trans hpolicy
  unfold createStatsSection at hstats
  simp only at hstats
  rw [if_pos hpolicy₁, hfifo] at hstats
  obtain rfl := Except.ok.inj hstats
  exact ⟨_, hlinks₂⟩

theorem Effect.indexStep (h : Effect P t L op out t' L') (hs : Stored P t L) (hev : out.evicted = [])
    (hpolicy : t.policy = .fifo) (hlinks : FifoLinks t as keys) :
    IndexStep P t L op as keys t' L' := by
  cases h with
  | refused hverdict =>
    refine .kept ?_ hlinks rfl (fun _ => creates_of_refuse hs hverdict) fun _ => Iff.rfl
    rw [hverdict]
    simp
  | touched hop hlook hverdict =>
    exact .setFile hs (Op.ne_create_of_touches hop) hlook hverdict (hlinks.of_same rfl rfl)
  | created hlook hlinked hsame hlive hroom hstats =>
    rename_i key fd withLock t₁
    have habsent := fileAt_of_lookup_none hlook
    obtain ⟨as', hlinks'⟩ := hlinks.created hpolicy hsame hstats
    refine .added ?_ hlinks' ?_ habsent (creates_of_absent hs habsent) fun key' => ?_
    · simp [Op.key, habsent, Op.verdict]
    · exact (hs.push_perm (t.items.fresh, newFile key fd withLock)).length_eq
    · have hpush : fileAt (L.push (P.xxh64 key % L.length) (t.items.fresh, newFile key fd withLock)) =
          Function.update (fileAt L) key (some (newFile key fd withLock)) :=
        hs.fileAt_push (t.items.fresh, newFile key fd withLock) hlook
      rw [hpush]
      show _ ↔ key' = key ∨ _
      by_cases hkey : key' = key
      · subst hkey
        simp
      · rw [Function.update_of_ne hkey]
        simp [hkey]
  | removed hlook hallowed hremoved =>
    have hsame := hremoved.same
    have hdrop := hs.drop_length (mem_of_lookup hlook)
    refine .dropped ?_ (hlinks.of_same hsame.fifo hsame.fifoItems) (by omega)
    simp only [Op.key, fileAt_of_lookup hlook, Op.verdict, if_neg hallowed]
  | wrote hop hlook hverdict hsize hevictions =>
    rename_i a f f' evicted
    obtain rfl : evicted = [] := hev
    -- so the table is the written one
    cases hevictions
    exact .setFile hs (Op.ne_create_of_writes hop) hlook hverdict (hlinks.of_same rfl rfl)

end

/-! ## 3. Over a run -/

/-- What holds in a run that has not evicted: the chain never names fewer files than are stored. -/
structure Indexed (P : Platform) (tr : List (HTable × Call)) (t : HTable) (L : Contents)
    (as : List Addr) (named : List CStr) : Prop extends Stored P t L where
  policy : t.policy = .fifo
  links : FifoLinks t as named
  covers : L.flatten.length ≤ named.length
  behind : (∃ x ∈ tr, RemovesFile P x.1 x.2) → L.flatten.length < named.length
  inStep : (∀ x ∈ tr, ¬RemovesFile P x.1 x.2) → KeysInStep (createdAt P tr) (fileAt L) named

theorem removesFile_iff {P : Platform} {t : HTable} {L : Contents} (hs : Stored P t L) (c : Call) :
    RemovesFile P t c ↔ c.op.verdict (fileAt L c.op.key) = .drop := by
  constructor
  · rintro ⟨found, hfetch, hdrop⟩
    rw [hs.fetchFile, Except.ok.injEq] at hfetch
    rwa [hfetch]
  · intro hdrop
    exact ⟨_, hs.fetchFile _, hdrop⟩

namespace Indexed

variable {P : Platform} {tr : List (HTable × Call)} {t t' : HTable} {L L' : Contents}
  {as : List Addr} {keys : List CStr} {c : Call} {out : Outcome}

theorem snoc (h : Indexed P tr t L as keys) (heffect : Effect P t L c.op out t' L')
    (hev : out.evicted = []) :
    ∃ as' keys', Indexed P (tr ++ [(t, c)]) t' L' as' keys' := by
  have hs := h.toStored
  have hstored := heffect.stored hs
  have hpolicy := heffect.settings.policy.trans h.policy
  have hcovers := h.covers
  -- a removal of the whole run is one of the calls before, or this one
  have hbefore : (∃ x ∈ tr ++ [(t, c)], RemovesFile P x.1 x.2) ↔
      (∃ x ∈ tr, RemovesFile P x.1 x.2) ∨ c.op.verdict (fileAt L c.op.key) = .drop := by
    rw [← removesFile_iff hs]
    simp only [List.mem_append, List.mem_singleton, or_and_right, exists_or, exists_eq_left]
  have hnone : (∀ x ∈ tr ++ [(t, c)], ¬RemovesFile P x.1 x.2) →
      ∀ x ∈ tr, ¬RemovesFile P x.1 x.2 := fun hall x hx => hall x (List.mem_append_left _ hx)
  cases heffect.indexStep hs hev h.policy h.links with
  | kept hkept hlinks hlength hold hkeys =>
    refine ⟨as, keys, hstored, hpolicy, hlinks, by omega, fun hex => ?_, fun hall => ?_⟩
    · have hlt := h.behind ((hbefore.mp hex).resolve_right hkept)
      omega
    · obtain ⟨hnodup, hin, hage⟩ := h.inStep (hnone hall)
      have hsame : createdAt P (tr ++ [(t, c)]) = createdAt P tr := by
        funext key
        rw [createdAt_snoc, hold c.rands key]
        rfl
      rw [hsame]
      exact ⟨hnodup, fun key => (hin key).trans (hkeys key).symm, hage⟩
  | added hkept hlinks hlength habsent hnew hkeys =>
    rename_i as'
    refine ⟨as', keys ++ [c.op.key], hstored, hpolicy, hlinks, ?_, fun hex => ?_, fun hall => ?_⟩
    · rw [List.length_append, List.length_singleton]
      omega
    · have hlt := h.behind ((hbefore.mp hex).resolve_right hkept)
      rw [List.length_append, List.length_singleton]
      omega
    · obtain ⟨hnodup, hin, hage⟩ := h.inStep (hnone hall)
      have hfresh : c.op.key ∉ keys := by
        intro hmem
        obtain ⟨f, hf⟩ := (hin _).mp hmem
        rw [habsent] at hf
        cases hf
      have hold : ∀ key ∈ keys, createdAt P (tr ++ [(t, c)]) key = createdAt P tr key := by
        intro key hkey
        have hne : key ≠ c.op.key := fun heq => hfresh (heq ▸ hkey)
        rw [createdAt_snoc, hnew c.rands key, decide_eq_false hne]
        rfl
      have hlast : createdAt P (tr ++ [(t, c)]) c.op.key = tr.length + 1 := by
        rw [createdAt_snoc, hnew c.rands, decide_eq_true rfl, if_pos rfl]
      refine ⟨?_, fun key => ?_, ?_⟩
      · refine List.nodup_append.mpr ⟨hnodup, List.nodup_singleton _, fun key hkey key' hkey' => ?_⟩
        rw [List.mem_singleton.mp hkey']
        exact fun heq => hfresh (heq ▸ hkey)
      · rw [hkeys, ← hin, List.mem_append, List.mem_singleton, or_comm]
      · refine List.pairwise_append.mpr ⟨hage.imp_of_mem fun {key key'} hk hk' hlt => ?_,
          List.pairwise_singleton _ _, fun key hk key' hk' => ?_⟩
        · rw [hold key hk, hold key' hk']
          exact hlt
        · rw [List.mem_singleton.mp hk', hold key hk, hlast]
          exact Nat.lt_succ_of_le (createdAt_le P tr key)
  | dropped hdrop hlinks hlength =>
    refine ⟨as, keys, hstored, hpolicy, hlinks, by omega, fun _ => by omega, fun hall => ?_⟩
    exact absurd ((removesFile_iff hs c).mpr hdrop)
      (hall (t, c) (List.mem_append_right _ (List.mem_singleton.mpr rfl)))

theorem chainInStep_iff (h : Indexed P tr t L as keys) :
    ChainInStep P (createdAt P tr) t ↔ ∀ x ∈ tr, ¬RemovesFile P x.1 x.2 := by
  have hfetch : ∀ key f, htableFetchFile P t key = .ok (some f) ↔ fileAt L key = some f := by
    intro key f
    rw [h.fetchFile, Except.ok.injEq]
  constructor
  · rintro ⟨⟨fifo', as', keys', hfifo', hpath', hmap', hnodup, hin, -⟩, -⟩ x hx hremoves
    -- the chain names more files than there are
    have hlt := h.behind ⟨x, hx, hremoves⟩
    obtain ⟨fifo, hfifo, -, hpath⟩ := h.links.chain
    obtain rfl : fifo = fifo' := by simpa [hfifo] using hfifo'
    obtain rfl := hpath.unique hpath'
    have hkeys : keys = keys' :=
      List.map_injective_iff.mpr (fun _ _ heq => Option.some.inj heq)
        (h.links.keys.symm.trans hmap')
    subst hkeys
    have hsub : keys ⊆ keysOf L.flatten := by
      intro key hkey
      obtain ⟨f, hf⟩ := (hin key).mp hkey
      obtain ⟨a, hmem, rfl⟩ := h.fileAt_iff.mp ((hfetch key f).mp hf)
      exact List.mem_map.mpr ⟨(a, f), hmem, rfl⟩
    have hle := (List.subperm_of_subset hnodup hsub).length_le
    rw [keysOf, List.length_map] at hle
    omega
  · intro hnone
    obtain ⟨hnodup, hin, hage⟩ := h.inStep hnone
    obtain ⟨fifo, hfifo, -, hpath⟩ := h.links.chain
    refine ⟨⟨fifo, as, keys, hfifo, hpath, h.links.keys, hnodup, fun key => ?_, hage⟩, ?_⟩
    · simp only [hfetch]
      exact hin key
    · intro key t' hx
      obtain ⟨rest, rfl⟩ := h.links.next hx
      obtain ⟨f, hf⟩ := (hin key).mp List.mem_cons_self
      refine ⟨f, (hfetch key f).mpr hf, fun key' f' hf' hne => ?_⟩
      have hmem := (hin key').mpr ⟨f', (hfetch key' f').mp hf'⟩
      exact (List.pairwise_cons.mp hage).1 key' ((List.mem_cons.mp hmem).resolve_left hne)

end Indexed

theorem SequentialRun.indexed {P : Platform} {buckets : Nat} {config : Config}
    {tr : List (HTable × Call)} {t : HTable} (run : SequentialRun P buckets config tr t)
    (hpolicy : config.cacheEvictionPolicy = .fifo) (hquiet : ∀ x ∈ tr, EvictsNothing P x.1 x.2) :
    ∃ L as keys, Indexed P tr t L as keys := by
  obtain ⟨t₀, hcreate, steps⟩ := run
  induction steps with
  | nil =>
    have hlinks := FifoLinks.create t₀
    rw [fifoCreate_of_create hcreate hpolicy] at hlinks
    refine ⟨_, [], [], stored_create hcreate, (policy_create hcreate).trans hpolicy, hlinks,
      ?_, ?_, fun _ => ⟨List.nodup_nil, fun key => ?_, List.Pairwise.nil⟩⟩
    · simp
    · rintro ⟨x, hx, -⟩
      cases hx
    · simp [fileAt, lookup]
  | snoc run next ih =>
    rename_i tr s s' c
    obtain ⟨L, as, keys, h⟩ := ih fun x hx => hquiet x (List.mem_append_left _ hx)
    obtain ⟨out, hexec⟩ := next
    obtain ⟨r, hr, hev⟩ := hquiet (s, c) (List.mem_append_right _ (List.mem_singleton.mpr rfl))
    rw [hexec] at hr
    obtain rfl := Except.ok.inj hr
    obtain ⟨L', heffect⟩ := effect_of_exec h.toStored hexec
    obtain ⟨as', keys', h'⟩ := h.snoc heffect hev
    exact ⟨L', as', keys', h'⟩

/-- After a run under FIFO that evicted nothing, the chain holds the stored keys by age exactly when
no call of the run removed a file. -/
theorem fifo_chain_in_step_iff {P : Platform} {buckets : Nat} {config : Config}
    {tr : List (HTable × Call)} {t : HTable} (run : SequentialRun P buckets config tr t)
    (hpolicy : config.cacheEvictionPolicy = .fifo) (hquiet : ∀ x ∈ tr, EvictsNothing P x.1 x.2) :
    ChainInStep P (createdAt P tr) t ↔ ∀ x ∈ tr, ¬RemovesFile P x.1 x.2 := by
  obtain ⟨L, as, keys, h⟩ := run.indexed hpolicy hquiet
  exact h.chainInStep_iff

/-- The chain of two files that are there, one of them created again in vain. -/
theorem fifo_chain_in_step_after_creates :
    ∃ tr t, SequentialRun samplePlatform 1 ⟨2, 10, .fifo⟩ tr t ∧ tr.length = 4 ∧
      ChainInStep samplePlatform (createdAt samplePlatform tr) t := by
  obtain ⟨tr, t, run, htest⟩ := SequentialRun.of_run_test samplePlatform 1 ⟨2, 10, .fifo⟩
    [⟨.create (bufToStr [97]) 3 false, []⟩, ⟨.create (bufToStr [98]) 3 false, []⟩,
      ⟨.create (bufToStr [97]) 4 false, []⟩, ⟨.replace (bufToStr [98]) [7, 8], []⟩]
    (fun tr _ => decide (tr.length = 4 ∧ (∀ x ∈ tr, EvictsNothing samplePlatform x.1 x.2) ∧
      ∀ x ∈ tr, ¬RemovesFile samplePlatform x.1 x.2)) (by decide +kernel)
  obtain ⟨hlength, hquiet, hkept⟩ := of_decide_eq_true htest
  exact ⟨tr, t, run, hlength, (fifo_chain_in_step_iff run rfl hquiet).mpr hkept⟩

/-- The chain still hands out a file that was created and removed. -/
theorem fifo_chain_names_removed :
    ¬∀ (P : Platform) (buckets : Nat) (config : Config) (tr : List (HTable × Call)) (t : HTable),
      SequentialRun P buckets config tr t → config.cacheEvictionPolicy = .fifo →
      (∀ x ∈ tr, EvictsNothing P x.1 x.2) → ChainInStep P (createdAt P tr) t := by
  intro hclaim
  obtain ⟨tr, t, run, htest⟩ := SequentialRun.of_run_test samplePlatform 1 ⟨2, 10, .fifo⟩
    [⟨.create (bufToStr [97]) 3 false, []⟩, ⟨.remove (bufToStr [97]) 3, []⟩]
    (fun tr t => decide (∀ x ∈ tr, EvictsNothing samplePlatform x.1 x.2) &&
      decide (htableFetchFile samplePlatform t (bufToStr [97]) = .ok none) &&
      (fifoEvict t).any fun r => decide (r.1 = some (bufToStr [97]))) (by decide +kernel)
  simp only [Bool.and_eq_true, decide_eq_true_eq] at htest
  obtain ⟨⟨hquiet, hfetch⟩, hevict⟩ := htest
  obtain ⟨⟨answer, t'⟩, hx, hkey⟩ := Exec.any_eq_true.mp hevict
  obtain rfl : answer = _ := of_decide_eq_true hkey
  obtain ⟨f, hf, -⟩ := (hclaim _ _ _ _ _ run rfl hquiet).next _ _ hx
  rw [hfetch] at hf
  cases hf

end FileStorage.Server
