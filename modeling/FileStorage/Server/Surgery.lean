import FileStorage.Server.Linked

/-!
# Surgery — every change the operations make to the buckets, as a list operation
-/

namespace FileStorage.Server

open Memory

/-- The file at `a` is replaced by `file`. -/
def setEntry (a : Addr) (file : File) (e : Entry) : Entry := if e.1 = a then (a, file) else e

def Contents.setFile (L : Contents) (a : Addr) (file : File) : Contents :=
  L.map (List.map (setEntry a file))

/-- The item at `a` leaves its bucket. -/
def Contents.drop (L : Contents) (a : Addr) : Contents := L.map (List.filter (·.1 ≠ a))

/-- A new item at the head of bucket `i`. -/
def Contents.push (L : Contents) (i : Nat) (e : Entry) : Contents := L.modify i (e :: ·)

/-- The limits and the policy stay what they are. -/
structure SameSettings (t t' : HTable) : Prop where
  maxItemsCount : t'.maxItemsCount = t.maxItemsCount
  maxSpaceInBytes : t'.maxSpaceInBytes = t.maxSpaceInBytes
  policy : t'.policy = t.policy

/-- Only the buckets and the items change. -/
structure SameElse (t t' : HTable) : Prop extends SameSettings t t' where
  stats : t'.stats = t.stats
  fifo : t'.fifo = t.fifo
  fifoItems : t'.fifoItems = t.fifoItems

theorem SameSettings.trans {t t' t'' : HTable} (h : SameSettings t t') (h' : SameSettings t' t'') :
    SameSettings t t'' :=
  ⟨h'.maxItemsCount.trans h.maxItemsCount, h'.maxSpaceInBytes.trans h.maxSpaceInBytes,
    h'.policy.trans h.policy⟩

/-- The bucket and the heap once the neighbours of `node` are chained together. -/
def HTable.bypass (t : HTable) (i : Nat) (b : HTableBucket) (node : HTableItem) : HTable :=
  { t with
    buckets := t.buckets.set i
      ⟨if node.prev = none then node.next else b.head,
        if node.next = none then node.prev else b.last⟩
    items := (t.items.modifyAt node.prev fun item => { item with next := node.next }).modifyAt
      node.next fun item => { item with prev := node.prev } }

@[simp] theorem setEntry_fst (a : Addr) (file : File) (e : Entry) :
    (setEntry a file e).1 = e.1 := by
  unfold setEntry
  split
  · rename_i h
    exact h.symm
  · rfl

theorem Contents.setFile_flatten (L : Contents) (a : Addr) (file : File) :
    (L.setFile a file).flatten = L.flatten.map (setEntry a file) := by
  rw [Contents.setFile, List.map_flatten]

theorem Contents.drop_flatten (L : Contents) (a : Addr) :
    (L.drop a).flatten = L.flatten.filter (·.1 ≠ a) := by
  rw [Contents.drop, List.filter_flatten]

theorem Contents.push_flatten_perm (L : Contents) {i : Nat} (hi : i < L.length) (e : Entry) :
    (L.push i e).flatten.Perm (e :: L.flatten) := by
  rw [Contents.push, List.modify_eq_take_cons_drop hi]
  conv_rhs => rw [← List.take_append_drop i L, List.drop_eq_getElem_cons hi]
  simp only [List.flatten_append, List.flatten_cons, List.cons_append]
  exact List.perm_middle

/-! ## 1. One bucket -/

namespace Links

variable {items : Heap HTableItem} {b : HTableBucket} {l as bs : List Entry} {a : Addr} {file : File}
  {node : HTableItem}

theorem live (h : Links items b l) : ∀ c ∈ l.map Prod.fst, ∃ x, items.read c = some x := by
  intro c hc
  obtain ⟨e, he, rfl⟩ := List.mem_map.mp hc
  obtain ⟨x, hx, -⟩ := h.read he
  exact ⟨x, hx⟩

theorem next_eq (h : Links items b (as ++ (a, file) :: bs)) (hread : items.read a = some node) :
    node.next = (bs.map Prod.fst).head? := by
  have hdlist := h.dlist
  rw [List.map_append, List.map_cons] at hdlist
  simpa [Heap.field, hread] using hdlist.nxt_eq

theorem prev_eq (h : Links items b (as ++ (a, file) :: bs)) (hread : items.read a = some node) :
    node.prev = (as.map Prod.fst).getLast? := by
  have hdlist := h.dlist
  rw [List.map_append, List.map_cons] at hdlist
  simpa [Heap.field, hread] using hdlist.prv_eq

theorem next_mem (h : Links items b (as ++ (a, file) :: bs)) (hread : items.read a = some node)
    {n : Addr} (hn : node.next = some n) : n ∈ (as ++ (a, file) :: bs).map Prod.fst := by
  rw [h.next_eq hread] at hn
  rw [List.map_append, List.map_cons]
  exact List.mem_append_right _ (List.mem_cons_of_mem _ (List.mem_of_head? hn))

theorem prev_mem (h : Links items b (as ++ (a, file) :: bs)) (hread : items.read a = some node)
    {p : Addr} (hp : node.prev = some p) : p ∈ (as ++ (a, file) :: bs).map Prod.fst := by
  rw [h.prev_eq hread] at hp
  rw [List.map_append]
  exact List.mem_append_left _ (List.mem_of_getLast? hp)

/-- An item is not its own predecessor. -/
theorem prev_ne (h : Links items b (as ++ (a, file) :: bs)) (hread : items.read a = some node)
    {p : Addr} (hp : node.prev = some p) : p ≠ a := by
  have hnodup := h.dlist.nodup
  rw [List.map_append, List.map_cons] at hnodup
  rw [h.prev_eq hread] at hp
  exact (List.nodup_append.mp hnodup).2.2 p (List.mem_of_getLast? hp) a List.mem_cons_self

end Links

/-- Bypassing an item writes no file. -/
theorem HTable.bypass_file (t : HTable) (i : Nat) (b : HTableBucket) (node : HTableItem) :
    (t.bypass i b node).items.field HTableItem.file = t.items.field HTableItem.file := by
  rw [HTable.bypass, Heap.field_modifyAt_frame _ _ _ _ fun _ => by rfl,
    Heap.field_modifyAt_frame _ _ _ _ fun _ => by rfl]

/-- The bucket of the item, once its neighbours are chained together. -/
theorem Links.bypass {t : HTable} {b : HTableBucket} {as bs : List Entry} {a : Addr} {file : File}
    (h : Links t.items b (as ++ (a, file) :: bs)) {node : HTableItem}
    (hread : t.items.read a = some node) (i : Nat) :
    Links (t.bypass i b node).items
      ⟨if node.prev = none then node.next else b.head,
        if node.next = none then node.prev else b.last⟩ (as ++ bs) := by
  have hdlist := h.dlist
  rw [List.map_append, List.map_cons] at hdlist
  have hnodeNext := h.next_eq hread
  have hnodePrev := h.prev_eq hread
  have hlast : (as.map Prod.fst).getLast? = none ↔ as = [] := by simp
  have hhead : (bs.map Prod.fst).head? = none ↔ bs = [] := by simp
  refine ⟨?_, fun e he => ?_⟩
  · have hun := hdlist.unlink ((t.bypass i b node).items.field HTableItem.next)
      ((t.bypass i b node).items.field HTableItem.prev) ?_ ?_ ?_ ?_
    · rw [List.map_append]
      simpa [hnodeNext, hnodePrev, hlast, hhead] using hun
    · -- `node->prev->next = node->next`
      intro p hp
      have hp' : node.prev = some p := hnodePrev.trans hp
      obtain ⟨x, hx⟩ := h.live p (h.prev_mem hread hp')
      rw [HTable.bypass, Heap.field_modifyAt_frame _ _ _ _ fun _ => by rfl, hp',
        Heap.field_modifyAt_self hx, hnodeNext]
    · -- `node->next->prev = node->prev`
      intro n hn
      have hn' : node.next = some n := hnodeNext.trans hn
      obtain ⟨x, hx⟩ := h.live n (h.next_mem hread hn')
      obtain ⟨y, hy⟩ : ∃ y, (t.items.modifyAt node.prev fun item =>
          { item with next := node.next }).read n = some y :=
        Heap.read_modifyAt_some hx _ _
      rw [HTable.bypass]
      simp only
      rw [← hnodePrev, hn']
      rw [hn'] at hy
      exact Heap.field_modifyAt_self hy _ _
    · intro c hc _
      rw [HTable.bypass, Heap.field_modifyAt_frame _ _ _ _ fun _ => by rfl]
      exact Heap.field_congr (Heap.read_modifyAt_of_ne _ _ (hnodePrev ▸ hc)) _
    · intro c hc _
      rw [HTable.bypass, Heap.field_congr (Heap.read_modifyAt_of_ne _ _ (hnodeNext ▸ hc)),
        Heap.field_modifyAt_frame _ _ _ _ fun _ => by rfl]
  · rw [HTable.bypass_file]
    refine h.files e ?_
    rcases List.mem_append.mp he with has | hbs
    · exact List.mem_append_left _ has
    · exact List.mem_append_right _ (List.mem_cons_of_mem _ hbs)

/-- The bucket of a new item, once the old head points back to it. -/
theorem Links.push {items : Heap HTableItem} {b : HTableBucket} {l : List Entry}
    (h : Links items b l) (item : HTableItem) (hnext : item.next = b.head)
    (hprev : item.prev = none) :
    Links ((items.alloc item).modifyAt b.head fun x => { x with prev := some items.fresh })
      ⟨some items.fresh, b.last.or (some items.fresh)⟩ ((items.fresh, item.file) :: l) := by
  have hself : (items.alloc item).read items.fresh = some item := by
    rw [Heap.read_alloc, if_pos rfl]
  have hold : ∀ {c}, c ≠ items.fresh → (items.alloc item).read c = items.read c := by
    intro c hc
    rw [Heap.read_alloc, if_neg hc]
  have hne : ∀ c ∈ l.map Prod.fst, c ≠ items.fresh := by
    intro c hc heq
    obtain ⟨x, hx⟩ := h.live c hc
    rw [heq, Heap.read_fresh] at hx
    cases hx
  have hheadMem : ∀ c, b.head = some c → c ∈ l.map Prod.fst := by
    intro c hc
    rw [h.dlist.head_eq] at hc
    exact List.mem_of_head? hc
  have hhead : b.head ≠ some items.fresh := fun hc => hne _ (hheadMem _ hc) rfl
  refine ⟨h.dlist.pushFront (fun hmem => hne _ hmem rfl) ?_ ?_ ?_ ?_ ?_, ?_⟩
  · rw [Heap.field_modifyAt_frame _ _ _ _ fun _ => by rfl, Heap.field_eq_of_read hself, hnext]
  · rw [Heap.field_congr (Heap.read_modifyAt_of_ne _ _ hhead), Heap.field_eq_of_read hself, hprev]
  · intro c hc
    obtain ⟨x, hx⟩ := h.live c (hheadMem c hc)
    rw [hc]
    exact Heap.field_modifyAt_self ((hold (hne c (hheadMem c hc))).trans hx) _ _
  · intro c hc
    rw [Heap.field_modifyAt_frame _ _ _ _ fun _ => by rfl]
    exact Heap.field_congr (hold hc) _
  · intro c hc hother
    exact Heap.field_congr ((Heap.read_modifyAt_of_ne _ _ hother).trans (hold hc)) _
  · intro e he
    rw [Heap.field_modifyAt_frame _ _ _ _ fun _ => by rfl]
    rcases List.mem_cons.mp he with rfl | he
    · exact Heap.field_eq_of_read hself _
    · rw [Heap.field_congr (hold (hne e.1 (List.mem_map_of_mem he)))]
      exact h.files e he

namespace Linked

variable {P : Platform} {t : HTable} {L : Contents} {i : Nat} {l : List Entry}

/-- Only bucket `i` changes, and no item of another bucket is written. -/
theorem of_bucket (h : Linked P t L) (hl : L[i]? = some l) {t' : HTable} {b' : HTableBucket}
    {l' : List Entry} (hbuckets : t'.buckets = t.buckets.set i b') (hlinks : Links t'.items b' l')
    (hhome : ∀ e ∈ l', P.xxh64 e.2.key % L.length = i)
    (hother : ∀ (j : Nat) k, L[j]? = some k → i ≠ j → ∀ e ∈ k,
      t'.items.read e.1 = t.items.read e.1) : Linked P t' (L.set i l') := by
  have hlt := (List.getElem?_eq_some_iff.mp hl).1
  refine ⟨?_, ?_, ?_, ?_⟩
  · rw [List.length_set, hbuckets, List.length_set, h.length]
  · rw [List.length_set]
    exact h.pos
  · intro j c k hc hk
    rw [hbuckets] at hc
    by_cases hij : i = j
    · subst hij
      rw [List.getElem?_set_self hlt] at hk
      rw [List.getElem?_set_self (h.length ▸ hlt)] at hc
      obtain rfl := Option.some.inj hk
      obtain rfl := Option.some.inj hc
      exact hlinks
    · rw [List.getElem?_set_ne hij] at hk hc
      exact (h.bucket j c k hc hk).congr (hother j k hk hij)
  · intro j k hk e he
    rw [List.length_set]
    by_cases hij : i = j
    · subst hij
      rw [List.getElem?_set_self hlt] at hk
      obtain rfl := Option.some.inj hk
      exact hhome e he
    · rw [List.getElem?_set_ne hij] at hk
      exact h.home j k hk e he

/-! ## 2. Writing through a file pointer -/

theorem setFile (h : Linked P t L) (a : Addr) (file : File)
    (hkey : ∀ old, (a, old) ∈ L.flatten → file.key = old.key) :
    Linked P (t.setFile a file) (L.setFile a file) := by
  have hlen : (L.setFile a file).length = L.length := List.length_map _
  refine ⟨hlen.trans h.length, hlen ▸ h.pos, ?_, ?_⟩
  · intro i b l' hb hl'
    obtain ⟨l, hl, rfl⟩ : ∃ l, L[i]? = some l ∧ l.map (setEntry a file) = l' := by
      simpa [Contents.setFile] using hl'
    have hlinks := h.bucket i b l hb hl
    have haddrs : (l.map (setEntry a file)).map Prod.fst = l.map Prod.fst := by
      rw [List.map_map]
      exact List.map_congr_left fun e _ => setEntry_fst a file e
    refine ⟨?_, ?_⟩
    · rw [haddrs]
      refine hlinks.dlist.congr (fun c _ => ?_) (fun c _ => ?_)
      · exact congrFun (Heap.field_modify_frame _ _ _ _ fun _ => by rfl) c
      · exact congrFun (Heap.field_modify_frame _ _ _ _ fun _ => by rfl) c
    · intro e' he'
      obtain ⟨e, he, rfl⟩ := List.mem_map.mp he'
      obtain ⟨item, hread, hfile⟩ := hlinks.read he
      unfold setEntry
      split
      · rename_i hea
        subst hea
        simp [HTable.setFile, Heap.field, hread]
      · rename_i hea
        rw [HTable.setFile, Heap.field_modify_of_ne _ _ _ (Ne.symm hea)]
        exact hlinks.files e he
  · intro i l' hl' e' he'
    obtain ⟨l, hl, rfl⟩ : ∃ l, L[i]? = some l ∧ l.map (setEntry a file) = l' := by
      simpa [Contents.setFile] using hl'
    obtain ⟨e, he, rfl⟩ := List.mem_map.mp he'
    rw [hlen, ← h.home i l hl e he]
    unfold setEntry
    split
    · rename_i hea
      subst hea
      rw [hkey e.2 (List.mem_flatten.mpr ⟨l, List.mem_of_getElem? hl, he⟩)]
    · rfl

/-! ## 3. Unlinking -/

/-- Cutting an address out of a list of entries. -/
theorem filter_ne_eq {l : List Entry} {as bs : List Entry} {a : Addr} {file : File}
    (hl : l = as ++ (a, file) :: bs) (hnodup : (l.map Prod.fst).Nodup) :
    l.filter (·.1 ≠ a) = as ++ bs := by
  subst hl
  rw [List.map_append, List.map_cons, List.nodup_append] at hnodup
  obtain ⟨-, hcons, hdisj⟩ := hnodup
  have has : as.filter (·.1 ≠ a) = as := by
    rw [List.filter_eq_self]
    intro e he
    have hne := hdisj e.1 (List.mem_map_of_mem he) a List.mem_cons_self
    simpa using hne
  have hbs : bs.filter (·.1 ≠ a) = bs := by
    rw [List.filter_eq_self]
    intro e he
    have hmem : e.1 ∈ bs.map Prod.fst := List.mem_map_of_mem he
    have hne : e.1 ≠ a := fun heq => (List.nodup_cons.mp hcons).1 (heq ▸ hmem)
    simpa using hne
  rw [List.filter_append, has, List.filter_cons_of_neg (by simp), hbs]

theorem filter_ne_of_not_mem {l : List Entry} {a : Addr} (ha : a ∉ l.map Prod.fst) :
    l.filter (·.1 ≠ a) = l := by
  rw [List.filter_eq_self]
  intro e he
  have hmem : e.1 ∈ l.map Prod.fst := List.mem_map_of_mem he
  have hne : e.1 ≠ a := fun heq => ha (heq ▸ hmem)
  simpa using hne

/-- What the two conditional writes of the unlinking code do. -/
theorem unlinkItem_eq {a : Addr} {node : HTableItem} {b : HTableBucket}
    (hread : t.items.read a = some node) (hb : t.buckets[i]? = some b)
    (hprev : ∀ p, node.prev = some p → p ≠ a ∧ (t.items.read p).isSome)
    (hnext : ∀ n, node.next = some n → (t.items.read n).isSome) :
    unlinkItem t i a = .ok (t.bypass i b node) := by
  obtain ⟨hlt, hget⟩ := List.getElem?_eq_some_iff.mp hb
  unfold unlinkItem HTable.bypass
  rw [Heap.load_of_read hread]
  simp only [Exec.ok_bind]
  cases hp : node.prev with
  | none =>
    simp only [Exec.pure_eq_ok, Exec.ok_bind, HTable.setBucket, Heap.load_of_read hread]
    cases hn : node.next with
    | none =>
      simp [Heap.modifyAt, hp, List.modify_eq_set_getElem?, hlt]
    | some n =>
      obtain ⟨x, hx⟩ := Option.isSome_iff_exists.mp (hnext n hn)
      simp [HTable.storeItem, Heap.store_of_read hx, Heap.modifyAt, hp,
        List.modify_eq_set_getElem?, hb]
  | some p =>
    obtain ⟨hpa, hlive⟩ := hprev p hp
    obtain ⟨x, hx⟩ := Option.isSome_iff_exists.mp hlive
    have hread' : (t.items.modify p fun item => { item with next := node.next }).read a =
        some node := by
      rw [Heap.read_modify_of_ne _ _ hpa, hread]
    simp only [HTable.storeItem, Heap.store_of_read hx, Exec.ok_bind, Exec.pure_eq_ok,
      Heap.load_of_read hread']
    cases hn : node.next with
    | none =>
      simp [Heap.modifyAt, hp, HTable.setBucket, List.modify_eq_set_getElem?, hb]
    | some n =>
      have hlive' : ((t.items.modify p fun item => { item with next := some n }).read n).isSome := by
        rw [Heap.read_modify]
        split
        · simpa using hnext n hn
        · exact hnext n hn
      obtain ⟨y, hy⟩ := Option.isSome_iff_exists.mp hlive'
      have hsame : t.buckets.set i b = t.buckets := by
        rw [← hget, List.set_getElem_self]
      rw [hn] at *
      simp [Heap.store_of_read hy, Heap.modifyAt, hp, hsame]

/-- Dropping an item touches its own bucket only. -/
theorem drop_eq_set (h : Linked P t L) {as bs : List Entry} {a : Addr} {file : File}
    (hl : L[i]? = some (as ++ (a, file) :: bs)) : L.drop a = L.set i (as ++ bs) := by
  obtain ⟨b, -, hlinks⟩ := h.bucket_of_contents hl
  have hlt := (List.getElem?_eq_some_iff.mp hl).1
  have hself : (a, file) ∈ as ++ (a, file) :: bs := by simp
  apply List.ext_getElem?
  intro j
  rw [Contents.drop, List.getElem?_map]
  by_cases hij : i = j
  · subst hij
    rw [hl, List.getElem?_set_self hlt, Option.map_some, filter_ne_eq rfl hlinks.dlist.nodup]
  · rw [List.getElem?_set_ne hij]
    cases hl' : L[j]? with
    | none => rfl
    | some l' =>
      have hnot : a ∉ l'.map Prod.fst := by
        intro hmem
        obtain ⟨e, he, hea⟩ := List.mem_map.mp hmem
        exact h.addr_ne_of_bucket_ne hl hl' hij hself he hea.symm
      rw [Option.map_some, filter_ne_of_not_mem hnot]

/-- Chaining the neighbours of an item together takes the item out of its bucket. -/
theorem bypass (h : Linked P t L) {as bs : List Entry} {a : Addr} {file : File}
    (hl : L[i]? = some (as ++ (a, file) :: bs)) {node : HTableItem}
    (hread : t.items.read a = some node) {b : HTableBucket} (hb : t.buckets[i]? = some b) :
    Linked P (t.bypass i b node) (L.drop a) := by
  have hlinks := h.bucket i b _ hb hl
  rw [h.drop_eq_set hl]
  refine h.of_bucket hl rfl (hlinks.bypass hread i) ?_ ?_
  · intro e he
    refine h.home i _ hl e ?_
    rcases List.mem_append.mp he with has | hbs
    · exact List.mem_append_left _ has
    · exact List.mem_append_right _ (List.mem_cons_of_mem _ hbs)
  · -- both neighbours are in this bucket
    intro j k hk hij e he
    have hother : ∀ c ∈ (as ++ (a, file) :: bs).map Prod.fst, c ≠ e.1 := by
      intro c hc
      obtain ⟨e', he', rfl⟩ := List.mem_map.mp hc
      exact h.addr_ne_of_bucket_ne hl hk hij he' he
    rw [HTable.bypass]
    simp only
    rw [Heap.read_modifyAt_of_ne _ _ fun hn => hother _ (hlinks.next_mem hread hn) rfl,
      Heap.read_modifyAt_of_ne _ _ fun hp => hother _ (hlinks.prev_mem hread hp) rfl]

/-- Blocks that no bucket links may change or go. -/
theorem of_items (h : Linked P t L) {items : Heap HTableItem}
    (hsame : ∀ e ∈ L.flatten, items.read e.1 = t.items.read e.1) :
    Linked P { t with items } L := by
  refine ⟨h.length, h.pos, fun i b l hb hl => ?_, h.home⟩
  refine (h.bucket i b l hb hl).congr fun e he => hsame e ?_
  exact List.mem_flatten.mpr ⟨l, List.mem_of_getElem? hl, he⟩

theorem addr_ne_of_mem_drop {a : Addr} {e : Entry} (he : e ∈ (L.drop a).flatten) : a ≠ e.1 := by
  rw [Contents.drop_flatten, List.mem_filter] at he
  exact fun h => by simp [h] at he

theorem free {a : Addr} (h : Linked P t (L.drop a)) :
    Linked P { t with items := t.items.free a } (L.drop a) :=
  h.of_items fun _ he => Heap.read_free_of_ne _ (addr_ne_of_mem_drop he)

/-- What unlinking an item does to the table: the item is in no bucket any more, its block is
still there with the file in it, and nothing else of the table changes. -/
structure Unlinked (P : Platform) (t : HTable) (L : Contents) (a : Addr) (file : File)
    (t' : HTable) : Prop where
  linked : Linked P t' (L.drop a)
  same : SameElse t t'
  live : t'.items.live = t.items.live
  file : t'.items.field HTableItem.file a = some file

theorem unlinked_bypass (h : Linked P t L) (hl : L[i]? = some l) {a : Addr} {file : File}
    (hmem : (a, file) ∈ l) {node : HTableItem} (hread : t.items.read a = some node)
    {b : HTableBucket} (hb : t.buckets[i]? = some b) :
    Unlinked P t L a file (t.bypass i b node) := by
  obtain ⟨as, bs, rfl⟩ := List.append_of_mem hmem
  refine ⟨h.bypass hl hread hb, ⟨⟨rfl, rfl, rfl⟩, rfl, rfl, rfl⟩, by simp [HTable.bypass], ?_⟩
  rw [HTable.bypass_file]
  exact (h.bucket i b _ hb hl).files _ hmem

theorem unlink (h : Linked P t L) (hl : L[i]? = some l) {a : Addr} {file : File}
    (hmem : (a, file) ∈ l) : ∃ t', unlinkItem t i a = .ok t' ∧ Unlinked P t L a file t' := by
  obtain ⟨b, hb, hlinks⟩ := h.bucket_of_contents hl
  obtain ⟨node, hread, hfile⟩ := hlinks.read hmem
  have hun := h.unlinked_bypass hl hmem hread hb
  obtain ⟨as, bs, rfl⟩ := List.append_of_mem hmem
  refine ⟨_, unlinkItem_eq hread hb ?_ ?_, hun⟩
  · intro p hp
    exact ⟨hlinks.prev_ne hread hp, Option.isSome_iff_exists.mpr
      (hlinks.live p (hlinks.prev_mem hread hp))⟩
  · intro n hn
    exact Option.isSome_iff_exists.mpr (hlinks.live n (hlinks.next_mem hread hn))

/-! ## 4. The last item of a random bucket -/

/-- An empty bucket: the next draw decides. -/
theorem segmentedLoop_miss (h : Linked P t L) {r : Nat}
    (hl : L[r % t.buckets.length]? = some []) (rands : List Nat) :
    segmentedLoop t (r :: rands) = segmentedLoop t rands := by
  obtain ⟨b, hb, hlinks⟩ := h.bucket_of_contents hl
  have hlast := hlinks.dlist.last_eq
  have hhead := hlinks.dlist.head_eq
  simp only [List.map_nil, List.getLast?_nil, List.head?_nil] at hlast hhead
  simp [segmentedLoop, HTable.bucket, hb, hlast, hhead]

/-- Any other bucket loses its last item. -/
theorem segmentedLoop_hit (h : Linked P t L) {r : Nat} {xs : List Entry} {a : Addr} {file : File}
    (hl : L[r % t.buckets.length]? = some (xs ++ [(a, file)])) (rands : List Nat) :
    ∃ t', segmentedLoop t (r :: rands) = .ok (a, t', rands) ∧ Unlinked P t L a file t' := by
  obtain ⟨b, hb, hlinks⟩ := h.bucket_of_contents hl
  have hlast := hlinks.dlist.last_eq
  have hmem : (a, file) ∈ xs ++ [(a, file)] := by simp
  obtain ⟨node, hread, hfile⟩ := hlinks.read hmem
  have hlastA : b.last = some a := by simpa using hlast
  have hnodeNext : node.next = none := hlinks.next_eq hread
  have hun := h.unlinked_bypass hl hmem hread hb
  let clear : HTableItem → HTableItem := fun item => { item with next := none, prev := none }
  let t' : HTable := { t.bypass (r % t.buckets.length) b node with
    items := (t.bypass (r % t.buckets.length) b node).items.modify a clear }
  have hstep : segmentedLoop t (r :: rands) = .ok (a, t', rands) := by
    simp only [segmentedLoop, HTable.bucket, hb, Exec.ok_bind, hlastA, Heap.load_of_read hread]
    cases hp : node.prev with
    | none =>
      simp [HTable.storeItem, HTable.setBucket, Heap.store_of_read hread, t', clear,
        HTable.bypass, hp, hnodeNext, Heap.modifyAt, List.modify_eq_set_getElem?, hb]
    | some p =>
      obtain ⟨x, hx⟩ := hlinks.live p (hlinks.prev_mem hread hp)
      have hread' : (t.items.modify p fun item => { item with next := none }).read a =
          some node := by
        rw [Heap.read_modify_of_ne _ _ (hlinks.prev_ne hread hp), hread]
      simp [HTable.storeItem, HTable.setBucket, Heap.store_of_read hx,
        Heap.store_of_read hread', t', clear, HTable.bypass, hp, hnodeNext, Heap.modifyAt,
        List.modify_eq_set_getElem?, hb]
  refine ⟨t', hstep, ?_, ⟨⟨rfl, rfl, rfl⟩, rfl, rfl, rfl⟩, ?_, ?_⟩
  · exact hun.linked.of_items fun e he => Heap.read_modify_of_ne _ _ (addr_ne_of_mem_drop he)
  · exact (Heap.live_modify _ _ _).trans hun.live
  · exact (congrFun (Heap.field_modify_frame _ _ _ _ fun _ => by rfl) a).trans hun.file

/-- The loop either is still running or takes the last item of some bucket. -/
theorem segmentedLoop_eq (h : Linked P t L) (rands : List Nat) :
    segmentedLoop t rands = .error .diverge ∨
      ∃ (i : Nat) (l : List Entry) (a : Addr) (file : File) (t' : HTable) (rands' : List Nat),
        L[i]? = some (l ++ [(a, file)]) ∧
        segmentedLoop t rands = .ok (a, t', rands') ∧ Unlinked P t L a file t' := by
  induction rands with
  | nil => exact Or.inl rfl
  | cons r rands ih =>
    have hlt : r % t.buckets.length < L.length := h.length ▸ Nat.mod_lt r (h.length ▸ h.pos)
    obtain ⟨l, hl⟩ : ∃ l, L[r % t.buckets.length]? = some l := ⟨_, List.getElem?_eq_getElem hlt⟩
    rcases List.eq_nil_or_concat l with rfl | ⟨xs, ⟨a, file⟩, rfl⟩
    · rw [h.segmentedLoop_miss hl]
      exact ih
    · rw [List.concat_eq_append] at hl
      obtain ⟨t', hstep, hun⟩ := h.segmentedLoop_hit hl rands
      exact Or.inr ⟨_, xs, a, file, t', rands, hl, hstep, hun⟩

/-! ## 5. Linking a new item -/

theorem push_eq_set (hl : L[i]? = some l) (e : Entry) : L.push i e = L.set i (e :: l) := by
  obtain ⟨hlt, hget⟩ := List.getElem?_eq_some_iff.mp hl
  rw [Contents.push, List.modify_eq_set_getElem?, hl]
  rfl

/-- What the section under the bucket mutex does. -/
theorem linkSection_eq (h : Linked P t L) (hl : L[i]? = some l) {b : HTableBucket}
    (hb : t.buckets[i]? = some b) (item : HTableItem) (hroom : t.items.live + 1 < wordSize) :
    linkSection t i item = .ok { t with
      buckets := t.buckets.set i ⟨some t.items.fresh, b.last.or (some t.items.fresh)⟩
      items := (t.items.alloc item).modifyAt b.head fun x => { x with prev := some t.items.fresh } } := by
  have hlinks := h.bucket i b l hb hl
  unfold linkSection
  rw [if_neg (Nat.not_le.mpr hroom)]
  simp only [HTable.bucket, hb, Exec.ok_bind]
  cases hhead : b.head with
  | none => simp [HTable.setBucket, Heap.modifyAt, List.modify_eq_set_getElem?, hb]
  | some c =>
    have hc : c ∈ l.map Prod.fst := List.mem_of_head? (hlinks.dlist.head_eq ▸ hhead)
    obtain ⟨x, hx⟩ := hlinks.live c hc
    have hx' : (t.items.alloc item).read c = some x := by
      rw [Heap.read_alloc, if_neg (Nat.ne_of_lt (Heap.lt_fresh_of_read hx)), hx]
    simp [HTable.storeItem, HTable.setBucket, Heap.store_of_read hx', Heap.modifyAt,
      List.modify_eq_set_getElem?, hb]

theorem link (h : Linked P t L) (hl : L[i]? = some l) {b : HTableBucket}
    (hb : t.buckets[i]? = some b) (item : HTableItem) (hnext : item.next = b.head)
    (hprev : item.prev = none) (hhome : P.xxh64 item.file.key % L.length = i)
    (hroom : t.items.live + 1 < wordSize) :
    ∃ t', linkSection t i item = .ok t' ∧
      Linked P t' (L.push i (t.items.fresh, item.file)) ∧
      SameElse t t' ∧ t'.items.live = t.items.live + 1 := by
  have hlinks := h.bucket i b l hb hl
  rw [push_eq_set hl]
  refine ⟨_, h.linkSection_eq hl hb item hroom,
    h.of_bucket hl rfl (hlinks.push item hnext hprev) ?_ ?_, ⟨⟨rfl, rfl, rfl⟩, rfl, rfl, rfl⟩, ?_⟩
  · intro e he
    rcases List.mem_cons.mp he with rfl | he
    · exact hhome
    · exact h.home i l hl e he
  · -- the old head is in this bucket, and the new block in none
    intro j k hk hij e he
    have hhead : b.head ≠ some e.1 := by
      intro hhead
      rw [hlinks.dlist.head_eq] at hhead
      obtain ⟨e', he', hee⟩ := List.mem_map.mp (List.mem_of_head? hhead)
      exact h.addr_ne_of_bucket_ne hl hk hij he' he hee
    obtain ⟨x, hx, -⟩ := h.read_of_mem (List.mem_flatten.mpr ⟨k, List.mem_of_getElem? hk, he⟩)
    rw [Heap.read_modifyAt_of_ne _ _ hhead, Heap.read_alloc,
      if_neg (Nat.ne_of_lt (Heap.lt_fresh_of_read hx))]
  · exact (Heap.live_modifyAt _ _ _).trans (Heap.live_alloc _ _)

end Linked

end FileStorage.Server
