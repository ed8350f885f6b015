import FileStorage.Server.SegmentedEviction

/-!
# Contents — what the pointers of a table give
-/

namespace FileStorage.Server

open Memory

/-- Bucket by bucket and from head to last, the items with their files. -/
def HTable.contents (t : HTable) : Contents :=
  t.buckets.map fun b =>
    (walk (t.items.field HTableItem.next) t.items.fresh b.head).filterMap fun a =>
      (t.items.field HTableItem.file a).map (a, ·)

/-- The table as a map. -/
def tableMap (P : Platform) (t : HTable) : FileMap := fun key =>
  (htableFetchFile P t key).toOption.join

variable {P : Platform} {t t' : HTable} {L : Contents} {i : Nat} {l : List Entry} {a : Addr} {f : File}

theorem Links.contents_eq {items : Heap HTableItem} {b : HTableBucket} (h : Links items b l) :
    ((walk (items.field HTableItem.next) items.fresh b.head).filterMap fun a =>
      (items.field HTableItem.file a).map (a, ·)) = l := by
  have hfuel := items.length_le_fresh (l.map Prod.fst) h.dlist.nodup h.isSome_read
  rw [h.dlist.fwd.walk_eq hfuel, List.filterMap_map]
  have hfile : ∀ e ∈ l, ((fun a => (items.field HTableItem.file a).map (a, ·)) ∘ Prod.fst) e =
      some e := by
    intro e he
    simp only [Function.comp_apply, h.files e he, Option.map_some]
  rw [List.filterMap_congr hfile, List.filterMap_some]

/-- No other contents are linked. -/
theorem Linked.contents_eq (h : Linked P t L) : t.contents = L := by
  refine List.ext_getElem? fun i => ?_
  rw [HTable.contents, List.getElem?_map]
  cases hb : t.buckets[i]? with
  | none =>
    have hi := h.length ▸ List.getElem?_eq_none_iff.mp hb
    rw [List.getElem?_eq_none hi]
    rfl
  | some b =>
    obtain ⟨l, hl, hlinks⟩ := h.contents_of_bucket hb
    rw [hl, Option.map_some, hlinks.contents_eq]

theorem contents_of_same (hbuckets : t'.buckets = t.buckets) (hitems : t'.items = t.items) :
    t'.contents = t.contents := by
  rw [HTable.contents, hbuckets, hitems]
  rfl

/-! ## 1. The table as a map -/

theorem tableMap_eq (hs : Stored P t L) : tableMap P t = fileAt L := by
  funext key
  rw [tableMap, hs.fetchFile]
  rfl

theorem tableMap_create {buckets : Nat} {config : Config}
    (hcreate : htableCreate buckets config = .ok t) : tableMap P t = fun _ => none := by
  have hs : Stored P t (List.replicate buckets []) := stored_create hcreate
  rw [tableMap_eq hs]
  funext key
  have hflat : (List.replicate buckets ([] : List Entry)).flatten = [] := by simp
  rw [fileAt_eq, hflat]
  rfl

theorem SequentialRun.stored_contents {buckets : Nat} {config : Config} {tr : List (HTable × Call)}
    (run : SequentialRun P buckets config tr t) : Stored P t t.contents := by
  obtain ⟨L, hs⟩ := run.stored
  rwa [hs.contents_eq]

/-! ## 2. Buckets that an operation does not touch -/

namespace Linked

/-- A file is in the bucket of its key only. -/
theorem notMem_bucket (h : Linked P t L) (hmem : (a, f) ∈ L.flatten)
    (hi : i ≠ P.xxh64 f.key % L.length) (hl : L[i]? = some l) : a ∉ l.map Prod.fst := by
  intro ha
  obtain ⟨e, he, rfl⟩ := List.mem_map.mp ha
  have heq := h.eq_of_addr hmem (List.mem_flatten.mpr ⟨l, List.mem_of_getElem? hl, he⟩) rfl
  apply hi
  rw [← h.home i l hl e he, ← heq]

theorem setFile_frame (h : Linked P t L) (hmem : (a, f) ∈ L.flatten) (f' : File)
    (hi : i ≠ P.xxh64 f.key % L.length) : (L.setFile a f')[i]? = L[i]? := by
  rw [Contents.setFile, List.getElem?_map]
  cases hl : L[i]? with
  | none => rfl
  | some l => rw [Option.map_some, map_setEntry_of_not_mem (h.notMem_bucket hmem hi hl)]

theorem drop_frame (h : Linked P t L) (hmem : (a, f) ∈ L.flatten)
    (hi : i ≠ P.xxh64 f.key % L.length) : (L.drop a)[i]? = L[i]? := by
  rw [Contents.drop, List.getElem?_map]
  cases hl : L[i]? with
  | none => rfl
  | some l => rw [Option.map_some, filter_ne_of_not_mem (h.notMem_bucket hmem hi hl)]

end Linked

theorem Contents.setFile_addrs (L : Contents) (a : Addr) (f : File) :
    (L.setFile a f).flatten.map Prod.fst = L.flatten.map Prod.fst := by
  rw [Contents.setFile_flatten, List.map_map]
  exact List.map_congr_left fun e _ => setEntry_fst a f e

theorem Contents.mem_addrs_drop {L : Contents} {a b : Addr} :
    b ∈ (L.drop a).flatten.map Prod.fst ↔ b ≠ a ∧ b ∈ L.flatten.map Prod.fst := by
  rw [Contents.drop_flatten]
  simp only [List.mem_map, List.mem_filter, decide_eq_true_eq]
  constructor
  · rintro ⟨e, ⟨he, hne⟩, rfl⟩
    exact ⟨hne, e, he, rfl⟩
  · rintro ⟨hne, e, he, rfl⟩
    exact ⟨e, ⟨he, hne⟩, rfl⟩

/-! ## 3. What the evictions leave alone -/

theorem fifoEvict_same {key : Option CStr} (hx : fifoEvict t = .ok (key, t')) :
    t'.buckets = t.buckets ∧ t'.items = t.items := by
  unfold fifoEvict at hx
  split at hx
  · cases hx
  · split at hx
    · cases hx
      exact ⟨rfl, rfl⟩
    · obtain ⟨node, -, hx⟩ := Exec.bind_eq_ok.mp hx
      cases hx
      exact ⟨rfl, rfl⟩

theorem storeItem_file {g : HTableItem → HTableItem} (hg : ∀ item, (g item).file = item.file)
    (hx : t.storeItem a g = .ok t') :
    t'.items.field HTableItem.file = t.items.field HTableItem.file := by
  obtain ⟨items, hstore, hx⟩ := Exec.bind_eq_ok.mp hx
  cases hx
  unfold Heap.store at hstore
  split at hstore
  · cases hstore
    exact Heap.field_modify_frame _ _ _ _ hg
  · cases hstore

theorem unlinkItem_file (hx : unlinkItem t i a = .ok t') :
    t'.items.field HTableItem.file = t.items.field HTableItem.file := by
  unfold unlinkItem at hx
  obtain ⟨node, -, hx⟩ := Exec.bind_eq_ok.mp hx
  simp only at hx
  split at hx
  · obtain ⟨t₁, hfirst, hx⟩ := Exec.bind_eq_ok.mp hx
    obtain ⟨node', -, hx⟩ := Exec.bind_eq_ok.mp hx
    rw [← storeItem_file (fun _ => by rfl) hfirst]
    split at hx
    · exact storeItem_file (fun _ => by rfl) hx
    · cases hx
      rfl
  · obtain ⟨t₁, hfirst, hx⟩ := Exec.bind_eq_ok.mp hx
    obtain ⟨node', -, hx⟩ := Exec.bind_eq_ok.mp hx
    cases hfirst
    split at hx
    · rw [storeItem_file (fun _ => by rfl) hx]
      rfl
    · cases hx
      rfl

theorem segmentedTurn_file {r : Nat} (hx : segmentedTurn t r = .ok (some (a, t'))) :
    t'.items.field HTableItem.file = t.items.field HTableItem.file := by
  obtain ⟨bucket, -, hx⟩ := Exec.bind_eq_ok.mp hx
  simp only at hx
  split at hx
  · split at hx <;> cases hx
  · obtain ⟨item, -, hx⟩ := Exec.bind_eq_ok.mp hx
    split at hx
    · obtain ⟨t₁, hfirst, hx⟩ := Exec.bind_eq_ok.mp hx
      obtain ⟨t₂, hsecond, hx⟩ := Exec.bind_eq_ok.mp hx
      cases hx
      rw [storeItem_file (fun _ => by rfl) hsecond, storeItem_file (fun _ => by rfl) hfirst]
      rfl
    · simp only [Exec.pure_eq_ok, Exec.ok_bind] at hx
      obtain ⟨t₁, hstore, hx⟩ := Exec.bind_eq_ok.mp hx
      cases hx
      rw [storeItem_file (fun _ => by rfl) hstore]
      rfl

end FileStorage.Server
