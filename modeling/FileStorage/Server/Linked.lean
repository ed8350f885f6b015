import FileStorage.Memory.DoublyLinked
import FileStorage.Server.Htable
import Mathlib.Data.List.Flatten

/-!
# Linked — what the buckets of a table link

`Linked P t L` reads the pointers of the table `t` as lists: `L` gives, bucket by bucket and from
head to last, the address of every item and the file in it.  Each piece of list surgery of the
table is described here once, as a plain list operation on `L`.
-/

namespace FileStorage.Server

open Memory

abbrev Entry := Addr × File

abbrev Contents := List (List Entry)

/-! ## 1. The relation -/

/-- The bucket links exactly the entries `l`. -/
structure Links (items : Heap HTableItem) (b : HTableBucket) (l : List Entry) : Prop where
  dlist : DList (items.field HTableItem.next) (items.field HTableItem.prev) b.head b.last
    (l.map Prod.fst)
  files : ∀ e ∈ l, items.field HTableItem.file e.1 = some e.2

structure Linked (P : Platform) (t : HTable) (L : Contents) : Prop where
  length : L.length = t.buckets.length
  pos : 0 < L.length
  bucket : ∀ (i : Nat) b l, t.buckets[i]? = some b → L[i]? = some l → Links t.items b l
  home : ∀ (i : Nat) l, L[i]? = some l → ∀ e ∈ l, P.xxh64 e.2.key % L.length = i

theorem Links.congr {items items' : Heap HTableItem} {b : HTableBucket} {l : List Entry}
    (h : Links items b l) (hsame : ∀ e ∈ l, items'.read e.1 = items.read e.1) :
    Links items' b l := by
  have hfield : ∀ a ∈ l.map Prod.fst, items'.read a = items.read a := by
    intro a ha
    obtain ⟨e, he, rfl⟩ := List.mem_map.mp ha
    exact hsame e he
  refine ⟨h.dlist.congr (fun a ha => ?_) (fun a ha => ?_), fun e he => ?_⟩
  · exact Heap.field_congr (hfield a ha) _
  · exact Heap.field_congr (hfield a ha) _
  · rw [Heap.field_congr (hsame e he)]
    exact h.files e he

theorem Links.read {items : Heap HTableItem} {b : HTableBucket} {l : List Entry}
    (h : Links items b l) {e : Entry} (he : e ∈ l) :
    ∃ item, items.read e.1 = some item ∧ item.file = e.2 :=
  Heap.field_eq_some (h.files e he)

theorem Links.isSome_read {items : Heap HTableItem} {b : HTableBucket} {l : List Entry}
    (h : Links items b l) : ∀ a ∈ l.map Prod.fst, (items.read a).isSome := by
  intro a ha
  obtain ⟨e, he, rfl⟩ := List.mem_map.mp ha
  obtain ⟨item, hread, -⟩ := h.read he
  simp [hread]

namespace Linked

variable {P : Platform} {t : HTable} {L : Contents} {i : Nat} {l : List Entry}

theorem bucket_of_contents (h : Linked P t L) (hl : L[i]? = some l) :
    ∃ b, t.buckets[i]? = some b ∧ Links t.items b l := by
  obtain ⟨hlt, -⟩ := List.getElem?_eq_some_iff.mp hl
  have hb : t.buckets[i]? = some (t.buckets.get ⟨i, h.length ▸ hlt⟩) :=
    List.getElem?_eq_getElem _
  exact ⟨_, hb, h.bucket i _ l hb hl⟩

theorem contents_of_bucket (h : Linked P t L) {b : HTableBucket} (hb : t.buckets[i]? = some b) :
    ∃ l, L[i]? = some l ∧ Links t.items b l := by
  obtain ⟨hlt, -⟩ := List.getElem?_eq_some_iff.mp hb
  have hl : L[i]? = some (L.get ⟨i, h.length ▸ hlt⟩) := List.getElem?_eq_getElem _
  exact ⟨_, hl, h.bucket i b _ hb hl⟩

theorem read_of_mem (h : Linked P t L) {e : Entry} (he : e ∈ L.flatten) :
    ∃ item, t.items.read e.1 = some item ∧ item.file = e.2 := by
  obtain ⟨l, hl, hel⟩ := List.mem_flatten.mp he
  obtain ⟨i, hi⟩ := List.mem_iff_getElem?.mp hl
  obtain ⟨b, -, hlinks⟩ := h.bucket_of_contents hi
  exact hlinks.read hel

/-- One address holds one file. -/
theorem eq_of_addr (h : Linked P t L) {e e' : Entry} (he : e ∈ L.flatten) (he' : e' ∈ L.flatten)
    (haddr : e.1 = e'.1) : e = e' := by
  obtain ⟨item, hread, hfile⟩ := h.read_of_mem he
  obtain ⟨item', hread', hfile'⟩ := h.read_of_mem he'
  rw [haddr, hread'] at hread
  obtain rfl := Option.some.inj hread
  exact Prod.ext haddr (hfile.symm.trans hfile')

/-- Two buckets share no item: its key has one home. -/
theorem addr_ne_of_bucket_ne (h : Linked P t L) {j : Nat} {l' : List Entry}
    (hl : L[i]? = some l) (hl' : L[j]? = some l') (hij : i ≠ j) {e e' : Entry} (he : e ∈ l)
    (he' : e' ∈ l') : e.1 ≠ e'.1 := by
  intro haddr
  have hmem := List.mem_flatten.mpr ⟨l, List.mem_of_getElem? hl, he⟩
  have hmem' := List.mem_flatten.mpr ⟨l', List.mem_of_getElem? hl', he'⟩
  have heq := h.eq_of_addr hmem hmem' haddr
  apply hij
  rw [← h.home i l hl e he, heq, h.home j l' hl' e' he']

theorem addrs_nodup (h : Linked P t L) : (L.flatten.map Prod.fst).Nodup := by
  rw [List.map_flatten, List.nodup_flatten]
  constructor
  · intro as has
    obtain ⟨l, hl, rfl⟩ := List.mem_map.mp has
    obtain ⟨i, hi⟩ := List.mem_iff_getElem?.mp hl
    obtain ⟨b, -, hlinks⟩ := h.bucket_of_contents hi
    exact hlinks.dlist.nodup
  · rw [List.pairwise_iff_getElem]
    intro i j hi hj hij a ha ha'
    simp only [List.getElem_map, List.mem_map] at ha ha'
    simp only [List.length_map] at hi hj
    obtain ⟨e, he, rfl⟩ := ha
    obtain ⟨e', he', haddr⟩ := ha'
    exact h.addr_ne_of_bucket_ne (List.getElem?_eq_getElem hi) (List.getElem?_eq_getElem hj)
      (Nat.ne_of_lt hij) he he' haddr.symm

/-- There are no more linked items than live blocks. -/
theorem length_le_live (h : Linked P t L) : L.flatten.length ≤ t.items.live := by
  have hle := t.items.length_le_live (L.flatten.map Prod.fst) h.addrs_nodup fun a ha => by
    obtain ⟨e, he, rfl⟩ := List.mem_map.mp ha
    obtain ⟨item, hread, -⟩ := h.read_of_mem he
    simp [hread]
  rwa [List.length_map] at hle

/-- The table may change everywhere but in its buckets and items. -/
theorem of_same (h : Linked P t L) {t' : HTable} (hbuckets : t'.buckets = t.buckets)
    (hitems : t'.items = t.items) : Linked P t' L :=
  ⟨by rw [hbuckets]; exact h.length, h.pos, by rw [hbuckets, hitems]; exact h.bucket, h.home⟩

end Linked

/-! ## 2. Looking up -/

/-- The entry stored under `key`. -/
def lookup (L : Contents) (key : CStr) : Option Entry := L.flatten.find? (·.2.key = key)

theorem mem_of_lookup {L : Contents} {key : CStr} {e : Entry} (h : lookup L key = some e) :
    e ∈ L.flatten := List.mem_of_find?_eq_some h

theorem key_of_lookup {L : Contents} {key : CStr} {e : Entry} (h : lookup L key = some e) :
    e.2.key = key := by
  simpa using List.find?_some h

/-- The loop over one bucket finds the first entry with the key. -/
theorem fetchLoop_eq {items : Heap HTableItem} {l : List Entry} {p : Ptr} {fuel : Nat}
    (key : CStr) (hpath : Path (items.field HTableItem.next) p (l.map Prod.fst) none)
    (hfiles : ∀ e ∈ l, items.field HTableItem.file e.1 = some e.2) (hfuel : l.length ≤ fuel) :
    (l.find? (·.2.key = key) = none ∧ fetchLoop items key fuel p = .ok none) ∨
      ∃ a item, l.find? (·.2.key = key) = some (a, item.file) ∧ items.read a = some item ∧
        fetchLoop items key fuel p = .ok (some (a, item)) := by
  induction l generalizing p fuel with
  | nil =>
    have hp : p = none := hpath
    subst hp
    exact Or.inl ⟨rfl, by cases fuel <;> rfl⟩
  | cons e l ih =>
    obtain ⟨rfl, n, hn, hrest⟩ := hpath
    obtain ⟨item, hread, hfile⟩ := Heap.field_eq_some (hfiles e List.mem_cons_self)
    have hnext : item.next = n := by simpa [Heap.field, hread] using hn
    cases fuel with
    | zero => simp at hfuel
    | succ fuel =>
      simp only [fetchLoop, Heap.load_of_read hread, Exec.ok_bind, List.find?_cons]
      by_cases hkey : item.file.key = key
      · have he : e = (e.1, item.file) := Prod.ext rfl hfile.symm
        refine Or.inr ⟨e.1, item, ?_, hread, by simp [hkey]⟩
        rw [← hfile, ← he, hkey]
        simp
      · have hrec := ih (p := n) hrest (fun e he => hfiles e (List.mem_cons_of_mem _ he))
          (Nat.le_of_succ_le_succ hfuel)
        simpa [hkey, ← hfile, hnext] using hrec

namespace Linked

variable {P : Platform} {t : HTable} {L : Contents} {i : Nat} {l : List Entry}

/-- Only the key's own bucket matters to a lookup. -/
theorem lookup_eq (h : Linked P t L) (key : CStr)
    (hl : L[P.xxh64 key % L.length]? = some l) :
    lookup L key = l.find? (·.2.key = key) := by
  have hother : ∀ (j : Nat) l', L[j]? = some l' → j ≠ P.xxh64 key % L.length →
      l'.find? (·.2.key = key) = none := by
    intro j l' hl' hj
    rw [List.find?_eq_none]
    intro e he hkey
    have hhome := h.home j l' hl' e he
    rw [of_decide_eq_true hkey] at hhome
    exact hj hhome.symm
  generalize hi : P.xxh64 key % L.length = i at hl hother
  obtain ⟨hlt, hget⟩ := List.getElem?_eq_some_iff.mp hl
  have hsplit : L = L.take i ++ l :: L.drop (i + 1) := by
    rw [← hget, ← List.drop_eq_getElem_cons hlt, List.take_append_drop]
  have hbefore : (L.take i).flatten.find? (·.2.key = key) = none := by
    rw [List.find?_eq_none]
    intro e he
    obtain ⟨l', hl', hel⟩ := List.mem_flatten.mp he
    obtain ⟨j, hj⟩ := List.mem_iff_getElem?.mp hl'
    rw [List.getElem?_take] at hj
    split at hj
    · exact List.find?_eq_none.mp (hother j l' hj (by omega)) e hel
    · cases hj
  have hafter : (L.drop (i + 1)).flatten.find? (·.2.key = key) = none := by
    rw [List.find?_eq_none]
    intro e he
    obtain ⟨l', hl', hel⟩ := List.mem_flatten.mp he
    obtain ⟨j, hj⟩ := List.mem_iff_getElem?.mp hl'
    rw [List.getElem?_drop] at hj
    exact List.find?_eq_none.mp (hother _ l' hj (by omega)) e hel
  unfold lookup
  rw [hsplit, List.flatten_append, List.flatten_cons, List.find?_append, List.find?_append,
    hbefore, hafter]
  simp

/-- Every key has a bucket. -/
theorem home_bucket (h : Linked P t L) (key : CStr) :
    ∃ l, L[P.xxh64 key % L.length]? = some l :=
  ⟨_, List.getElem?_eq_getElem (Nat.mod_lt _ h.pos)⟩

theorem bucketPtr_eq (h : Linked P t L) (key : CStr) :
    htableBucketPtr P t key = P.xxh64 key % L.length := by
  rw [htableBucketPtr, h.length]

/-- `htable_fetch_item` is the lookup. -/
theorem fetchItem (h : Linked P t L) (key : CStr) :
    (lookup L key = none ∧ htableFetchItem P t key = .ok none) ∨
      ∃ a item, lookup L key = some (a, item.file) ∧ item.file.key = key ∧
        t.items.read a = some item ∧ htableFetchItem P t key = .ok (some (a, item)) := by
  obtain ⟨l, hl⟩ := h.home_bucket key
  obtain ⟨b, hb, hlinks⟩ := h.bucket_of_contents hl
  have hfuel : l.length ≤ t.items.fresh := by
    have hle := t.items.length_le_fresh (l.map Prod.fst) hlinks.dlist.nodup hlinks.isSome_read
    rwa [List.length_map] at hle
  have hfetch : htableFetchItem P t key = fetchLoop t.items key t.items.fresh b.head := by
    simp [htableFetchItem, HTable.bucket, h.bucketPtr_eq, hb]
  rw [hfetch, h.lookup_eq key hl]
  rcases fetchLoop_eq key hlinks.dlist.fwd hlinks.files hfuel with hnone | ⟨a, item, hfind, hread, hok⟩
  · exact Or.inl hnone
  · exact Or.inr ⟨a, item, hfind, by simpa using List.find?_some hfind, hread, hok⟩

end Linked

end FileStorage.Server
