import FileStorage.Server.FileMap
import FileStorage.Server.Surgery

/-!
# Sections — what each critical section does to the buckets
-/

namespace FileStorage.Server

open Memory

/-- The file stored under `key`. -/
def fileAt (L : Contents) (key : CStr) : Option File := (lookup L key).map Prod.snd

theorem fileAt_of_lookup {L : Contents} {key : CStr} {a : Addr} {f : File}
    (h : lookup L key = some (a, f)) : fileAt L key = some f := by
  rw [fileAt, h]
  rfl

theorem fileAt_of_lookup_none {L : Contents} {key : CStr} (h : lookup L key = none) :
    fileAt L key = none := by
  rw [fileAt, h]
  rfl

/-- The operations that at most change one file in place. -/
def Op.touches : Op → Bool
  | .open _ _ _ | .close _ _ | .lock _ _ | .unlock _ _ => true
  | _ => false

def Op.touchStats (op : Op) (s : HTableStats) : HTableStats :=
  match op with
  | .open _ _ _ => s.incOpen
  | .close _ _ => s.decOpen
  | _ => s

/-- The table once the last node of the chain is taken off it. -/
def HTable.popFifo (t : HTable) (fifo : Fifo) (last : Addr) (node : FifoItem) : HTable :=
  { t with
    fifo := some { fifo with last := node.prev }
    fifoItems := t.fifoItems.free last }

namespace Linked

variable {P : Platform} {t : HTable} {L : Contents}

/-- `htable_fetch_file` reads the map. -/
theorem fetchFile (h : Linked P t L) (key : CStr) :
    htableFetchFile P t key = .ok (fileAt L key) := by
  rcases h.fetchItem key with ⟨hnone, hfetch⟩ | ⟨a, item, hsome, -, -, hfetch⟩
  · simp [htableFetchFile, hfetch, fileAt_of_lookup_none hnone]
  · simp [htableFetchFile, hfetch, fileAt_of_lookup hsome]

/-! ## 1. Lock, unlock, open, close -/

/-- The file found under the key decides; nothing but that file and `open_count` changes. -/
theorem exec_touch (h : Linked P t L) {op : Op} (hop : op.touches) (rands : List Nat) :
    (lookup L op.key = none ∧ op.exec P t rands = .ok (⟨.fileNotFound, -1, []⟩, t)) ∨
      ∃ a f, lookup L op.key = some (a, f) ∧
        op.exec P t rands =
          match op.verdict (some f) with
          | .refuse code => .ok (⟨code, -1, []⟩, t)
          | .put code newOwner f' =>
              .ok (⟨code, newOwner, []⟩,
                { t.setFile a f' with stats := op.touchStats t.stats })
          | .abort | .drop => .error .assertion := by
  rcases h.fetchItem op.key with ⟨hnone, hfetch⟩ | ⟨a, item, hsome, -, -, hfetch⟩
  · refine Or.inl ⟨hnone, ?_⟩
    cases op with
    | «open» key fd withLock =>
      rw [Op.key] at hfetch
      simp [Op.exec, htableOpenOrCreateFile, htableOpenFile, hfetch]
    | close key fd =>
      rw [Op.key] at hfetch
      simp [Op.exec, htableCloseFile, hfetch]
    | lock key fd =>
      rw [Op.key] at hfetch
      simp [Op.exec, htableLockFile, hfetch]
    | unlock key fd =>
      rw [Op.key] at hfetch
      simp [Op.exec, htableUnlockFile, hfetch]
    | create | remove | replace | append => simp [Op.touches] at hop
  · refine Or.inr ⟨a, item.file, hsome, ?_⟩
    cases op with
    | «open» key fd withLock =>
      rw [Op.key] at hfetch
      simp only [Op.exec, htableOpenOrCreateFile, htableOpenFile, hfetch, Op.verdict,
        File.lockedAgainst, Op.touchStats]
      by_cases hopen : item.file.isOpen
      · simp [hopen]
      · by_cases hlocked : item.file.isLocked ∧ item.file.fdOwner ≠ fd
        · simp [hopen, hlocked]
        · simp [hopen, hlocked, HTable.setFile]
    | close key fd =>
      rw [Op.key] at hfetch
      simp only [Op.exec, htableCloseFile, hfetch, Op.verdict, File.lockedAgainst, Op.touchStats]
      by_cases hopen : item.file.isOpen
      · by_cases hlocked : item.file.isLocked ∧ item.file.fdOwner ≠ fd
        · simp [hopen, hlocked]
        · simp [hopen, hlocked, HTable.setFile]
      · simp [hopen]
    | lock key fd =>
      rw [Op.key] at hfetch
      simp only [Op.exec, htableLockFile, hfetch, Op.verdict, Op.touchStats]
      by_cases hlocked : item.file.isLocked
      · simp [hlocked, HTable.setFile]
      · by_cases hsubs : item.file.subs = []
        · simp [hlocked, hsubs, HTable.setFile]
        · simp [hlocked, hsubs]
    | unlock key fd =>
      rw [Op.key] at hfetch
      simp only [Op.exec, htableUnlockFile, hfetch, Op.verdict, Op.touchStats]
      by_cases hlocked : item.file.isLocked
      · by_cases howner : item.file.fdOwner = fd
        · cases hsubs : item.file.subs <;> simp [hlocked, howner, hsubs, HTable.setFile]
        · simp [hlocked, howner]
      · simp [hlocked]
    | create | remove | replace | append => simp [Op.touches] at hop

/-! ## 2. Create -/

theorem newItem_file (key : CStr) (fd : Int) (withLock : Bool) (head : Ptr) :
    (newItem key fd withLock head).file = newFile key fd withLock := rfl

/-- A missing key is linked at the head of its bucket. -/
theorem exec_create (h : Linked P t L) (key : CStr) (fd : Int) (withLock : Bool) :
    (∃ e, lookup L key = some e ∧
        htableCreateFile P t key fd withLock = .ok (.alreadyCreated, t)) ∨
      (lookup L key = none ∧ wordSize ≤ t.items.live + 1 ∧
        htableCreateFile P t key fd withLock = .error .exit) ∨
      ∃ t', lookup L key = none ∧
        Linked P t' (L.push (P.xxh64 key % L.length) (t.items.fresh, newFile key fd withLock)) ∧
        SameElse t t' ∧ t'.items.live = t.items.live + 1 ∧ t'.items.live < wordSize ∧
        htableCreateFile P t key fd withLock =
          (createStatsSection t' key).bind fun t => .ok (.ok, t) := by
  rcases h.fetchItem key with ⟨hnone, hfetch⟩ | ⟨a, item, hsome, -, -, hfetch⟩
  · right
    obtain ⟨l, hl⟩ := h.home_bucket key
    obtain ⟨b, hb, -⟩ := h.bucket_of_contents hl
    by_cases hroom : t.items.live + 1 < wordSize
    · right
      obtain ⟨t', hlink, hlinked, hsame, hlive⟩ := h.link hl hb
        (newItem key fd withLock b.head) rfl rfl rfl hroom
      refine ⟨t', hnone, hlinked, hsame, hlive, hlive ▸ hroom, ?_⟩
      simp [htableCreateFile, hfetch, h.bucketPtr_eq, HTable.bucket, hb, hlink]
      rfl
    · left
      have hfull := Nat.not_lt.mp hroom
      refine ⟨hnone, hfull, ?_⟩
      have hlink : linkSection t (P.xxh64 key % L.length) (newItem key fd withLock b.head) =
          .error .exit := by
        rw [linkSection, if_pos hfull]
        rfl
      simp [htableCreateFile, hfetch, h.bucketPtr_eq, HTable.bucket, hb, hlink]
  · left
    exact ⟨_, hsome, by simp [htableCreateFile, hfetch]⟩

/-! ## 3. Remove -/

/-- What is left of the table when the item of `(a, file)` is unlinked and freed. -/
structure Removed (P : Platform) (t : HTable) (L : Contents) (a : Addr) (t' : HTable) : Prop where
  linked : Linked P t' (L.drop a)
  same : SameElse t t'
  live : t'.items.live + 1 = t.items.live

theorem Unlinked.removed {a : Addr} {file : File} {t₁ t' : HTable}
    (h : Unlinked P t L a file t₁) (ht' : t' = { t₁ with items := t₁.items.free a }) :
    Removed P t L a t' := by
  subst ht'
  obtain ⟨item, hread, -⟩ := Heap.field_eq_some h.file
  refine ⟨h.linked.free, ⟨?_, h.same.stats, h.same.fifo, h.same.fifoItems⟩,
    (Heap.live_free hread).trans h.live⟩
  exact ⟨h.same.maxItemsCount, h.same.maxSpaceInBytes, h.same.policy⟩

theorem removeSection_eq (h : Linked P t L) (key : CStr) (fd : Int) :
    (lookup L key = none ∧ removeSection P t key fd = .ok (.inl .fileNotFound, t)) ∨
      ∃ a f, lookup L key = some (a, f) ∧
        ((f.lockedAgainst fd ∧ fd ≠ -1 ∧ removeSection P t key fd = .ok (.inl .ok, t)) ∨
          (¬(f.lockedAgainst fd ∧ fd ≠ -1) ∧ ∃ t', Removed P t L a t' ∧
            removeSection P t key fd = .ok (.inr f.lengthInBytes, t'))) := by
  rcases h.fetchItem key with ⟨hnone, hfetch⟩ | ⟨a, item, hsome, -, hread, hfetch⟩
  · exact Or.inl ⟨hnone, by simp [removeSection, hfetch]⟩
  · refine Or.inr ⟨a, item.file, hsome, ?_⟩
    by_cases hden : item.file.lockedAgainst fd ∧ fd ≠ -1
    · refine Or.inl ⟨hden.1, hden.2, ?_⟩
      obtain ⟨⟨hlocked, howner⟩, hfd⟩ := hden
      simp [removeSection, hfetch, hlocked, howner, hfd]
    · refine Or.inr ⟨hden, ?_⟩
      obtain ⟨l, hl⟩ := h.home_bucket key
      have hmem : (a, item.file) ∈ l := by
        rw [h.lookup_eq key hl] at hsome
        exact List.mem_of_find?_eq_some hsome
      obtain ⟨t₁, hunlink, hun⟩ := h.unlink hl hmem
      refine ⟨_, hun.removed rfl, ?_⟩
      have hden' : ¬(item.file.isLocked ∧ item.file.fdOwner ≠ fd ∧ fd ≠ -1) := fun hc =>
        hden ⟨⟨hc.1, hc.2.1⟩, hc.2.2⟩
      simp only [removeSection, hfetch, Exec.ok_bind, if_neg hden', h.bucketPtr_eq, hunlink]
      rfl

/-! ## 4. Replace and append -/

theorem replaceSection_ok (h : Linked P t L) {key : CStr} {contents : List UInt8}
    {r : Option (HTable × Nat)} (hx : replaceSection P t key contents = .ok r) :
    (lookup L key = none ∧ r = none) ∨
      ∃ a f, lookup L key = some (a, f) ∧ contents.length < wordSize ∧
        r = some (t.setFile a (f.withBytes contents), f.lengthInBytes) := by
  rcases h.fetchItem key with ⟨hnone, hfetch⟩ | ⟨a, item, hsome, -, -, hfetch⟩
  · refine Or.inl ⟨hnone, ?_⟩
    simp only [replaceSection, hfetch, Exec.ok_bind, Exec.pure_eq_ok, Except.ok.injEq] at hx
    exact hx.symm
  · simp only [replaceSection, hfetch, Exec.ok_bind] at hx
    obtain ⟨block, hblock, hx⟩ := Exec.bind_eq_ok.mp hx
    obtain ⟨⟨hsize, -⟩, rfl⟩ := xrealloc_eq_ok.mp hblock
    rw [memcpy_zero (resize_length _ _)] at hx
    simp only [Exec.ok_bind, Exec.pure_eq_ok, Except.ok.injEq] at hx
    exact Or.inr ⟨a, item.file, hsome, hsize, hx.symm⟩

/-- The copy stays inside the block, so the new length did not wrap. -/
theorem appendSection_ok (h : Linked P t L) (hsized : ∀ e ∈ L.flatten, e.2.Sized) {key : CStr}
    {contents : List UInt8} {r : Option HTable} (hx : appendSection P t key contents = .ok r) :
    (lookup L key = none ∧ r = none) ∨
      ∃ a f, lookup L key = some (a, f) ∧ f.lengthInBytes + contents.length < wordSize ∧
        r = some (t.setFile a (f.withBytes (f.bytes ++ contents))) := by
  rcases h.fetchItem key with ⟨hnone, hfetch⟩ | ⟨a, item, hsome, -, -, hfetch⟩
  · refine Or.inl ⟨hnone, ?_⟩
    simp only [appendSection, hfetch, Exec.ok_bind, Exec.pure_eq_ok, Except.ok.injEq] at hx
    exact hx.symm
  · obtain ⟨hlen, hlt⟩ := hsized _ (mem_of_lookup hsome)
    simp only at hlen hlt
    simp only [appendSection, hfetch, Exec.ok_bind] at hx
    obtain ⟨block, hblock, hx⟩ := Exec.bind_eq_ok.mp hx
    obtain ⟨-, rfl⟩ := xrealloc_eq_ok.mp hblock
    obtain ⟨block', hcopy, hx⟩ := Exec.bind_eq_ok.mp hx
    have hsum : item.file.lengthInBytes + contents.length < wordSize := by
      unfold memcpy at hcopy
      rw [resize_length] at hcopy
      split at hcopy
      · rename_i hin
        exact add_lt_of_wsub_wadd hlt hin
      · cases hcopy
    have hwadd := wadd_of_lt hsum
    have hoff : wsub (wadd item.file.lengthInBytes contents.length) contents.length =
        item.file.bytes.length := by
      rw [hwadd, wsub_of_le (Nat.le_add_left _ _), hlen]
      omega
    have hblock' : resize item.file.bytes (wadd item.file.lengthInBytes contents.length) =
        item.file.bytes ++ List.replicate contents.length 0 := by
      rw [hwadd, ← hlen, resize_of_ge (by omega)]
      congr 2
      omega
    change memcpy (resize item.file.bytes _) _ _ = _ at hcopy
    rw [hoff, hblock', memcpy_append _ _ _ List.length_replicate] at hcopy
    obtain rfl := Except.ok.inj hcopy
    refine Or.inr ⟨a, item.file, hsome, hsum, ?_⟩
    simp only [Exec.pure_eq_ok, Except.ok.injEq, hwadd] at hx
    rw [← hx, File.withBytes, List.length_append, hlen]

/-! ## 5. One round of the eviction loop -/

/-- How the policy came to evict `file`, and what that did to the FIFO chain. -/
inductive Picked (t : HTable) (file : File) (t' : HTable) : Prop
  | atRandom (hpolicy : t.policy = .segmentedFifo) (hfifo : t'.fifo = t.fifo)
      (hitems : t'.fifoItems = t.fifoItems)
  | inOrder {fifo : Fifo} {last : Addr} {node : FifoItem} (hpolicy : t.policy = .fifo)
      (hfifo : t.fifo = some fifo) (hlast : fifo.last = some last)
      (hread : t.fifoItems.read last = some node) (hkey : node.key = file.key)
      (hfifo' : t'.fifo = some { fifo with last := node.prev })
      (hitems : t'.fifoItems = t.fifoItems.free last)

/-- What evicting `(a, file)` does to the table. -/
structure Evicted (P : Platform) (t : HTable) (L : Contents) (a : Addr) (file : File)
    (t' : HTable) : Prop where
  mem : (a, file) ∈ L.flatten
  linked : Linked P t' (L.drop a)
  live : t'.items.live + 1 = t.items.live
  stats : t'.stats = evictStats t.stats file
  settings : SameSettings t t'
  picked : Picked t file t'
  /-- The FIFO policy goes by the key. -/
  found : t.policy = .fifo → lookup L file.key = some (a, file)

theorem fifoEvict_of_last {fifo : Fifo} {last : Addr} {node : FifoItem} (hfifo : t.fifo = some fifo)
    (hlast : fifo.last = some last) (hread : t.fifoItems.read last = some node) :
    fifoEvict t = .ok (some node.key, t.popFifo fifo last node) := by
  simp [fifoEvict, hfifo, hlast, Heap.load_of_read hread, HTable.popFifo]

theorem fifoEvict_ok {key : CStr} {t' : HTable} (hx : fifoEvict t = .ok (some key, t')) :
    ∃ fifo last node, t.fifo = some fifo ∧ fifo.last = some last ∧
      t.fifoItems.read last = some node ∧ key = node.key ∧ t' = t.popFifo fifo last node := by
  unfold fifoEvict at hx
  split at hx
  · cases hx
  · rename_i fifo hfifo
    split at hx
    · cases hx
    · rename_i last hlast
      obtain ⟨node, hload, hx⟩ := Exec.bind_eq_ok.mp hx
      simp only [Exec.pure_eq_ok, Except.ok.injEq, Prod.mk.injEq, Option.some.injEq] at hx
      exact ⟨fifo, last, node, hfifo, hlast, Heap.load_eq_ok.mp hload, hx.1.symm, hx.2.symm⟩

/-- Under FIFO the item of the key that comes off the chain is unlinked. -/
theorem evictSingleFifo_eq (h : Linked P t L) {fifo : Fifo} {last : Addr} {node : FifoItem}
    (hfifo : t.fifo = some fifo) (hlast : fifo.last = some last)
    (hread : t.fifoItems.read last = some node) :
    (lookup L node.key = none ∧
        htableEvictSingleFileFifo P t = .ok (none, t.popFifo fifo last node)) ∨
      ∃ a f t', lookup L node.key = some (a, f) ∧
        htableEvictSingleFileFifo P t = .ok (some a, t') ∧
        Unlinked P (t.popFifo fifo last node) L a f t' := by
  have h₁ : Linked P (t.popFifo fifo last node) L := h.of_same rfl rfl
  rw [htableEvictSingleFileFifo, fifoEvict_of_last hfifo hlast hread, Exec.ok_bind]
  rcases h₁.fetchItem node.key with ⟨hnone, hfetch⟩ | ⟨a, item, hsome, -, -, hfetch⟩
  · exact Or.inl ⟨hnone, by simp [hfetch]⟩
  · obtain ⟨l, hl⟩ := h.home_bucket node.key
    have hmem : (a, item.file) ∈ l := by
      rw [h₁.lookup_eq node.key hl] at hsome
      exact List.mem_of_find?_eq_some hsome
    obtain ⟨t', hunlink, hun⟩ := h₁.unlink hl hmem
    exact Or.inr ⟨a, item.file, t', hsome, by simp [hfetch, h₁.bucketPtr_eq, hunlink], hun⟩

/-- Whatever the policy picks is an item of some bucket. -/
theorem evictSingle_ok (h : Linked P t L) {rands rands' : List Nat} {p : Ptr} {t' : HTable}
    (hx : htableEvictSingleFile P t rands = .ok (p, t', rands')) :
    p = none ∨ ∃ a f, p = some a ∧ (a, f) ∈ L.flatten ∧ Linked P t' (L.drop a) ∧
      SameSettings t t' ∧ t'.stats = t.stats ∧ t'.items.live = t.items.live ∧
      t'.items.field HTableItem.file a = some f ∧ Picked t f t' ∧
      (t.policy = .fifo → lookup L f.key = some (a, f)) := by
  unfold htableEvictSingleFile at hx
  cases hpol : t.policy with
  | segmentedFifo =>
    simp only [hpol, htableEvictSingleFileSegmentedFifo] at hx
    obtain ⟨⟨a, t₁, rands₁⟩, hloop, hx⟩ := Exec.bind_eq_ok.mp hx
    simp only [Exec.pure_eq_ok, Except.ok.injEq, Prod.mk.injEq] at hx
    obtain ⟨rfl, rfl, rfl⟩ := hx
    split at hloop
    · cases hloop
    · rcases h.segmentedLoop_eq rands with hdiv | ⟨i, l, a', f, t₂, rands₂, hl, hloop', hun⟩
      · rw [hdiv] at hloop
        cases hloop
      · rw [hloop'] at hloop
        obtain ⟨rfl, rfl, rfl⟩ : a' = a ∧ t₂ = t₁ ∧ rands₂ = rands₁ := by
          simpa using hloop
        refine Or.inr ⟨a', f, rfl, ?_, hun.linked, hun.same.toSameSettings, hun.same.stats,
          hun.live, hun.file, .atRandom hpol hun.same.fifo hun.same.fifoItems, nofun⟩
        exact List.mem_flatten.mpr ⟨_, List.mem_of_getElem? hl, by simp⟩
  | fifo =>
    simp only [hpol] at hx
    obtain ⟨⟨p₁, t₁⟩, hsingle, hx⟩ := Exec.bind_eq_ok.mp hx
    simp only [Exec.pure_eq_ok, Except.ok.injEq, Prod.mk.injEq] at hx
    obtain ⟨rfl, rfl, rfl⟩ := hx
    have hsingle' := hsingle
    unfold htableEvictSingleFileFifo at hsingle'
    obtain ⟨⟨key?, t₂⟩, hevict, hsingle'⟩ := Exec.bind_eq_ok.mp hsingle'
    cases key? with
    | none =>
      simp only [Exec.pure_eq_ok, Except.ok.injEq, Prod.mk.injEq] at hsingle'
      exact Or.inl hsingle'.1.symm
    | some key =>
      obtain ⟨fifo, last, node, hfifo, hlast, hread, -, -⟩ := fifoEvict_ok hevict
      rcases h.evictSingleFifo_eq hfifo hlast hread with
        ⟨-, hexec⟩ | ⟨a, f, t', hsome, hexec, hun⟩
      · rw [hexec] at hsingle
        simp only [Except.ok.injEq, Prod.mk.injEq] at hsingle
        exact Or.inl hsingle.1.symm
      · rw [hexec] at hsingle
        simp only [Except.ok.injEq, Prod.mk.injEq] at hsingle
        obtain ⟨rfl, rfl⟩ := hsingle
        have hsame := hun.same
        exact Or.inr ⟨a, f, rfl, mem_of_lookup hsome, hun.linked,
          ⟨hsame.maxItemsCount, hsame.maxSpaceInBytes, hsame.policy⟩, hsame.stats, hun.live,
          hun.file, .inOrder hpol hfifo hlast hread (key_of_lookup hsome).symm hsame.fifo
            hsame.fifoItems, fun _ => by rw [key_of_lookup hsome, hsome]⟩

theorem evictRound_ok (h : Linked P t L) {evicted evicted' : List File} {rands rands' : List Nat}
    {t' : HTable} (hx : evictRound P t evicted rands = .ok (t', evicted', rands')) :
    ∃ a f, Evicted P t L a f t' ∧ evicted' = evicted ++ [f] ∧
      (evicted.length + 1) % unsignedSize ≠ 0 ∧
      P.grants evicted.isEmpty (sizeofFile * ((evicted.length + 1) % unsignedSize)) := by
  unfold evictRound at hx
  simp only at hx
  split at hx
  · simp at hx
  · rename_i hgrants
    simp only [Exec.pure_eq_ok] at hx
    obtain ⟨⟨p, t₁, rands₁⟩, hsingle, hx⟩ := Exec.bind_eq_ok.mp hx
    rcases h.evictSingle_ok hsingle with
      rfl | ⟨a, f, rfl, hmem, hlinked, hsame, hstats, hlive, hfile, hpicked, hfound⟩
    · simp at hx
    · obtain ⟨item, hread, rfl⟩ := Heap.field_eq_some hfile
      simp only [Heap.load_of_read hread, Exec.ok_bind] at hx
      split at hx
      · simp at hx
      · rename_i hcount
        simp only [Except.ok.injEq, Prod.mk.injEq] at hx
        obtain ⟨rfl, rfl, -⟩ := hx
        refine ⟨a, item.file, ⟨hmem, hlinked.free.of_same rfl rfl,
          (Heap.live_free hread).trans hlive, by rw [hstats],
          ⟨hsame.maxItemsCount, hsame.maxSpaceInBytes, hsame.policy⟩, ?_, hfound⟩, rfl, hcount,
          by simpa using hgrants⟩
        cases hpicked with
        | atRandom hpolicy hfifo hitems => exact .atRandom hpolicy hfifo hitems
        | inOrder hpolicy hfifo hlast hread hkey hfifo' hitems =>
          exact .inOrder hpolicy hfifo hlast hread hkey hfifo' hitems

/-- Under FIFO a round succeeds when the key that comes off the chain is stored. -/
theorem evictRound_of_fifo (h : Linked P t L) (hpolicy : t.policy = .fifo) {fifo : Fifo}
    {last : Addr} {node : FifoItem} (hfifo : t.fifo = some fifo) (hlast : fifo.last = some last)
    (hread : t.fifoItems.read last = some node) {a : Addr} {f : File}
    (hlook : lookup L node.key = some (a, f)) {evicted : List File}
    (hcount : evicted.length + 1 < unsignedSize)
    (hgrants : P.grants evicted.isEmpty (sizeofFile * (evicted.length + 1)))
    (rands : List Nat) :
    ∃ t', evictRound P t evicted rands = .ok (t', evicted ++ [f], rands) := by
  rcases h.evictSingleFifo_eq hfifo hlast hread with ⟨hnone, -⟩ | ⟨b, g, t', hsome, hexec, hun⟩
  · rw [hnone] at hlook
    cases hlook
  · obtain ⟨rfl, rfl⟩ : b = a ∧ g = f := by simpa [hsome] using hlook
    obtain ⟨item, hitem, rfl⟩ := Heap.field_eq_some hun.file
    refine ⟨{ t' with stats := evictStats t'.stats item.file, items := t'.items.free b }, ?_⟩
    have hne : evicted.length + 1 ≠ 0 := Nat.succ_ne_zero _
    simp [evictRound, Nat.mod_eq_of_lt hcount, hgrants, htableEvictSingleFile, hpolicy, hexec,
      Heap.load_of_read hitem]

end Linked

end FileStorage.Server
