import FileStorage.Run
import FileStorage.Server.Sections
import Mathlib.Algebra.GroupWithZero.Nat
import Mathlib.Data.List.Perm.Basic

/-!
# Stored — the table as a store: one file per key

Adds to `Linked` what holds between operations, and says once what an operation that returns does
to the table.
-/

namespace FileStorage.Server

open Memory

/-! ## 1. Entries up to order -/

/-- The file the entries hold under `key`. -/
def fileIn (l : List Entry) (key : CStr) : Option File := (l.find? (·.2.key = key)).map Prod.snd

def keysOf (l : List Entry) : List CStr := l.map (·.2.key)

def bytesOf (l : List Entry) : Nat := (l.map (·.2.lengthInBytes)).sum

theorem fileAt_eq (L : Contents) : fileAt L = fileIn L.flatten := rfl

theorem fileIn_cons (e : Entry) (l : List Entry) :
    fileIn (e :: l) = Function.update (fileIn l) e.2.key (some e.2) := by
  funext key
  by_cases hkey : e.2.key = key
  · subst hkey
    simp [fileIn]
  · rw [Function.update_of_ne (Ne.symm hkey)]
    simp [fileIn, hkey]

theorem fileIn_eq_some {l : List Entry} (hkeys : (keysOf l).Nodup) {key : CStr} {f : File} :
    fileIn l key = some f ↔ ∃ a, (a, f) ∈ l ∧ f.key = key := by
  induction l with
  | nil => simp [fileIn]
  | cons e l ih =>
    obtain ⟨hnot, hkeys⟩ := List.nodup_cons.mp hkeys
    rw [fileIn_cons]
    by_cases hkey : key = e.2.key
    · subst hkey
      rw [Function.update_self]
      constructor
      · rintro hf
        obtain rfl := Option.some.inj hf
        exact ⟨e.1, List.mem_cons_self, rfl⟩
      · rintro ⟨a, hmem, hfkey⟩
        rcases List.mem_cons.mp hmem with he | hmem
        · rw [← he]
        · exact absurd (List.mem_map.mpr ⟨(a, f), hmem, hfkey⟩) hnot
    · rw [Function.update_of_ne hkey, ih hkeys]
      constructor
      · rintro ⟨a, hmem, hfkey⟩
        exact ⟨a, List.mem_cons_of_mem _ hmem, hfkey⟩
      · rintro ⟨a, hmem, hfkey⟩
        rcases List.mem_cons.mp hmem with he | hmem
        · rw [← he] at hkey
          exact absurd hfkey.symm hkey
        · exact ⟨a, hmem, hfkey⟩

theorem fileIn_eq_none {l : List Entry} {key : CStr} : fileIn l key = none ↔ key ∉ keysOf l := by
  simp [fileIn, keysOf]

/-- The order of the entries does not matter to a lookup. -/
theorem fileIn_perm {l l' : List Entry} (h : l.Perm l') (hkeys : (keysOf l).Nodup) :
    fileIn l = fileIn l' := by
  have hkeys' : (keysOf l').Nodup := (h.map _).nodup_iff.mp hkeys
  funext key
  ext f
  simp only [fileIn_eq_some hkeys, fileIn_eq_some hkeys', h.mem_iff]

@[simp] theorem bytesOf_cons (e : Entry) (l : List Entry) :
    bytesOf (e :: l) = e.2.lengthInBytes + bytesOf l := rfl

theorem bytesOf_perm {l l' : List Entry} (h : l.Perm l') : bytesOf l = bytesOf l' :=
  (h.map _).sum_nat

/-! ## 2. The list operations up to order -/

theorem perm_cons_filter {l : List Entry} {a : Addr} {f : File}
    (haddrs : (l.map Prod.fst).Nodup) (hmem : (a, f) ∈ l) :
    l.Perm ((a, f) :: l.filter (·.1 ≠ a)) := by
  obtain ⟨as, bs, hsplit⟩ := List.append_of_mem hmem
  rw [Linked.filter_ne_eq hsplit haddrs, hsplit]
  exact List.perm_middle

theorem map_setEntry_of_not_mem {l : List Entry} {a : Addr} (ha : a ∉ l.map Prod.fst) (f : File) :
    l.map (setEntry a f) = l := by
  have hid : ∀ e ∈ l, setEntry a f e = id e := fun e he =>
    if_neg fun (heq : e.1 = a) => ha (heq ▸ List.mem_map_of_mem he)
  rw [List.map_congr_left hid, List.map_id]

theorem map_setEntry_perm {l : List Entry} {a : Addr} {f : File}
    (haddrs : (l.map Prod.fst).Nodup) (hmem : (a, f) ∈ l) (f' : File) :
    (l.map (setEntry a f')).Perm ((a, f') :: l.filter (·.1 ≠ a)) := by
  have hperm := perm_cons_filter haddrs hmem
  have hnot : a ∉ (l.filter (·.1 ≠ a)).map Prod.fst := by
    simp
  have hmap := hperm.map (setEntry a f')
  rw [List.map_cons, map_setEntry_of_not_mem hnot] at hmap
  have hself : setEntry a f' (a, f) = (a, f') := if_pos rfl
  rwa [hself] at hmap

namespace Linked

variable {P : Platform} {t : HTable} {L : Contents} {a : Addr} {f : File}

theorem drop_perm (h : Linked P t L) (hmem : (a, f) ∈ L.flatten) :
    L.flatten.Perm ((a, f) :: (L.drop a).flatten) := by
  rw [Contents.drop_flatten]
  exact perm_cons_filter h.addrs_nodup hmem

theorem setFile_perm (h : Linked P t L) (hmem : (a, f) ∈ L.flatten) (f' : File) :
    (L.setFile a f').flatten.Perm ((a, f') :: (L.drop a).flatten) := by
  rw [Contents.setFile_flatten, Contents.drop_flatten]
  exact map_setEntry_perm h.addrs_nodup hmem f'

theorem drop_length (h : Linked P t L) (hmem : (a, f) ∈ L.flatten) :
    (L.drop a).flatten.length + 1 = L.flatten.length :=
  (h.drop_perm hmem).length_eq.symm

theorem drop_bytes (h : Linked P t L) (hmem : (a, f) ∈ L.flatten) :
    f.lengthInBytes + bytesOf (L.drop a).flatten = bytesOf L.flatten :=
  (bytesOf_perm (h.drop_perm hmem)).symm

theorem setFile_length (f' : File) : (L.setFile a f').flatten.length = L.flatten.length := by
  rw [Contents.setFile_flatten, List.length_map]

theorem setFile_bytes (h : Linked P t L) (hmem : (a, f) ∈ L.flatten) (f' : File) :
    f.lengthInBytes + bytesOf (L.setFile a f').flatten =
      f'.lengthInBytes + bytesOf L.flatten := by
  have hset := bytesOf_perm (h.setFile_perm hmem f')
  have hdrop := h.drop_bytes hmem
  simp only [bytesOf_cons] at hset
  omega

theorem setFile_of_mem (h : Linked P t L) (hmem : (a, f) ∈ L.flatten) {f' : File}
    (hkey : f'.key = f.key) : Linked P (t.setFile a f') (L.setFile a f') := by
  refine h.setFile a f' fun old hold => ?_
  have heq : (a, old) = (a, f) := h.eq_of_addr hold hmem rfl
  obtain rfl : old = f := congrArg Prod.snd heq
  exact hkey

theorem sized_setFile (h : Linked P t L) (hsized : ∀ e ∈ L.flatten, e.2.Sized)
    (hmem : (a, f) ∈ L.flatten) {f' : File} (hf' : f'.Sized) :
    ∀ e ∈ (L.setFile a f').flatten, e.2.Sized := by
  intro e he
  rcases List.mem_cons.mp ((h.setFile_perm hmem f').mem_iff.mp he) with rfl | he
  · exact hf'
  · exact hsized e ((h.drop_perm hmem).mem_iff.mpr (List.mem_cons_of_mem _ he))

theorem sized_drop (h : Linked P t L) (hsized : ∀ e ∈ L.flatten, e.2.Sized)
    (hmem : (a, f) ∈ L.flatten) : ∀ e ∈ (L.drop a).flatten, e.2.Sized := fun e he =>
  hsized e ((h.drop_perm hmem).mem_iff.mpr (List.mem_cons_of_mem _ he))

end Linked

/-! ## 3. Between operations -/

structure Stored (P : Platform) (t : HTable) (L : Contents) : Prop extends Linked P t L where
  keys : (keysOf L.flatten).Nodup
  sized : ∀ e ∈ L.flatten, e.2.Sized
  room : t.items.live < wordSize

namespace Stored

variable {P : Platform} {t t' : HTable} {L : Contents} {a : Addr} {f : File}

theorem fileAt_iff (h : Stored P t L) {key : CStr} :
    fileAt L key = some f ↔ ∃ a, (a, f) ∈ L.flatten ∧ f.key = key := fileIn_eq_some h.keys

theorem fileAt_key (h : Stored P t L) {key : CStr} (hf : fileAt L key = some f) : f.key = key :=
  (h.fileAt_iff.mp hf).elim fun _ hx => hx.2

theorem fileAt_mem (h : Stored P t L) (hmem : (a, f) ∈ L.flatten) : fileAt L f.key = some f :=
  h.fileAt_iff.mpr ⟨a, hmem, rfl⟩

theorem fileAt_split (h : Stored P t L) (hmem : (a, f) ∈ L.flatten) :
    fileAt L = Function.update (fileAt (L.drop a)) f.key (some f) := by
  rw [fileAt_eq, fileIn_perm (h.drop_perm hmem) h.keys, fileIn_cons]
  rfl

theorem keys_drop (h : Stored P t L) (hmem : (a, f) ∈ L.flatten) :
    f.key ∉ keysOf (L.drop a).flatten ∧ (keysOf (L.drop a).flatten).Nodup := by
  have hkeys : (keysOf ((a, f) :: (L.drop a).flatten)).Nodup :=
    ((h.drop_perm hmem).map _).nodup_iff.mp h.keys
  exact List.nodup_cons.mp hkeys

theorem fileAt_drop (h : Stored P t L) (hmem : (a, f) ∈ L.flatten) :
    fileAt (L.drop a) = Function.update (fileAt L) f.key none := by
  have hnone : fileAt (L.drop a) f.key = none := fileIn_eq_none.mpr (h.keys_drop hmem).1
  rw [h.fileAt_split hmem, Function.update_idem, ← hnone, Function.update_eq_self]

theorem keys_setFile (h : Stored P t L) (hmem : (a, f) ∈ L.flatten) {f' : File}
    (hkey : f'.key = f.key) : (keysOf (L.setFile a f').flatten).Nodup := by
  obtain ⟨hnot, hnodup⟩ := h.keys_drop hmem
  refine ((h.setFile_perm hmem f').map _).nodup_iff.mpr (List.nodup_cons.mpr ⟨?_, hnodup⟩)
  rw [← hkey] at hnot
  exact hnot

theorem fileAt_setFile (h : Stored P t L) (hmem : (a, f) ∈ L.flatten) {f' : File}
    (hkey : f'.key = f.key) :
    fileAt (L.setFile a f') = Function.update (fileAt L) f.key (some f') := by
  rw [fileAt_eq, fileIn_perm (h.setFile_perm hmem f') (h.keys_setFile hmem hkey), fileIn_cons,
    h.fileAt_split hmem, Function.update_idem, hkey]
  rfl

/-! ### Preservation -/

theorem setFile (h : Stored P t L) (hmem : (a, f) ∈ L.flatten) (f' : File)
    (hkey : f'.key = f.key) (hsized : f'.Sized) : Stored P (t.setFile a f') (L.setFile a f') := by
  refine ⟨h.setFile_of_mem hmem hkey, h.keys_setFile hmem hkey,
    h.sized_setFile h.sized hmem hsized, ?_⟩
  rw [HTable.setFile, Heap.live_modify]
  exact h.room

theorem drop (h : Stored P t L) (hmem : (a, f) ∈ L.flatten) (hlinked : Linked P t' (L.drop a))
    (hlive : t'.items.live + 1 = t.items.live) : Stored P t' (L.drop a) :=
  ⟨hlinked, (h.keys_drop hmem).2, h.sized_drop h.sized hmem, by have := h.room; omega⟩

theorem push_perm (h : Stored P t L) (e : Entry) :
    (L.push (P.xxh64 e.2.key % L.length) e).flatten.Perm (e :: L.flatten) :=
  L.push_flatten_perm (Nat.mod_lt _ h.pos) e

theorem keys_push (h : Stored P t L) {e : Entry} (hnone : lookup L e.2.key = none) :
    (keysOf (L.push (P.xxh64 e.2.key % L.length) e).flatten).Nodup := by
  refine ((h.push_perm e).map _).nodup_iff.mpr (List.nodup_cons.mpr ⟨?_, h.keys⟩)
  exact fileIn_eq_none.mp (fileAt_of_lookup_none hnone)

theorem fileAt_push (h : Stored P t L) (e : Entry) (hnone : lookup L e.2.key = none) :
    fileAt (L.push (P.xxh64 e.2.key % L.length) e) =
      Function.update (fileAt L) e.2.key (some e.2) := by
  rw [fileAt_eq, fileIn_perm (h.push_perm e) (h.keys_push hnone), fileIn_cons]
  rfl

theorem push (h : Stored P t L) (e : Entry) (hnone : lookup L e.2.key = none)
    (hlinked : Linked P t' (L.push (P.xxh64 e.2.key % L.length) e)) (hsized : e.2.Sized)
    (hroom : t'.items.live < wordSize) :
    Stored P t' (L.push (P.xxh64 e.2.key % L.length) e) := by
  refine ⟨hlinked, h.keys_push hnone, fun x hx => ?_, hroom⟩
  rcases List.mem_cons.mp ((h.push_perm e).mem_iff.mp hx) with rfl | hx
  · exact hsized
  · exact h.sized x hx

theorem of_same (h : Stored P t L) (hbuckets : t'.buckets = t.buckets)
    (hitems : t'.items = t.items) : Stored P t' L :=
  ⟨h.toLinked.of_same hbuckets hitems, h.keys, h.sized, by rw [hitems]; exact h.room⟩

end Stored

end FileStorage.Server
