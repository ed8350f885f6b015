import FileStorage.Interference
import FileStorage.Server.Contents
import FileStorage.Server.LockOrder

/-!
# Sharing — what a thread may rely on while others work on the table

The guard of a bucket keeps the others off its items.  An item that is in no bucket any more belongs
to the thread that took it out, guard or no guard.
-/

namespace FileStorage.Server

open Memory

/-! ## 1. Calls and what they do to the map -/

def Op.creates : Op → Bool
  | .create _ _ _ => true
  | _ => false

/-- An operation or the reading of a file.  Creations are left out: two at a time may both miss the
key. -/
inductive TableCall where
  | op (op : Op) (hop : op.creates = false)
  | read (key : CStr)

inductive TableEffect where
  | answered (code : HTableError) (newOwner : Int)
  | evicted (f : File)
  | contents (bytes : Option (List UInt8))

inductive TableReply where
  | outcome (out : Outcome)
  | contents (bytes : Option (List UInt8))
deriving DecidableEq

/-- What one step of a call may do to the map. -/
inductive EffectStep (m : FileMap) : TableCall × TableEffect → FileMap → Prop
  | refuse {op : Op} {hop : op.creates = false} {code : HTableError}
      (h : op.verdict (m op.key) = .refuse code) :
      EffectStep m (.op op hop, .answered code (-1)) m
  | put {op : Op} {hop : op.creates = false} {code : HTableError} {newOwner : Int} {f : File}
      (h : op.verdict (m op.key) = .put code newOwner f) :
      EffectStep m (.op op hop, .answered code newOwner) (Function.update m op.key (some f))
  | drop {op : Op} {hop : op.creates = false} (h : op.verdict (m op.key) = .drop) :
      EffectStep m (.op op hop, .answered .ok (-1)) (Function.update m op.key none)
  | evict {op : Op} {hop : op.creates = false} {f : File} (hwrites : op.writes)
      (hf : m f.key = some f) :
      EffectStep m (.op op hop, .evicted f) (Function.update m f.key none)
  | read {key : CStr} :
      EffectStep m (.read key, .contents ((m key).map File.bytes)) m

/-- The answer comes first, then what is evicted for it. -/
inductive Finished : TableCall → List TableEffect → TableReply → Prop
  | op {op : Op} {hop : op.creates = false} {out : Outcome}
      (hquiet : op.writes = false ∨ out.code ≠ .ok → out.evicted = []) :
      Finished (.op op hop) (.answered out.code out.newOwner :: out.evicted.map .evicted)
        (.outcome out)
  | read {key : CStr} {bytes : Option (List UInt8)} :
      Finished (.read key) [.contents bytes] (.contents bytes)

/-- The table, seen as a map. -/
def tableObject (P : Platform) : Object SharedTable FileMap TableCall TableEffect TableReply where
  see s := tableMap P s.table
  step := EffectStep
  finished := Finished

/-! ## 2. The discipline -/

/-- The items in the buckets. -/
def HTable.linked (t : HTable) (a : Addr) : Prop := a ∈ t.contents.flatten.map Prod.fst

/-- What the others may do while a thread holds some guards and has taken some items out. -/
structure Beside (held : List Guard) (own : List Addr) (t t' : HTable) : Prop where
  buckets : ∀ i, .bucket i ∈ held → t'.contents[i]? = t.contents[i]?
  own : ∀ a ∈ own, ¬t.linked a →
    ¬t'.linked a ∧ t'.items.field HTableItem.file a = t.items.field HTableItem.file a

/-- No thread has an item of another one, or one that is in a bucket. -/
structure Apart (t : HTable) (own own' : List Addr) : Prop where
  disjoint : own.Disjoint own'
  unlinked : ∀ a ∈ own, ¬t.linked a
  unlinked' : ∀ a ∈ own', ¬t.linked a

/-- The discipline on a table with `n` buckets. -/
def sharing (P : Platform) (n : Nat) : Discipline Guard (List Addr) SharedTable where
  inv s := Stored P s.table s.table.contents ∧ s.HasBuckets n
  none := []
  apart s := Apart s.table
  others held own s s' := Beside held own s.table s'.table
  apart_symm h := ⟨fun _ ha' ha => h.disjoint ha ha', h.unlinked', h.unlinked⟩
  apart_none _ := ⟨List.disjoint_nil_left _, nofun, nofun⟩
  apart_others h hothers hothers' :=
    ⟨h.disjoint, fun a ha => (hothers.own a ha (h.unlinked a ha)).1,
      fun a ha => (hothers'.own a ha (h.unlinked' a ha)).1⟩
  others_refl _ _ _ := ⟨fun _ _ => rfl, fun _ _ h => ⟨h, rfl⟩⟩
  others_mono h := ⟨fun i hi => h.buckets i (List.mem_cons_of_mem _ hi), h.own⟩

abbrev TableStanding := Standing Guard (List Addr) TableEffect SharedTable

namespace TableStanding

/-- The thread knows nothing of the table. -/
def bare (held : List Guard) (effects : List TableEffect) : TableStanding :=
  ⟨held, [], effects, fun _ => True⟩

/-- The thread has found the file under its key. -/
def holding (held : List Guard) (effects : List TableEffect) (key : CStr) (a : Addr) (f : File) :
    TableStanding := ⟨held, [], effects, fun s => lookup s.table.contents key = some (a, f)⟩

/-- The thread has taken out the item at `a`. -/
def owning (held : List Guard) (effects : List TableEffect) (a : Addr) (f : File) : TableStanding :=
  ⟨held, [a], effects, fun s => ¬s.table.linked a ∧ s.table.items.field HTableItem.file a = some f⟩

end TableStanding

variable {P : Platform} {n : Nat} {t t' : HTable} {L : Contents} {a : Addr} {f f' : File} {key : CStr}
  {held : List Guard} {own : List Addr} {s s' : SharedTable} {call : TableCall}
  {effects : List TableEffect} {here next : TableStanding}

theorem stable_bare : (sharing P n).Stable held own fun _ => True := fun _ _ _ _ _ _ => trivial

/-- Nobody else changes the bucket of the file that was found. -/
theorem stable_holding (hheld : TableProgram.home P n key ∈ held) :
    (sharing P n).Stable held own fun s => lookup s.table.contents key = some (a, f) := by
  rintro s s' ⟨hs, hn⟩ ⟨hs', hn'⟩ hothers hlook
  have hlength : s.table.contents.length = n := hs.length.trans hn
  have hlength' : s'.table.contents.length = n := hs'.length.trans hn'
  obtain ⟨l, hl⟩ := hs.home_bucket key
  have hl' : s'.table.contents[P.xxh64 key % s'.table.contents.length]? = some l := by
    rw [hlength] at hl
    rw [hlength', hothers.buckets _ hheld, hl]
  rw [hs'.lookup_eq key hl', ← hs.lookup_eq key hl]
  exact hlook

theorem stable_owning (held : List Guard) : (sharing P n).Stable held [a] fun s =>
    ¬s.table.linked a ∧ s.table.items.field HTableItem.file a = some f := by
  rintro s s' - - hothers ⟨hlinked, hfile⟩
  obtain ⟨hlinked', hfile'⟩ := hothers.own a List.mem_cons_self hlinked
  exact ⟨hlinked', hfile'.trans hfile⟩

/-! ## 3. What a step leaves alone -/

theorem Beside.of_same (hbuckets : t'.buckets = t.buckets) (hitems : t'.items = t.items) :
    Beside held own t t' := by
  have hcontents := contents_of_same hbuckets hitems
  refine ⟨fun i _ => by rw [hcontents], fun a _ h => ⟨?_, by rw [hitems]⟩⟩
  rwa [HTable.linked, hcontents]

/-- Only the bucket of `f` changes. -/
theorem Beside.of_bucket (h : Stored P t t.contents) (hn : t.buckets.length = n)
    (hlinked : Linked P t' L)
    (hframe : ∀ i, i ≠ P.xxh64 f.key % t.contents.length → L[i]? = t.contents[i]?)
    (hheld : TableProgram.home P n f.key ∉ held)
    (hown : ∀ a ∈ own, ¬t.linked a → a ∉ L.flatten.map Prod.fst ∧
      t'.items.field HTableItem.file a = t.items.field HTableItem.file a) : Beside held own t t' := by
  rw [h.length, hn] at hframe
  refine ⟨fun i hi => ?_, fun a ha hnot => ?_⟩
  · rw [hlinked.contents_eq]
    apply hframe
    rintro rfl
    exact hheld hi
  · rw [HTable.linked, hlinked.contents_eq]
    exact hown a ha hnot

theorem linked_of_mem (hmem : (a, f) ∈ t.contents.flatten) : t.linked a := List.mem_map_of_mem hmem

theorem Beside.setFile (h : Stored P t t.contents) (hn : t.buckets.length = n)
    (hmem : (a, f) ∈ t.contents.flatten) (hkey : f'.key = f.key)
    (hheld : TableProgram.home P n f.key ∉ held) : Beside held own t (t.setFile a f') := by
  refine .of_bucket h hn (h.setFile_of_mem hmem hkey) (fun i hi => h.setFile_frame hmem f' hi) hheld
    fun b _ hb => ⟨?_, ?_⟩
  · rw [Contents.setFile_addrs]
    exact hb
  · exact Heap.field_modify_of_ne _ _ _ fun hab => hb (hab ▸ linked_of_mem hmem)

theorem Beside.drop (h : Stored P t t.contents) (hn : t.buckets.length = n)
    (hmem : (a, f) ∈ t.contents.flatten) (hlinked : Linked P t' (t.contents.drop a))
    (hfile : t'.items.field HTableItem.file = t.items.field HTableItem.file)
    (hheld : TableProgram.home P n f.key ∉ held) : Beside held own t t' := by
  refine .of_bucket h hn hlinked (fun i hi => h.drop_frame hmem hi) hheld fun b _ hb => ⟨?_, ?_⟩
  · exact fun hmem => hb (Contents.mem_addrs_drop.mp hmem).2
  · rw [hfile]

theorem Stored.free (h : Stored P t t.contents) (hnot : ¬t.linked a)
    (hfile : t.items.field HTableItem.file a = some f) (hbuckets : t'.buckets = t.buckets)
    (hitems : t'.items = t.items.free a) : Stored P t' t.contents := by
  obtain ⟨item, hread, -⟩ := Heap.field_eq_some hfile
  have hfreed : Stored P { t with items := t.items.free a } t.contents := by
    refine ⟨h.of_items fun e he => Heap.read_free_of_ne _ ?_, h.keys, h.sized, ?_⟩
    · rintro rfl
      exact hnot (List.mem_map_of_mem he)
    · show (t.items.free a).live < wordSize
      have hlive := Heap.live_free hread
      have hroom := h.room
      omega
  exact hfreed.of_same hbuckets hitems

theorem Beside.free (h : Linked P t' t.contents) (hitems : t'.items = t.items.free a)
    (hown : a ∉ own) : Beside held own t t' := by
  refine ⟨fun i _ => by rw [h.contents_eq], fun b hb hnot => ⟨?_, ?_⟩⟩
  · rwa [HTable.linked, h.contents_eq]
  · rw [hitems]
    exact Heap.field_congr (Heap.read_free_of_ne _ fun (hab : a = b) => hown (hab ▸ hb)) _

/-! ## 4. What a step does -/

/-- The step changes nothing that can be seen; what is known may be another thing. -/
theorem moves_same (hs : (sharing P n).inv s) (hbuckets : s'.table.buckets = s.table.buckets)
    (hitems : s'.table.items = s.table.items) {knows : SharedTable → Prop} (hknows : knows s')
    (hstable : (sharing P n).Stable here.held here.own knows)
    (heffect : effects = here.effects ∨ ∃ e, effects = here.effects ++ [e] ∧
      EffectStep (tableMap P s.table) (call, e) (tableMap P s.table)) :
    here.Moves (sharing P n) (tableObject P) call s ⟨here.held, here.own, effects, knows⟩ s' := by
  obtain ⟨hs, hn⟩ := hs
  have hcontents := contents_of_same hbuckets hitems
  have hs' : Stored P s'.table s.table.contents := hs.of_same hbuckets hitems
  have hmap : tableMap P s'.table = tableMap P s.table := by rw [tableMap_eq hs', tableMap_eq hs]
  refine ⟨⟨?_, ?_⟩, rfl, fun held own _ hapart => ?_, hknows, hstable, ?_⟩
  · rwa [hcontents]
  · show s'.table.buckets.length = n
    rw [hbuckets]
    exact hn
  · have hbeside : ∀ own, Beside held own s.table s'.table := fun _ => .of_same hbuckets hitems
    exact ⟨(sharing P n).apart_others hapart (hbeside _) (hbeside _), hbeside own⟩
  · show _ ∧ tableMap P s'.table = tableMap P s.table ∨ _
    rcases heffect with heffects | ⟨e, heffects, hstep⟩
    · exact Or.inl ⟨heffects, hmap⟩
    · refine Or.inr ⟨e, heffects, ?_⟩
      show EffectStep _ _ (tableMap P s'.table)
      rwa [hmap]

/-- The file under the key that is held gets another value. -/
theorem moves_setFile (hs : (sharing P n).inv s) (hmem : (a, f) ∈ s.table.contents.flatten)
    (hheld : TableProgram.home P n f.key ∈ here.held) (hown : here.own = []) (hkey : f'.key = f.key)
    (hsized : f'.Sized) {e : TableEffect} (hstep : EffectStep (tableMap P s.table) (call, e)
      (Function.update (tableMap P s.table) f.key (some f'))) :
    here.Moves (sharing P n) (tableObject P) call s
      (TableStanding.bare here.held (here.effects ++ [e]))
      { s with table := s.table.setFile a f' } := by
  obtain ⟨hs, hn⟩ := hs
  have hs' : Stored P (s.table.setFile a f') (s.table.contents.setFile a f') :=
    hs.setFile hmem f' hkey hsized
  refine ⟨⟨?_, hn⟩, rfl, fun held own hapart' hapart => ?_, trivial, stable_bare,
    Or.inr ⟨e, rfl, ?_⟩⟩
  · show Stored P (s.table.setFile a f') (s.table.setFile a f').contents
    rwa [hs'.contents_eq]
  · rw [hown] at hapart
    have hbeside : Beside held own s.table (s.table.setFile a f') :=
      .setFile hs hn hmem hkey fun hmem => hapart' _ hmem hheld
    exact ⟨⟨hapart.disjoint, nofun, fun b hb => (hbeside.own b hb (hapart.unlinked' b hb)).1⟩, hbeside⟩
  · show EffectStep _ _ (tableMap P (s.table.setFile a f'))
    rw [tableMap_eq hs', hs.fileAt_setFile hmem hkey, ← tableMap_eq hs]
    exact hstep

/-- An item leaves the bucket that is held. -/
theorem moves_unlink (hs : (sharing P n).inv s) (hmem : (a, f) ∈ s.table.contents.flatten)
    (hheld : TableProgram.home P n f.key ∈ here.held) (hown : here.own = [])
    (hunlinked : Linked.Unlinked P s.table s.table.contents a f t')
    (hfile : t'.items.field HTableItem.file = s.table.items.field HTableItem.file)
    {e : TableEffect} (hstep : EffectStep (tableMap P s.table) (call, e)
      (Function.update (tableMap P s.table) f.key none)) :
    here.Moves (sharing P n) (tableObject P) call s
      (TableStanding.owning here.held (here.effects ++ [e]) a f) { s with table := t' } := by
  obtain ⟨hs, hn⟩ := hs
  have hlinked := hunlinked.linked
  have hcontents := hlinked.contents_eq
  have hs' : Stored P t' (s.table.contents.drop a) := by
    refine ⟨hlinked, (hs.keys_drop hmem).2, hs.sized_drop hs.sized hmem, ?_⟩
    rw [hunlinked.live]
    exact hs.room
  have hgone : ¬t'.linked a := by
    rw [HTable.linked, hcontents]
    exact fun hmem => (Contents.mem_addrs_drop.mp hmem).1 rfl
  refine ⟨⟨?_, ?_⟩, rfl, fun held own hapart' hapart => ?_, ⟨hgone, hunlinked.file⟩,
    stable_owning _, Or.inr ⟨e, rfl, ?_⟩⟩
  · show Stored P t' t'.contents
    rwa [hcontents]
  · show t'.buckets.length = n
    rw [← hlinked.length, Contents.drop, List.length_map, hs.length]
    exact hn
  · rw [hown] at hapart
    have hbeside : Beside held own s.table t' :=
      .drop hs hn hmem hlinked hfile fun hmem => hapart' _ hmem hheld
    -- what others have taken out was in no bucket
    have hother : a ∉ own := fun ha => hapart.unlinked' a ha (linked_of_mem hmem)
    refine ⟨⟨?_, ?_, fun b hb => (hbeside.own b hb (hapart.unlinked' b hb)).1⟩, hbeside⟩
    · exact List.singleton_disjoint.mpr hother
    · exact List.forall_mem_singleton.mpr hgone
  · show EffectStep _ _ (tableMap P t')
    rw [tableMap_eq hs', hs.fileAt_drop hmem, ← tableMap_eq hs]
    exact hstep

/-- The item that was taken out is freed. -/
theorem moves_free (hs : (sharing P n).inv s)
    (hknows : ¬s.table.linked a ∧ s.table.items.field HTableItem.file a = some f)
    (hbuckets : t'.buckets = s.table.buckets) (hitems : t'.items = s.table.items.free a) :
    (TableStanding.owning held effects a f).Moves (sharing P n) (tableObject P) call s
      (TableStanding.bare held effects) { s with table := t' } := by
  obtain ⟨hs, hn⟩ := hs
  have hs' : Stored P t' s.table.contents := hs.free hknows.1 hknows.2 hbuckets hitems
  refine ⟨⟨?_, ?_⟩, rfl, fun held own _ hapart => ?_, trivial, stable_bare, Or.inl ⟨rfl, ?_⟩⟩
  · show Stored P t' t'.contents
    rwa [hs'.contents_eq]
  · show t'.buckets.length = n
    rw [hbuckets]
    exact hn
  · have hother : a ∉ own := List.singleton_disjoint.mp hapart.disjoint
    have hbeside : Beside held own s.table t' := .free hs'.toLinked hitems hother
    exact ⟨⟨List.disjoint_nil_left _, nofun,
      fun b hb => (hbeside.own b hb (hapart.unlinked' b hb)).1⟩, hbeside⟩
  · show tableMap P t' = tableMap P s.table
    rw [tableMap_eq hs', tableMap_eq hs]

end FileStorage.Server
