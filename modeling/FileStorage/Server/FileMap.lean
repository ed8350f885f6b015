import FileStorage.Server.Htable
import Mathlib.Logic.Function.Basic

/-!
# FileMap — what the table is for

Seen from outside, the table is a finite map from paths to files.  An operation looks at the file
under its own key only, and the verdict on that file says what becomes of the map; a write may
then evict files.
-/

namespace FileStorage.Server

abbrev FileMap := CStr → Option File

inductive Verdict where
  | refuse (code : HTableError)                               -- nothing changes
  | abort                                                     -- the server dies
  | put (code : HTableError) (newOwner : Int) (file : File)   -- the file is now under the key
  | drop                                                      -- the key is free again
deriving DecidableEq

def newFile (key : CStr) (fd : Int) (withLock : Bool) : File where
  key
  contents := none
  lengthInBytes := 0
  fdOwner := fd
  isOpen := true
  isLocked := withLock
  subs := []

namespace File

/-- Somebody else holds the lock. -/
def lockedAgainst (f : File) (fd : Int) : Prop := f.isLocked ∧ f.fdOwner ≠ fd

instance (f : File) (fd : Int) : Decidable (f.lockedAgainst fd) := inferInstanceAs (Decidable (_ ∧ _))

def bytes (f : File) : List UInt8 := f.contents.getD []

/-- The length field is the length of the contents. -/
def Sized (f : File) : Prop := f.bytes.length = f.lengthInBytes ∧ f.lengthInBytes < wordSize

def withBytes (f : File) (bytes : List UInt8) : File :=
  { f with contents := some bytes, lengthInBytes := bytes.length }

end File

def Op.verdict : Op → Option File → Verdict
  | .create key fd withLock, none => .put .ok (-1) (newFile key fd withLock)
  | .create _ _ _, some _ => .refuse .alreadyCreated
  | .open _ _ _, none | .close _ _, none | .lock _ _, none | .unlock _ _, none
  | .remove _ _, none | .replace _ _, none | .append _ _, none => .refuse .fileNotFound
  | .open _ fd withLock, some f =>
      if f.isOpen then .refuse .alreadyOpen
      else if f.lockedAgainst fd then .refuse .cantOpen
      else .put .ok (-1) { f with isOpen := true, isLocked := withLock, fdOwner := fd }
  | .close _ fd, some f =>
      if !f.isOpen then .refuse .alreadyClosed
      else if f.lockedAgainst fd then .refuse .cantClose
      else .put .ok (-1) { f with isOpen := false }
  | .lock _ fd, some f =>
      if f.isLocked then .put .okWait (-1) { f with subs := fd :: f.subs }
      else if f.subs ≠ [] then .abort
      else .put .ok (-1) { f with isLocked := true, fdOwner := fd }
  | .unlock _ fd, some f =>
      if !f.isLocked then .refuse .alreadyUnlocked
      else if f.fdOwner ≠ fd then .refuse .okWait
      else
        match f.subs with
        | [] => .put .ok (-1) { f with isLocked := false }
        | sub :: rest => .put .ok sub { f with subs := rest, isLocked := true, fdOwner := sub }
  | .remove _ fd, some f => if f.lockedAgainst fd ∧ fd ≠ -1 then .refuse .ok else .drop
  | .replace _ contents, some f => .put .ok (-1) (f.withBytes contents)
  | .append _ contents, some f => .put .ok (-1) (f.withBytes (f.bytes ++ contents))

/-- The operations that end with the eviction loop. -/
def Op.writes : Op → Bool
  | .replace _ _ | .append _ _ => true
  | _ => false

/-- The files `evicted` leave the map one after the other. -/
inductive Evicts : FileMap → List File → FileMap → Prop
  | nil (m : FileMap) : Evicts m [] m
  | cons {m m' : FileMap} {f : File} {evicted : List File} (hf : m f.key = some f)
      (rest : Evicts (Function.update m f.key none) evicted m') : Evicts m (f :: evicted) m'

/-- One operation on the map. -/
inductive MapStep (m : FileMap) (op : Op) : Outcome → FileMap → Prop
  | refuse {code : HTableError} (h : op.verdict (m op.key) = .refuse code) :
      MapStep m op ⟨code, -1, []⟩ m
  | put {code : HTableError} {newOwner : Int} {f : File} {evicted : List File} {m' : FileMap}
      (h : op.verdict (m op.key) = .put code newOwner f)
      (hev : Evicts (Function.update m op.key (some f)) evicted m')
      (hquiet : op.writes = false → evicted = []) : MapStep m op ⟨code, newOwner, evicted⟩ m'
  | drop (h : op.verdict (m op.key) = .drop) :
      MapStep m op ⟨.ok, -1, []⟩ (Function.update m op.key none)

/-! ## 1. Evictions -/

namespace Evicts

variable {m m' : FileMap} {evicted : List File}

/-- An evicted key is free, every other key keeps its file. -/
theorem apply (h : Evicts m evicted m') (key : CStr) :
    m' key = if key ∈ evicted.map File.key then none else m key := by
  induction h with
  | nil m => simp
  | cons hf rest ih =>
    rename_i m m' f evicted
    rw [ih]
    by_cases hkey : key = f.key
    · simp [hkey]
    · simp [hkey]

/-- The array holds each evicted file as the map held it. -/
theorem mem (h : Evicts m evicted m') {f : File} (hf : f ∈ evicted) : m f.key = some f := by
  induction h with
  | nil m => cases hf
  | cons hg rest ih =>
    rename_i m m' g evicted
    rcases List.mem_cons.mp hf with rfl | hf
    · exact hg
    · have hupd := ih hf
      by_cases hkey : f.key = g.key
      · rw [hkey, Function.update_self] at hupd
        cases hupd
      · rwa [Function.update_of_ne hkey] at hupd

theorem of_not_mem (h : Evicts m evicted m') {key : CStr} (hkey : key ∉ evicted.map File.key) :
    m' key = m key := by
  rw [h.apply, if_neg hkey]

end Evicts

/-! ## 2. Verdicts -/

/-- A write needs a stored file and otherwise always succeeds. -/
theorem Op.verdict_of_writes {op : Op} (hop : op.writes) :
    op.verdict none = .refuse .fileNotFound ∧
      ∀ f, ∃ f', op.verdict (some f) = .put .ok (-1) f' := by
  cases op with
  | create | «open» | close | lock | unlock | remove => simp [Op.writes] at hop
  | replace key contents => exact ⟨rfl, fun f => ⟨_, rfl⟩⟩
  | append key contents => exact ⟨rfl, fun f => ⟨_, rfl⟩⟩

/-! ## 3. Frames -/

namespace MapStep

variable {m m' : FileMap} {op : Op} {out : Outcome}

/-- A key of its own that is not evicted is untouched. -/
theorem frame (h : MapStep m op out m') {key : CStr} (hkey : key ≠ op.key)
    (hev : key ∉ out.evicted.map File.key) : m' key = m key := by
  cases h with
  | refuse h => rfl
  | put h hevicts hquiet =>
    rw [hevicts.of_not_mem hev, Function.update_of_ne hkey]
  | drop h => rw [Function.update_of_ne hkey]

/-- What becomes of the operation's own key, unless it is evicted. -/
theorem own_key (h : MapStep m op out m') (hev : op.key ∉ out.evicted.map File.key) :
    (∃ code, op.verdict (m op.key) = .refuse code ∧ m' op.key = m op.key) ∨
      (∃ code newOwner f, op.verdict (m op.key) = .put code newOwner f ∧ m' op.key = some f) ∨
      op.verdict (m op.key) = .drop ∧ m' op.key = none := by
  cases h with
  | refuse h => exact Or.inl ⟨_, h, rfl⟩
  | put h hevicts hquiet =>
    refine Or.inr (Or.inl ⟨_, _, _, h, ?_⟩)
    rw [hevicts.of_not_mem hev, Function.update_self]
  | drop h => exact Or.inr (Or.inr ⟨h, Function.update_self _ _ _⟩)

/-- A file of the map after the step was there before, or the step put it there. -/
theorem stored_before (h : MapStep m op out m') {key : CStr} {g : File} (hg : m' key = some g) :
    m key = some g ∨
      key = op.key ∧ ∃ code newOwner, op.verdict (m op.key) = .put code newOwner g := by
  cases h with
  | refuse h => exact Or.inl hg
  | put h hevicts hquiet =>
    rw [hevicts.apply] at hg
    split at hg
    · cases hg
    · by_cases hkey : key = op.key
      · subst hkey
        rw [Function.update_self] at hg
        obtain rfl := Option.some.inj hg
        exact Or.inr ⟨rfl, _, _, h⟩
      · rw [Function.update_of_ne hkey] at hg
        exact Or.inl hg
  | drop h =>
    by_cases hkey : key = op.key
    · rw [hkey, Function.update_self] at hg
      cases hg
    · rw [Function.update_of_ne hkey] at hg
      exact Or.inl hg

/-- Only a write evicts. -/
theorem evicted_eq_nil (h : MapStep m op out m') (hop : op.writes = false) : out.evicted = [] := by
  cases h with
  | refuse | drop => rfl
  | put h hevicts hquiet => exact hquiet hop

/-! ## 4. Locks -/

variable {key : CStr} {fd : Int} {f : File}

theorem lock_cases (h : MapStep m (.lock key fd) out m') (hf : m key = some f) :
    (f.isLocked ∧ out.code = .okWait ∧ m' key = some { f with subs := fd :: f.subs }) ∨
      ¬f.isLocked ∧ f.subs = [] ∧ out.code = .ok ∧
        m' key = some { f with isLocked := true, fdOwner := fd } := by
  have hev := h.evicted_eq_nil rfl
  cases h with
  | refuse h =>
    simp only [Op.key, hf, Op.verdict] at h
    split at h
    · cases h
    · split at h <;> cases h
  | put h hevicts hquiet =>
    obtain rfl := hev
    cases hevicts
    simp only [Op.key, hf, Op.verdict] at h
    split at h
    · rename_i hlocked
      cases h
      exact Or.inl ⟨hlocked, rfl, Function.update_self ..⟩
    · rename_i hlocked
      split at h
      · cases h
      · rename_i hsubs
        cases h
        exact Or.inr ⟨hlocked, not_not.mp hsubs, rfl, Function.update_self ..⟩
  | drop h =>
    simp only [Op.key, hf, Op.verdict] at h
    split at h
    · cases h
    · split at h <;> cases h

theorem unlock_cases (h : MapStep m (.unlock key fd) out m') (hf : m key = some f) :
    (¬(f.isLocked ∧ f.fdOwner = fd) ∧ out.code ≠ .ok ∧ m' key = some f) ∨
      (f.isLocked ∧ f.fdOwner = fd) ∧ out.code = .ok ∧
        (f.subs = [] ∧ m' key = some { f with isLocked := false } ∨
          ∃ sub rest, f.subs = sub :: rest ∧ out.newOwner = sub ∧
            m' key = some { f with subs := rest, isLocked := true, fdOwner := sub }) := by
  have hev := h.evicted_eq_nil rfl
  cases h with
  | refuse h =>
    simp only [Op.key, hf, Op.verdict] at h
    split at h
    · rename_i hlocked
      cases h
      exact Or.inl ⟨fun hown => by simp [hown.1] at hlocked, by decide, hf⟩
    · split at h
      · rename_i howner
        cases h
        exact Or.inl ⟨fun hown => howner hown.2, by decide, hf⟩
      · split at h <;> cases h
  | put h hevicts hquiet =>
    obtain rfl := hev
    cases hevicts
    simp only [Op.key, hf, Op.verdict] at h
    split at h
    · cases h
    · rename_i hlocked
      split at h
      · cases h
      · rename_i howner
        have hown : f.isLocked ∧ f.fdOwner = fd := ⟨by simpa using hlocked, not_not.mp howner⟩
        split at h
        · rename_i hsubs
          cases h
          exact Or.inr ⟨hown, rfl, Or.inl ⟨hsubs, Function.update_self ..⟩⟩
        · rename_i sub rest hsubs
          cases h
          exact Or.inr ⟨hown, rfl, Or.inr ⟨_, rest, hsubs, rfl, Function.update_self ..⟩⟩
  | drop h =>
    simp only [Op.key, hf, Op.verdict] at h
    split at h
    · cases h
    · split at h
      · cases h
      · split at h <;> cases h

end MapStep

end FileStorage.Server
