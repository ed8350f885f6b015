import FileStorage.Server.StoreMap

/-!
# Reallocation — when a write ends the server

Both writes resize the block behind `contents` with `xrealloc`, which takes every `NULL` for an
allocation failure.  `realloc` of a block to size 0 frees it and returns `NULL`.  The evictions behind
a write resize an array of their own; this module is about the sections before them.
-/

namespace FileStorage.Server

/-- Memory is available: `realloc` fails only where it frees the block instead. -/
def ReallocFreesEmpty (P : Platform) : Prop :=
  ∀ isNull size, P.grants isNull size = (isNull || decide (0 < size))

/-- The `size_in_bytes` that a write is called with. -/
def Op.sizeInBytes : Op → Nat
  | .replace _ contents | .append _ contents => contents.length
  | _ => 0

/-- The size that a write of the file asks `xrealloc` for. -/
def Op.requestedSize (f : File) : Op → Option Nat
  | .replace _ contents => some contents.length
  | .append _ contents => some (wadd f.lengthInBytes contents.length)
  | _ => none

/-- The table has a file under the key. -/
def Holds (P : Platform) (key : CStr) (t : HTable) : Prop :=
  ∃ f, htableFetchFile P t key = .ok (some f)

/-- The calls `tr` that led to `t` wrote the file of the key, and it has been there ever since. -/
inductive WrittenSince (P : Platform) (key : CStr) : List (HTable × Call) → HTable → Prop
  | wrote {tr : List (HTable × Call)} {s t : HTable} {c : Call} (hop : c.op.writes)
      (hkey : c.op.key = key) (hbefore : Holds P key s) (hafter : Holds P key t) :
      WrittenSince P key (tr ++ [(s, c)]) t
  | kept {tr : List (HTable × Call)} {s t : HTable} {c : Call} (h : WrittenSince P key tr s)
      (hafter : Holds P key t) : WrittenSince P key (tr ++ [(s, c)]) t

namespace WrittenSince

variable {P : Platform} {key : CStr} {tr : List (HTable × Call)} {s t : HTable} {c : Call}

theorem holds (h : WrittenSince P key tr t) : Holds P key t := by
  cases h with
  | wrote _ _ _ hafter => exact hafter
  | kept _ hafter => exact hafter

theorem snoc_iff (hafter : Holds P key t) :
    WrittenSince P key (tr ++ [(s, c)]) t ↔
      (c.op.writes ∧ c.op.key = key ∧ Holds P key s) ∨ WrittenSince P key tr s := by
  constructor
  · intro h
    generalize hsnoc : tr ++ [(s, c)] = tr' at h
    cases h with
    | wrote hop hkey hbefore _ =>
      obtain ⟨-, hlast⟩ := List.append_inj' hsnoc rfl
      cases hlast
      exact Or.inl ⟨hop, hkey, hbefore⟩
    | kept h _ =>
      obtain ⟨rfl, hlast⟩ := List.append_inj' hsnoc rfl
      cases hlast
      exact Or.inr h
  · rintro (⟨hop, hkey, hbefore⟩ | h)
    · exact .wrote hop hkey hbefore hafter
    · exact .kept h hafter

end WrittenSince

/-! ## 1. The block of a file -/

/-- What a verdict leaves in `contents`: a write allocates a block, nothing else touches it. -/
theorem Op.verdict_put_block {op : Op} {o : Option File} {code : HTableError} {newOwner : Int}
    {g : File} (h : op.verdict o = .put code newOwner g) :
    g.contents.isSome ↔ (op.writes ∧ o.isSome) ∨ ∃ f, o = some f ∧ f.contents.isSome := by
  cases o with
  | none =>
    cases op with
    | create key fd withLock =>
      cases h
      simp [newFile, Op.writes]
    | «open» | close | lock | unlock | remove | replace | append => cases h
  | some f =>
    cases op with
    | create => cases h
    | remove key fd =>
      simp only [Op.verdict] at h
      split at h <;> cases h
    | «open» | close | lock | unlock =>
      rw [(Op.verdict_put_contents rfl h).1]
      simp [Op.writes]
    | replace | append =>
      cases h
      simp [File.withBytes, Op.writes]

/-- After an operation a file has a block when this operation wrote it or it had one before. -/
theorem MapStep.block_iff {m m' : FileMap} {op : Op} {out : Outcome} (h : MapStep m op out m')
    {key : CStr} {g : File} (hg : m' key = some g) :
    g.contents.isSome ↔
      (op.writes ∧ op.key = key ∧ (m key).isSome) ∨ ∃ f, m key = some f ∧ f.contents.isSome := by
  have hstays : key ∉ out.evicted.map File.key := by
    intro hmem
    obtain ⟨f, hf, rfl⟩ := List.mem_map.mp hmem
    rw [h.evicted_absent hf] at hg
    cases hg
  by_cases hkey : key = op.key
  · subst hkey
    rcases h.own_key hstays with ⟨code, hrefuse, hsame⟩ | ⟨code, newOwner, f, hput, hf⟩ | ⟨-, hnone⟩
    · -- a write is refused only when there is no file
      rw [hsame] at hg
      rw [hg] at hrefuse ⊢
      have hquiet : op.writes = false := by
        cases hop : op.writes with
        | false => rfl
        | true =>
          obtain ⟨f', hverdict⟩ := (Op.verdict_of_writes hop).2 g
          rw [hverdict] at hrefuse
          cases hrefuse
      simp [hquiet]
    · rw [hf] at hg
      obtain rfl := Option.some.inj hg
      simpa using Op.verdict_put_block hput
    · rw [hnone] at hg
      cases hg
  · rw [h.frame hkey hstays] at hg
    simp [hg, Ne.symm hkey]

/-- In every sequential run a stored file has a block exactly when it was written. -/
theorem SequentialRun.block_iff {P : Platform} {buckets : Nat} {config : Config}
    {tr : List (HTable × Call)} {t : HTable} (run : SequentialRun P buckets config tr t)
    {key : CStr} {f : File} (hf : htableFetchFile P t key = .ok (some f)) :
    f.contents.isSome ↔ WrittenSince P key tr t := by
  obtain ⟨t₀, hcreate, steps⟩ := run
  induction steps generalizing f with
  | nil =>
    -- nothing is stored yet
    have hs := stored_create (P := P) hcreate
    rw [hs.fetchFile] at hf
    have hempty : fileAt (List.replicate buckets []) key = none := by
      simp [fileAt_eq, fileIn]
    rw [hempty] at hf
    cases hf
  | snoc steps next ih =>
    rename_i tr s t c
    obtain ⟨out, hexec⟩ := next
    obtain ⟨m, m', hm, hm', -, hstep⟩ := SequentialRun.mapStep ⟨t₀, hcreate, steps⟩ hexec
    rw [WrittenSince.snoc_iff ⟨f, hf⟩]
    rw [hm', Except.ok.injEq] at hf
    rw [hstep.block_iff hf]
    have hholds : Holds P key s ↔ (m key).isSome := by
      simp [Holds, hm, Option.isSome_iff_exists]
    rw [hholds]
    refine or_congr Iff.rfl ⟨?_, ?_⟩
    · rintro ⟨g, hg, hblock⟩
      exact (ih (by rw [hm, hg])).mp hblock
    · intro hwritten
      obtain ⟨g, hg⟩ := Option.isSome_iff_exists.mp (hholds.mp hwritten.holds)
      exact ⟨g, hg, (ih (by rw [hm, hg])).mpr hwritten⟩

/-! ## 2. The exit branch -/

theorem xrealloc_exits_iff {P : Platform} (hglibc : ReallocFreesEmpty P)
    {buf : Option (List UInt8)} {size : Nat} (hsize : size < wordSize) :
    xrealloc P buf size = .error .exit ↔ buf.isSome ∧ size = 0 := by
  unfold xrealloc
  rw [hglibc]
  cases buf with
  | none => simp [hsize]
  | some block =>
    by_cases hzero : size = 0
    · simp [hzero]
    · have hpos : 0 < size := Nat.pos_of_ne_zero hzero
      simp [hsize, hpos, hzero]

theorem xrealloc_cases (P : Platform) (buf : Option (List UInt8)) (size : Nat) :
    xrealloc P buf size = .error .exit ∨ ∃ block, xrealloc P buf size = .ok block := by
  unfold xrealloc
  split
  · exact Or.inr ⟨_, rfl⟩
  · exact Or.inl rfl

theorem memcpy_bind_ne_exit {dst : List UInt8} {offset : Nat} {src : List UInt8} {α : Type}
    {rest : List UInt8 → Exec α} (hrest : ∀ block, rest block ≠ .error .exit) :
    (memcpy dst offset src >>= rest) ≠ .error .exit := by
  unfold memcpy
  split
  · exact hrest _
  · simp

/-- `exit` is the exit branch of `xrealloc`: the rest of a write has none. -/
theorem xrealloc_bind_exits_iff {P : Platform} {buf : Option (List UInt8)} {size : Nat}
    {α : Type} {rest : List UInt8 → Exec α} (hrest : ∀ block, rest block ≠ .error .exit) :
    (xrealloc P buf size >>= rest) = .error .exit ↔ xrealloc P buf size = .error .exit := by
  rcases xrealloc_cases P buf size with hexit | ⟨block, hok⟩
  · rw [hexit]
    simp
  · rw [hok, Exec.ok_bind]
    simp [hrest block]

/-- The sections of a write reach the exit branch when the file has a block and is left empty. -/
theorem Stored.exits_iff_block {P : Platform} (hglibc : ReallocFreesEmpty P) {t : HTable}
    {L : Contents} (hs : Stored P t L) (op : Op) (hsize : op.sizeInBytes < wordSize) :
    op.writeSections P t = .error .exit ↔
      ∃ f, htableFetchFile P t op.key = .ok (some f) ∧ f.contents.isSome ∧
        op.requestedSize f = some 0 := by
  have hfile : htableFetchFile P t op.key = .ok (fileAt L op.key) := hs.fetchFile op.key
  rcases hs.fetchItem op.key with ⟨hnone, hfetch⟩ | ⟨a, item, hsome, -, -, hfetch⟩
  · -- nothing to write to
    rw [hfile, fileAt_of_lookup_none hnone]
    cases op with
    | create | «open» | close | lock | unlock | remove => simp [Op.writeSections]
    | replace key contents =>
      simp only [Op.key] at hfetch
      simp [Op.writeSections, replaceSection, hfetch]
    | append key contents =>
      simp only [Op.key] at hfetch
      simp [Op.writeSections, appendSection, hfetch]
  · rw [hfile, fileAt_of_lookup hsome]
    cases op with
    | create | «open» | close | lock | unlock | remove => simp [Op.writeSections, Op.requestedSize]
    | replace key contents =>
      simp only [Op.key] at hfetch
      simp only [Op.writeSections, replaceSection, hfetch, Exec.ok_bind, bind_assoc]
      rw [xrealloc_bind_exits_iff fun block => memcpy_bind_ne_exit fun _ => by simp,
        xrealloc_exits_iff hglibc (show contents.length < wordSize from hsize)]
      simp [Op.requestedSize]
    | append key contents =>
      simp only [Op.key] at hfetch
      simp only [Op.writeSections, appendSection, hfetch, Exec.ok_bind, bind_assoc]
      rw [xrealloc_bind_exits_iff fun block => memcpy_bind_ne_exit fun _ => by simp,
        xrealloc_exits_iff hglibc (wadd_lt _ _)]
      simp [Op.requestedSize]

/-- In every sequential run, with memory available, a further write reaches the exit branch of
`xrealloc` for its file exactly when it leaves a file empty that was written before.  The array of
evicted files, which the eviction loop resizes behind these sections, is not meant. -/
theorem write_exits_iff {P : Platform} (hglibc : ReallocFreesEmpty P) {buckets : Nat}
    {config : Config} {tr : List (HTable × Call)} {t : HTable}
    (run : SequentialRun P buckets config tr t) (op : Op) (hsize : op.sizeInBytes < wordSize) :
    op.writeSections P t = .error .exit ↔
      WrittenSince P op.key tr t ∧
        ∃ f, htableFetchFile P t op.key = .ok (some f) ∧ op.requestedSize f = some 0 := by
  obtain ⟨L, hs⟩ := run.stored
  rw [hs.exits_iff_block hglibc op hsize]
  constructor
  · rintro ⟨f, hf, hblock, hzero⟩
    exact ⟨(run.block_iff hf).mp hblock, f, hf, hzero⟩
  · rintro ⟨hwritten, f, hf, hzero⟩
    exact ⟨f, hf, (run.block_iff hf).mpr hwritten, hzero⟩

theorem samplePlatform_reallocFreesEmpty : ReallocFreesEmpty samplePlatform := fun _ _ => rfl

/-- A file that was written empty, and a second empty write. -/
theorem write_exits_iff_append :
    ∃ tr t, SequentialRun samplePlatform 1 ⟨10, 10, .fifo⟩ tr t ∧ tr.length = 2 ∧
      (Op.append (bufToStr [97]) []).writeSections samplePlatform t = .error .exit ∧
      WrittenSince samplePlatform (bufToStr [97]) tr t := by
  obtain ⟨tr, t, run, htest⟩ := SequentialRun.of_run_test samplePlatform 1 ⟨10, 10, .fifo⟩
    [⟨.create (bufToStr [97]) 3 false, []⟩, ⟨.replace (bufToStr [97]) [], []⟩]
    (fun tr t => decide (tr.length = 2 ∧
      (Op.append (bufToStr [97]) []).writeSections samplePlatform t = .error .exit))
    (by decide +kernel)
  obtain ⟨hlength, hexit⟩ := of_decide_eq_true htest
  have hwritten := (write_exits_iff samplePlatform_reallocFreesEmpty run _ (by decide)).mp hexit
  exact ⟨tr, t, run, hlength, hexit, hwritten.1⟩

/-- A file is written and then made empty. -/
theorem write_exits :
    ¬ ∀ (P : Platform) (buckets : Nat) (config : Config) (tr : List (HTable × Call)) (t : HTable),
      ReallocFreesEmpty P → SequentialRun P buckets config tr t → ∀ op : Op,
        op.sizeInBytes < wordSize → op.writeSections P t ≠ .error .exit := by
  intro hclaim
  obtain ⟨tr, t, run, htest⟩ := SequentialRun.of_run_test samplePlatform 1 ⟨10, 10, .fifo⟩
    [⟨.create (bufToStr [97]) 3 false, []⟩, ⟨.replace (bufToStr [97]) [7], []⟩]
    (fun _ t => decide
      ((Op.replace (bufToStr [97]) []).writeSections samplePlatform t = .error .exit))
    (by decide +kernel)
  exact hclaim _ _ _ _ _ samplePlatform_reallocFreesEmpty run _ (by decide)
    (of_decide_eq_true htest)

end FileStorage.Server
