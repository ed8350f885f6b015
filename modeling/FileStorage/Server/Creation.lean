import FileStorage.Server.Counters

/-!
# Creation — the age of the stored files

A file is as old as the call that created it.  A key can be created again after its file was
removed or evicted, and the new file starts anew.
-/

namespace FileStorage.Server

open Memory

/-! ## 1. Creation times -/

/-- The call puts a new file under `key`. -/
def creates (P : Platform) (key : CStr) (x : HTable × Call) : Bool :=
  match x.2.op with
  | .create created _ _ => decide (created = key) && (htableFetchFile P x.1 key).any Option.isNone
  | _ => false

/-- How many calls the run had made when it last created a file under `key`. -/
def createdAt (P : Platform) (tr : List (HTable × Call)) (key : CStr) : Nat :=
  (tr.reverse.dropWhile fun x => !creates P key x).length

theorem Op.ne_create_of_touches {op : Op} (hop : op.touches) (key : CStr) (fd : Int)
    (withLock : Bool) : op ≠ .create key fd withLock := by
  rintro rfl
  cases hop

theorem Op.ne_create_of_writes {op : Op} (hop : op.writes) (key : CStr) (fd : Int)
    (withLock : Bool) : op ≠ .create key fd withLock := by
  rintro rfl
  cases hop

section

variable {P : Platform} {t : HTable} {L : Contents} {tr : List (HTable × Call)} {c : Call}

theorem createdAt_le (P : Platform) (tr : List (HTable × Call)) (key : CStr) :
    createdAt P tr key ≤ tr.length := by
  have hle : (tr.reverse.dropWhile fun x => !creates P key x).length ≤ tr.reverse.length :=
    (List.dropWhile_suffix _).length_le
  rwa [List.length_reverse] at hle

theorem createdAt_snoc (P : Platform) (tr : List (HTable × Call)) (x : HTable × Call) (key : CStr) :
    createdAt P (tr ++ [x]) key = if creates P key x then tr.length + 1 else createdAt P tr key := by
  rw [createdAt, List.reverse_append, List.reverse_singleton, List.singleton_append,
    List.dropWhile_cons]
  cases creates P key x with
  | true => simp
  | false => rfl

theorem creates_iff (hs : Stored P t L) {key : CStr} :
    creates P key (t, c) = true ↔
      (∃ fd withLock, c.op = .create key fd withLock) ∧ fileAt L key = none := by
  obtain ⟨op, rands⟩ := c
  cases op with
  | create created fd withLock =>
    simp only [creates, hs.fetchFile, Exec.any, Bool.and_eq_true, decide_eq_true_eq,
      Option.isNone_iff_eq_none, Op.create.injEq]
    constructor
    · rintro ⟨rfl, hnone⟩
      exact ⟨⟨fd, withLock, rfl, rfl, rfl⟩, hnone⟩
    · rintro ⟨⟨-, -, rfl, -⟩, hnone⟩
      exact ⟨rfl, hnone⟩
  | «open» | close | lock | unlock | remove | replace | append => simp [creates]

theorem creates_of_not_create (hop : ∀ key fd withLock, c.op ≠ .create key fd withLock)
    (key : CStr) : creates P key (t, c) = false := by
  obtain ⟨op, rands⟩ := c
  cases op with
  | create created fd withLock => exact absurd rfl (hop created fd withLock)
  | «open» | close | lock | unlock | remove | replace | append => rfl

/-- A refused creation found the file. -/
theorem creates_of_refuse (hs : Stored P t L) {code : HTableError}
    (hverdict : c.op.verdict (fileAt L c.op.key) = .refuse code) (key : CStr) :
    creates P key (t, c) = false := by
  rw [Bool.eq_false_iff, Ne, creates_iff hs]
  rintro ⟨⟨fd, withLock, hop⟩, hnone⟩
  rw [hop] at hverdict
  simp only [Op.key, hnone, Op.verdict] at hverdict
  cases hverdict

theorem creates_of_absent (hs : Stored P t L) {key : CStr} (habsent : fileAt L key = none)
    {fd : Int} {withLock : Bool} (rands : List Nat) (key' : CStr) :
    creates P key' (t, ⟨.create key fd withLock, rands⟩) = decide (key' = key) := by
  rw [Bool.eq_iff_iff, creates_iff hs, decide_eq_true_eq]
  constructor
  · rintro ⟨⟨fd', withLock', hop⟩, -⟩
    cases hop
    rfl
  · rintro rfl
    exact ⟨⟨fd, withLock, rfl⟩, habsent⟩

theorem createdAt_of_not_creates (hnot : ∀ key, creates P key (t, c) = false) :
    createdAt P (tr ++ [(t, c)]) = createdAt P tr := by
  funext key
  rw [createdAt_snoc, hnot key]
  rfl

/-- Only a creation changes an age. -/
theorem createdAt_of_not_create (hop : ∀ key fd withLock, c.op ≠ .create key fd withLock) :
    createdAt P (tr ++ [(t, c)]) = createdAt P tr :=
  createdAt_of_not_creates (creates_of_not_create hop)

end

/-! ## 2. Every bucket has its youngest file at the head -/

def YoungestFirst (age : CStr → Nat) (L : Contents) : Prop :=
  ∀ l ∈ L, l.Pairwise fun e e' => age e'.2.key < age e.2.key

namespace YoungestFirst

variable {P : Platform} {t t' : HTable} {L L' : Contents} {age age' : CStr → Nat} {a : Addr}
  {f f' : File}

theorem congr (h : YoungestFirst age L) (hage : ∀ e ∈ L.flatten, age' e.2.key = age e.2.key) :
    YoungestFirst age' L := by
  intro l hl
  refine (h l hl).imp_of_mem fun {e e'} he he' hlt => ?_
  rw [hage e (List.mem_flatten.mpr ⟨l, hl, he⟩), hage e' (List.mem_flatten.mpr ⟨l, hl, he'⟩)]
  exact hlt

theorem drop (h : YoungestFirst age L) (a : Addr) : YoungestFirst age (L.drop a) := by
  intro l' hl'
  obtain ⟨l, hl, rfl⟩ := List.mem_map.mp hl'
  exact (h l hl).filter _

theorem setFile (h : YoungestFirst age L) (hlinked : Linked P t L) (hmem : (a, f) ∈ L.flatten)
    (hkey : f'.key = f.key) : YoungestFirst age (L.setFile a f') := by
  intro l' hl'
  obtain ⟨l, hl, rfl⟩ := List.mem_map.mp hl'
  -- every entry keeps its key
  have hkeys : ∀ e ∈ l, (setEntry a f' e).2.key = e.2.key := by
    intro e he
    unfold setEntry
    split
    · rename_i haddr
      have heq := hlinked.eq_of_addr (List.mem_flatten.mpr ⟨l, hl, he⟩) hmem haddr
      rw [heq]
      exact hkey
    · rfl
  refine List.pairwise_map.mpr ((h l hl).imp_of_mem fun {e e'} he he' hlt => ?_)
  rw [hkeys e he, hkeys e' he']
  exact hlt

/-- A new file goes to the head of its bucket. -/
theorem push (h : YoungestFirst age L) {i : Nat} {l : List Entry} (hl : L[i]? = some l) {e : Entry}
    (hnew : ∀ e' ∈ L.flatten, age e'.2.key < age e.2.key) : YoungestFirst age (L.push i e) := by
  rw [Linked.push_eq_set hl]
  have hmem := List.mem_of_getElem? hl
  intro l' hl'
  rcases List.mem_or_eq_of_mem_set hl' with hold | rfl
  · exact h l' hold
  · exact List.pairwise_cons.mpr
      ⟨fun e' he' => hnew e' (List.mem_flatten.mpr ⟨l, hmem, he'⟩), h l hmem⟩

theorem evictions {evicted : List File} (hev : Evictions P t L evicted t' L')
    (h : YoungestFirst age L) : YoungestFirst age L' := by
  induction hev with
  | done hlimits => exact h
  | round hlimits hev rest ih => exact ih (h.drop _)

/-- The ages after the call go with the contents after the call. -/
theorem effect {tr : List (HTable × Call)} {c : Call} {out : Outcome}
    (heffect : Effect P t L c.op out t' L') (hs : Stored P t L)
    (h : YoungestFirst (createdAt P tr) L) :
    YoungestFirst (createdAt P (tr ++ [(t, c)])) L' := by
  obtain ⟨op, rands⟩ := c
  cases heffect with
  | refused hverdict =>
    rw [createdAt_of_not_creates (creates_of_refuse hs hverdict)]
    exact h
  | touched hop hlook hverdict =>
    rw [createdAt_of_not_create (Op.ne_create_of_touches hop)]
    exact h.setFile hs.toLinked (mem_of_lookup hlook) (Op.verdict_some_key hverdict)
  | created hlook hlinked hsame hlive hroom hstats =>
    rename_i key fd withLock t₁
    obtain ⟨l, hl⟩ := hs.home_bucket key
    have habsent := fileAt_of_lookup_none hlook
    have hnot : ∀ e ∈ L.flatten, createdAt P (tr ++ [(t, ⟨.create key fd withLock, rands⟩)]) e.2.key =
        createdAt P tr e.2.key := by
      intro e he
      have hne : e.2.key ≠ key := by
        intro hkey
        rw [← hkey, hs.fileAt_mem he] at habsent
        cases habsent
      rw [createdAt_snoc, creates_of_absent hs habsent, decide_eq_false hne]
      rfl
    have hnew : createdAt P (tr ++ [(t, ⟨.create key fd withLock, rands⟩)]) key = tr.length + 1 := by
      rw [createdAt_snoc, creates_of_absent hs habsent, decide_eq_true rfl, if_pos rfl]
    refine (h.congr hnot).push hl fun e he => ?_
    show createdAt P _ e.2.key < createdAt P _ key
    rw [hnot e he, hnew]
    exact Nat.lt_succ_of_le (createdAt_le P tr _)
  | removed hlook hallowed hremoved =>
    rw [createdAt_of_not_create]
    · exact h.drop _
    · rintro key fd withLock hop
      cases hop
  | wrote hop hlook hverdict hsize hev =>
    rw [createdAt_of_not_create (Op.ne_create_of_writes hop)]
    exact evictions hev
      (h.setFile hs.toLinked (mem_of_lookup hlook) (Op.verdict_some_key hverdict))

end YoungestFirst

/-- Over a run the contents stay in step with the ages. -/
theorem SequentialRun.youngestFirst {P : Platform} {buckets : Nat} {config : Config}
    {tr : List (HTable × Call)} {t : HTable} (run : SequentialRun P buckets config tr t) :
    ∃ L, Stored P t L ∧ Counted False t.stats L.flatten ∧ YoungestFirst (createdAt P tr) L := by
  obtain ⟨t₀, hcreate, steps⟩ := run
  induction steps with
  | nil =>
    refine ⟨_, stored_create hcreate, counted_create False hcreate, fun l hl => ?_⟩
    rw [List.eq_of_mem_replicate hl]
    exact List.Pairwise.nil
  | snoc run next ih =>
    obtain ⟨L, hs, hc, hy⟩ := ih
    obtain ⟨out, hexec⟩ := next
    obtain ⟨L', heffect⟩ := effect_of_exec hs hexec
    exact ⟨L', heffect.stored hs, heffect.counted hs hc fun hfalse => hfalse.elim,
      .effect heffect hs hy⟩

end FileStorage.Server
