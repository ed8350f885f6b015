import FileStorage.Server.OpenCount

/-!
# Commutation — operations on different keys in either order

Two requests on different paths may reach different workers, and nothing orders these.  As long as
nothing is evicted an operation reads and writes the file under its own key only, also where the
keys share a bucket and relink each other's items.
-/

namespace FileStorage.Server

open Memory

/-! ## 1. One operation that evicts nothing -/

/-- What the operation answers when it finds `found`, and what is under its key afterwards. -/
def Op.answer (op : Op) (found : Option File) : Option (Outcome × Option File) :=
  match op.verdict found with
  | .refuse code => some (⟨code, -1, []⟩, found)
  | .abort => none
  | .put code newOwner file => some (⟨code, newOwner, []⟩, some file)
  | .drop => some (⟨.ok, -1, []⟩, none)

/-- By how much it changes `open_count`. -/
def Op.openDelta (op : Op) (found : Option File) : Int := op.increments found - op.closes found

theorem MapStep.eq_update {m m' : FileMap} {op : Op} {out : Outcome} (h : MapStep m op out m')
    (hev : out.evicted = []) :
    ∃ file, op.answer (m op.key) = some (out, file) ∧ m' = Function.update m op.key file := by
  cases h with
  | refuse h => exact ⟨m op.key, by simp [Op.answer, h], (Function.update_eq_self _ _).symm⟩
  | put h hevicts hquiet =>
    rename_i code newOwner f evicted
    obtain rfl : evicted = [] := hev
    cases hevicts
    exact ⟨some f, by simp [Op.answer, h], rfl⟩
  | drop h => exact ⟨none, by simp [Op.answer, h], rfl⟩

/-! ## 2. The counters go by the map -/

namespace Stored

variable {P : Platform} {t t' : HTable} {L L' : Contents}

theorem files_nodup (h : Stored P t L) : (L.flatten.map Prod.snd).Nodup := by
  have hkeys : ((L.flatten.map Prod.snd).map File.key).Nodup := by
    rw [List.map_map]
    exact h.keys
  exact hkeys.of_map File.key

theorem mem_files_iff (h : Stored P t L) {f : File} :
    f ∈ L.flatten.map Prod.snd ↔ fileAt L f.key = some f := by
  rw [h.fileAt_iff, List.mem_map]
  constructor
  · rintro ⟨⟨a, g⟩, hmem, rfl⟩
    exact ⟨a, hmem, rfl⟩
  · rintro ⟨a, hmem, -⟩
    exact ⟨(a, f), hmem, rfl⟩

/-- Two tables with the same map hold the same files. -/
theorem files_perm (h : Stored P t L) (h' : Stored P t' L') (hmap : fileAt L = fileAt L') :
    (L.flatten.map Prod.snd).Perm (L'.flatten.map Prod.snd) := by
  refine (List.perm_ext_iff_of_nodup h.files_nodup h'.files_nodup).mpr fun f => ?_
  rw [h.mem_files_iff, h'.mem_files_iff, hmap]

theorem length_eq (h : Stored P t L) (h' : Stored P t' L') (hmap : fileAt L = fileAt L') :
    L.flatten.length = L'.flatten.length := by
  have hlength := (h.files_perm h' hmap).length_eq
  rwa [List.length_map, List.length_map] at hlength

theorem bytes_eq (h : Stored P t L) (h' : Stored P t' L') (hmap : fileAt L = fileAt L') :
    bytesOf L.flatten = bytesOf L'.flatten := by
  have hsum := ((h.files_perm h' hmap).map File.lengthInBytes).sum_nat
  rwa [List.map_map, List.map_map] at hsum

end Stored

/-! ## 3. Two operations -/

/-- `first` and then `second` return, and neither evicts a file. -/
def RunQuietly (P : Platform) (t : HTable) (first second : Op) (out₁ out₂ : Outcome)
    (t' : HTable) : Prop :=
  ∃ t₁ rands₁ rands₂, first.exec P t rands₁ = .ok (out₁, t₁) ∧
    second.exec P t₁ rands₂ = .ok (out₂, t') ∧ out₁.evicted = [] ∧ out₂.evicted = []

/-- Nothing that a later operation reads tells the two tables apart. -/
structure SameStore (P : Platform) (t t' : HTable) : Prop where
  files : ∀ key, htableFetchFile P t' key = htableFetchFile P t key
  items : t'.stats.itemsCount = t.stats.itemsCount
  opened : t'.stats.openCount = t.stats.openCount
  space : t'.stats.totalSpaceInBytes = t.stats.totalSpaceInBytes

/-- What two operations on different keys do, each by what it found in the beginning. -/
structure BothDone (P : Platform) (L : Contents) (first second : Op) (out₁ out₂ : Outcome)
    (t' : HTable) (k : Int) (L' : Contents) (file₁ file₂ : Option File) : Prop where
  stored : Stored P t' L'
  counted : Counted False t'.stats L'.flatten
  opened : t'.stats.OpenTally
    (k + first.openDelta (fileAt L first.key) + second.openDelta (fileAt L second.key))
  answer₁ : first.answer (fileAt L first.key) = some (out₁, file₁)
  answer₂ : second.answer (fileAt L second.key) = some (out₂, file₂)
  map : fileAt L' =
    Function.update (Function.update (fileAt L) first.key file₁) second.key file₂

section

variable {P : Platform} {t t' : HTable} {L L' : Contents} {op first second : Op}
  {out out₁ out₂ : Outcome} {k : Int}

theorem Effect.openTally_quiet (h : Effect P t L op out t' L') (hev : out.evicted = [])
    (ho : t.stats.OpenTally k) : t'.stats.OpenTally (k + op.openDelta (fileAt L op.key)) := by
  have htally := h.openTally ho
  rw [Op.decrements, hev, List.countP_nil, Nat.add_zero] at htally
  rwa [Op.openDelta, ← Int.add_sub_assoc]

theorem RunQuietly.bothDone (h : RunQuietly P t first second out₁ out₂ t')
    (hkeys : first.key ≠ second.key) (hs : Stored P t L) (hc : Counted False t.stats L.flatten)
    (ho : t.stats.OpenTally k) :
    ∃ L' file₁ file₂, BothDone P L first second out₁ out₂ t' k L' file₁ file₂ := by
  obtain ⟨t₁, rands₁, rands₂, hfirst, hsecond, hev₁, hev₂⟩ := h
  obtain ⟨L₁, heffect₁⟩ := effect_of_exec hs hfirst
  have hs₁ := heffect₁.stored hs
  have hc₁ := heffect₁.counted hs hc fun hfalse => hfalse.elim
  have ho₁ := heffect₁.openTally_quiet hev₁ ho
  obtain ⟨L₂, heffect₂⟩ := effect_of_exec hs₁ hsecond
  have ho₂ := heffect₂.openTally_quiet hev₂ ho₁
  obtain ⟨file₁, hanswer₁, hmap₁⟩ := (heffect₁.mapStep hs).eq_update hev₁
  obtain ⟨file₂, hanswer₂, hmap₂⟩ := (heffect₂.mapStep hs₁).eq_update hev₂
  -- the second operation finds what was there before the first one
  have hfound : fileAt L₁ second.key = fileAt L second.key := by
    rw [hmap₁, Function.update_of_ne (Ne.symm hkeys)]
  rw [hfound] at hanswer₂ ho₂
  rw [hmap₁] at hmap₂
  exact ⟨L₂, file₁, file₂, heffect₂.stored hs₁,
    heffect₂.counted hs₁ hc₁ fun hfalse => hfalse.elim, ho₂, hanswer₁, hanswer₂, hmap₂⟩

/-- Stated for two orders that start in one table. -/
theorem BothDone.sameStore {file₁ file₂ file₁' file₂' : Option File} {out₁' out₂' : Outcome}
    {t₁₂ t₂₁ : HTable} {L₁₂ L₂₁ : Contents} (hkeys : first.key ≠ second.key)
    (h : BothDone P L first second out₁ out₂ t₁₂ k L₁₂ file₁ file₂)
    (h' : BothDone P L second first out₂' out₁' t₂₁ k L₂₁ file₂' file₁') :
    out₁' = out₁ ∧ out₂' = out₂ ∧ SameStore P t₁₂ t₂₁ := by
  obtain ⟨rfl, rfl⟩ : out₁' = out₁ ∧ file₁' = file₁ := by
    simpa [h.answer₁, eq_comm] using h'.answer₂
  obtain ⟨rfl, rfl⟩ : out₂' = out₂ ∧ file₂' = file₂ := by
    simpa [h.answer₂, eq_comm] using h'.answer₁
  have hmap : fileAt L₂₁ = fileAt L₁₂ := by
    rw [h'.map, h.map, Function.update_comm hkeys]
  refine ⟨rfl, rfl, ?_, ?_, ?_, ?_⟩
  · intro key
    rw [h'.stored.fetchFile, h.stored.fetchFile, hmap]
  · rw [h'.counted.items, h.counted.items, h'.stored.length_eq h.stored hmap]
  · have hopen := h.opened
    have hopen' := h'.opened
    rw [HTableStats.OpenTally] at hopen hopen'
    rw [← Int.ofNat_inj, hopen', hopen, Int.add_right_comm]
  · rw [h'.counted.space, h.counted.space, h'.stored.bytes_eq h.stored hmap]

end

def quietTest (P : Platform) (t : HTable) (first second : Op) : Bool :=
  (first.exec P t []).any fun r =>
    (second.exec P r.2 []).any fun r' => decide (r.1.evicted = [] ∧ r'.1.evicted = [])

theorem RunQuietly.of_test {P : Platform} {t : HTable} {first second : Op}
    (hx : quietTest P t first second = true) :
    ∃ out₁ out₂ t', RunQuietly P t first second out₁ out₂ t' := by
  obtain ⟨r, hfirst, hx⟩ := Exec.any_eq_true.mp hx
  obtain ⟨r', hsecond, hx⟩ := Exec.any_eq_true.mp hx
  exact ⟨r.1, r'.1, r'.2, r.2, [], [], hfirst, hsecond, of_decide_eq_true hx⟩

theorem openTally_create {buckets : Nat} {config : Config} {t : HTable}
    (hx : htableCreate buckets config = .ok t) : t.stats.OpenTally 0 := by
  unfold htableCreate at hx
  split at hx
  · obtain rfl := Except.ok.inj hx
    rfl
  · cases hx

/-- `open_count` may be off in a run, but it stays some number modulo 2^64. -/
theorem SequentialRun.openTally {P : Platform} {buckets : Nat} {config : Config}
    {tr : List (HTable × Call)} {t : HTable} (run : SequentialRun P buckets config tr t) :
    ∃ k, t.stats.OpenTally k := by
  obtain ⟨t₀, hcreate, steps⟩ := run
  have hinv := steps.invariant (fun s => ∃ L k, Stored P s L ∧ s.stats.OpenTally k)
    (fun _ _ => True) ⟨_, 0, stored_create hcreate, openTally_create hcreate⟩ ?_ fun _ _ => trivial
  · obtain ⟨L, k, -, ho⟩ := hinv
    exact ⟨k, ho⟩
  · rintro s c s' ⟨L, k, hs, ho⟩ - ⟨out, hexec⟩
    obtain ⟨L', heffect⟩ := effect_of_exec hs hexec
    exact ⟨L', _, heffect.stored hs, heffect.openTally ho⟩

/-- Two operations on different keys that evict nothing in either order give the same answers, the
same map and the same counters in both. -/
theorem operations_commute {P : Platform} {buckets : Nat} {config : Config}
    {tr : List (HTable × Call)} {t : HTable} (run : SequentialRun P buckets config tr t)
    {op₁ op₂ : Op} (hkeys : op₁.key ≠ op₂.key) {out₁ out₂ out₁' out₂' : Outcome}
    {t₁₂ t₂₁ : HTable} (h : RunQuietly P t op₁ op₂ out₁ out₂ t₁₂)
    (h' : RunQuietly P t op₂ op₁ out₂' out₁' t₂₁) :
    out₁' = out₁ ∧ out₂' = out₂ ∧ SameStore P t₁₂ t₂₁ := by
  obtain ⟨L, hs, hc⟩ := run.counted False fun hfalse => hfalse.elim
  obtain ⟨k, ho⟩ := run.openTally
  obtain ⟨L₁₂, file₁, file₂, hdone⟩ := h.bothDone hkeys hs hc ho
  obtain ⟨L₂₁, file₂', file₁', hdone'⟩ := h'.bothDone (Ne.symm hkeys) hs hc ho
  exact hdone.sameStore hkeys hdone'

/-- Both orders of a removal and a creation in one bucket; the new item is linked in front of the one
that is removed, or comes after it. -/
theorem operations_commute_in_one_bucket :
    ∃ tr t out₁ out₂ t₁₂ t₂₁, SequentialRun samplePlatform 1 ⟨2, 10, .segmentedFifo⟩ tr t ∧
      RunQuietly samplePlatform t (.remove (bufToStr [97]) 3) (.create (bufToStr [98]) 4 true)
        out₁ out₂ t₁₂ ∧
      RunQuietly samplePlatform t (.create (bufToStr [98]) 4 true) (.remove (bufToStr [97]) 3)
        out₂ out₁ t₂₁ ∧
      SameStore samplePlatform t₁₂ t₂₁ := by
  obtain ⟨tr, t, run, htest⟩ := SequentialRun.of_run_test samplePlatform 1 ⟨2, 10, .segmentedFifo⟩
    [⟨.create (bufToStr [97]) 3 false, []⟩]
    (fun _ t => quietTest samplePlatform t (.remove (bufToStr [97]) 3)
        (.create (bufToStr [98]) 4 true) &&
      quietTest samplePlatform t (.create (bufToStr [98]) 4 true) (.remove (bufToStr [97]) 3))
    (by decide +kernel)
  rw [Bool.and_eq_true] at htest
  obtain ⟨out₁, out₂, t₁₂, hquiet⟩ := RunQuietly.of_test htest.1
  obtain ⟨out₂', out₁', t₂₁, hquiet'⟩ := RunQuietly.of_test htest.2
  obtain ⟨rfl, rfl, hsame⟩ := operations_commute run (by decide) hquiet hquiet'
  exact ⟨tr, t, _, _, t₁₂, t₂₁, run, hquiet, hquiet', hsame⟩

end FileStorage.Server
