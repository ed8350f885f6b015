import FileStorage.Interference
import FileStorage.Word
import Mathlib.Data.List.Basic

/-!
# WorkerIds — each worker has a queue of its own

A worker begins with a call of `ts_counter` and from then on serves the queue of the number that it
got.  However the workers interleave, no two of them get the same number, and when all have theirs no
queue is left without a worker.
-/

namespace FileStorage.Server

/-! ## 1. The code -/

section

open Program

/-- The mutex is `thread_id_guard`, the state `thread_id_counter`. -/
def tsCounter : Program Unit Nat Nat := do
  mutexLock ()
  let id ← query fun counter => .ok counter
  update fun counter => .ok ((counter + 1) % unsignedSize)
  mutexUnlock ()
  return id

end

variable {ι : Type} {seen : List (Service.Label ι Unit Nat)}

/-- The numbers that the workers got, in their order. -/
def idsOf (seen : List (Service.Label ι Unit Nat)) : List Nat :=
  seen.filterMap fun
    | .done _ _ id => some id
    | .ask _ _ => none

/-- How many workers have begun. -/
def startedIn (seen : List (Service.Label ι Unit Nat)) : Nat :=
  seen.countP fun
    | .ask _ _ => true
    | .done _ _ _ => false

theorem idsOf_append (seen seen' : List (Service.Label ι Unit Nat)) :
    idsOf (seen ++ seen') = idsOf seen ++ idsOf seen' := List.filterMap_append

theorem startedIn_append (seen seen' : List (Service.Label ι Unit Nat)) :
    startedIn (seen ++ seen') = startedIn seen + startedIn seen' := List.countP_append

/-! ## 2. Where a worker stands -/

namespace TsCounter

inductive Stage where
  | idle
  | entering
  | locked
  | read (id : Nat)
  | wrote (id : Nat)
  | leaving (id : Nat)

namespace Stage

/-- What is left of the call. -/
def code : Stage → Option (Unit × Program Unit Nat Nat)
  | .idle => none
  | .entering => some ((), tsCounter)
  | .locked => some ((), .act (fun counter => .ok (counter, counter)) fun id =>
      .act (fun counter => .ok ((), (counter + 1) % unsignedSize)) fun _ => .unlock () (.pure id))
  | .read id => some ((), .act (fun counter => .ok ((), (counter + 1) % unsignedSize)) fun _ =>
      .unlock () (.pure id))
  | .wrote id => some ((), .unlock () (.pure id))
  | .leaving id => some ((), .pure id)

/-- Whether the mutex is held there. -/
def holds : Stage → Bool
  | .locked | .read _ | .wrote _ => true
  | .idle | .entering | .leaving _ => false

/-- The number that was taken from the counter. -/
def id : Stage → Option Nat
  | .wrote id | .leaving id => some id
  | .idle | .entering | .locked | .read _ => none

end Stage

variable [DecidableEq ι] {stage : ι → Stage} {active : List ι} {ids : List Nat} {started given : Nat}
  {i : ι} {x : Stage} {s s' : Service ι Unit Nat Unit Nat}

/-- The numbers that were got and those that are on their way are `0`, …, `given - 1`. -/
structure Tally (stage : ι → Stage) (active : List ι) (ids : List Nat) (started given : Nat) :
    Prop where
  nodup : active.Nodup
  mem : ∀ i, i ∈ active ↔ stage i ≠ .idle
  started : started = ids.length + active.length
  perm : (ids ++ active.filterMap fun i => (stage i).id).Perm (List.range given)

theorem filterMap_update (hi : i ∉ active) (x : Stage) :
    (active.filterMap fun j => (Function.update stage i x j).id) =
      active.filterMap fun j => (stage j).id := by
  refine List.filterMap_congr fun j hj => ?_
  have hne : j ≠ i := fun heq => hi (heq ▸ hj)
  rw [Function.update_of_ne hne]

namespace Tally

omit [DecidableEq ι] in
theorem given_le (h : Tally stage active ids started given) : given ≤ started := by
  have hlength := h.perm.length_eq
  have hle := List.length_filterMap_le (fun i => (stage i).id) active
  rw [List.length_append, List.length_range] at hlength
  rw [h.started]
  omega

/-- The number of worker `i` and those of the others. -/
theorem split (h : Tally stage active ids started given) (hi : stage i ≠ .idle) (x : Stage) :
    (active.filterMap fun j => (Function.update stage i x j).id).Perm
      (x.id.toList ++ (active.erase i).filterMap fun j => (stage j).id) := by
  have hperm := (List.perm_cons_erase ((h.mem i).mpr hi)).filterMap
    fun j => (Function.update stage i x j).id
  rw [List.filterMap_cons, Function.update_self,
    filterMap_update h.nodup.not_mem_erase x] at hperm
  cases hid : x.id with
  | none => simpa [hid] using hperm
  | some id => simpa [hid] using hperm

theorem cut (h : Tally stage active ids started given) (hi : stage i ≠ .idle) :
    (ids ++ ((stage i).id.toList ++ (active.erase i).filterMap fun j => (stage j).id)).Perm
      (List.range given) := by
  have hsplit := h.split hi (stage i)
  rw [Function.update_eq_self] at hsplit
  exact (hsplit.symm.append_left ids).trans h.perm

/-- A worker that is active goes on. -/
theorem move (h : Tally stage active ids started given) (hi : stage i ≠ .idle) (hx : x ≠ .idle)
    {given' : Nat}
    (hperm : (ids ++ (x.id.toList ++ (active.erase i).filterMap fun j => (stage j).id)).Perm
      (List.range given')) :
    Tally (Function.update stage i x) active ids started given' := by
  refine ⟨h.nodup, fun j => ?_, h.started, ((h.split hi x).append_left ids).trans hperm⟩
  by_cases hj : j = i
  · rw [hj, Function.update_self]
    exact iff_of_true ((h.mem i).mpr hi) hx
  · rw [Function.update_of_ne hj]
    exact h.mem j

theorem same (h : Tally stage active ids started given) (hi : stage i ≠ .idle) (hx : x ≠ .idle)
    (hid : x.id = (stage i).id) : Tally (Function.update stage i x) active ids started given :=
  h.move hi hx (hid ▸ h.cut hi)

/-- The next number is taken. -/
theorem take (h : Tally stage active ids started given) (hi : stage i ≠ .idle)
    (hnone : (stage i).id = none) (hx : x ≠ .idle) (hid : x.id = some given) :
    Tally (Function.update stage i x) active ids started (given + 1) := by
  refine h.move hi hx ?_
  have hcut := h.cut hi
  rw [hnone] at hcut
  rw [hid, List.range_succ]
  refine List.Perm.trans ?_ (hcut.append_right [given])
  rw [Option.toList_some, Option.toList_none, List.nil_append, List.singleton_append]
  exact List.perm_middle.trans (List.perm_append_singleton _ _).symm

theorem begin (h : Tally stage active ids started given) (hi : stage i = .idle) (hx : x ≠ .idle)
    (hid : x.id = none) :
    Tally (Function.update stage i x) (i :: active) ids (started + 1) given := by
  have hnot : i ∉ active := fun hmem => (h.mem i).mp hmem hi
  refine ⟨List.nodup_cons.mpr ⟨hnot, h.nodup⟩, fun j => ?_, ?_, ?_⟩
  · by_cases hj : j = i
    · rw [hj, Function.update_self]
      exact iff_of_true List.mem_cons_self hx
    · rw [Function.update_of_ne hj, List.mem_cons, ← h.mem j]
      exact or_iff_right hj
  · rw [h.started, List.length_cons]
    omega
  · rw [List.filterMap_cons, Function.update_self, hid, filterMap_update hnot]
    exact h.perm

theorem finish (h : Tally stage active ids started given) {id : Nat} (hid : (stage i).id = some id) :
    Tally (Function.update stage i .idle) (active.erase i) (ids ++ [id]) started given := by
  have hi : stage i ≠ .idle := by
    intro hidle
    rw [hidle] at hid
    cases hid
  have hmem := (h.mem i).mpr hi
  have hcut := h.cut hi
  refine ⟨h.nodup.erase i, fun j => ?_, ?_, ?_⟩
  · by_cases hj : j = i
    · rw [hj, Function.update_self]
      exact iff_of_false h.nodup.not_mem_erase fun hne => hne rfl
    · rw [Function.update_of_ne hj, List.mem_erase_of_ne hj]
      exact h.mem j
  · have hpos : 0 < active.length := List.length_pos_of_mem hmem
    rw [h.started, List.length_append, List.length_singleton, List.length_erase_of_mem hmem]
    omega
  · rw [filterMap_update h.nodup.not_mem_erase, List.append_assoc]
    rwa [hid] at hcut

end Tally

/-! ## 3. Every order of the steps -/

structure Inv (s : Service ι Unit Nat Unit Nat) (stage : ι → Stage) (active : List ι)
    (ids : List Nat) (started given : Nat) : Prop where
  code : ∀ i, s.code i = (stage i).code
  owner : ∀ i, s.owner () = some i ↔ (stage i).holds = true
  counter : s.shared = given % unsignedSize
  read : ∀ i id, stage i = .read id → id = s.shared
  tally : Tally stage active ids started given

namespace Inv

/-- Worker `i` goes on to `x`, and the others stay where they are. -/
theorem goes (h : Inv s stage active ids started given) {shared : Nat} {owner : Unit → Option ι}
    {active' : List ι} {ids' : List Nat} {started' given' : Nat}
    (howner : ∀ j, owner () = some j ↔ (Function.update stage i x j).holds = true)
    (hcounter : shared = given' % unsignedSize) (hx : ∀ id, x = .read id → id = shared)
    (hread : ∀ j id, j ≠ i → stage j = .read id → id = shared)
    (htally : Tally (Function.update stage i x) active' ids' started' given') :
    Inv ⟨shared, owner, Function.update s.code i x.code⟩ (Function.update stage i x) active' ids'
      started' given' := by
  refine ⟨fun j => ?_, howner, hcounter, fun j id hj => ?_, htally⟩
  · show Function.update s.code i x.code j = _
    by_cases hji : j = i
    · rw [hji, Function.update_self, Function.update_self]
    · rw [Function.update_of_ne hji, Function.update_of_ne hji]
      exact h.code j
  · by_cases hji : j = i
    · rw [hji, Function.update_self] at hj
      exact hx id hj
    · rw [Function.update_of_ne hji] at hj
      exact hread j id hji hj

/-- A step that leaves the mutex and the counter alone. -/
theorem passes (h : Inv s stage active ids started given) {active' : List ι} {ids' : List Nat}
    {started' : Nat} (hholds : x.holds = (stage i).holds) (hx : ∀ id, x = .read id → id = s.shared)
    (htally : Tally (Function.update stage i x) active' ids' started' given) :
    Inv (s.setCode i x.code) (Function.update stage i x) active' ids' started' given := by
  refine h.goes (fun j => ?_) h.counter hx (fun j id _ hj => h.read j id hj) htally
  rw [h.owner j]
  by_cases hj : j = i
  · rw [hj, Function.update_self, hholds]
  · rw [Function.update_of_ne hj]

omit [DecidableEq ι] in
/-- No two workers hold the mutex. -/
theorem alone (h : Inv s stage active ids started given) (hi : (stage i).holds = true) {j : ι}
    (hj : (stage j).holds = true) : j = i :=
  Option.some.inj (((h.owner j).mpr hj).symm.trans ((h.owner i).mpr hi))

theorem asks (h : Inv s stage active ids started given) (hat : stage i = .idle) :
    Inv (s.setCode i (Stage.code .entering)) (Function.update stage i .entering) (i :: active) ids
      (started + 1) given :=
  h.passes (by rw [hat]; rfl) (fun _ hx => by cases hx) (h.tally.begin hat (by simp) rfl)

/-- The mutex is taken. -/
theorem locks (h : Inv s stage active ids started given) (hat : stage i = .entering)
    (hfree : s.owner () = none) :
    Inv ⟨s.shared, Function.update s.owner () (some i),
        Function.update s.code i (Stage.code .locked)⟩
      (Function.update stage i .locked) active ids started given := by
  refine h.goes (fun j => ?_) h.counter (fun _ hx => by cases hx)
    (fun j id _ hj => h.read j id hj) (h.tally.same (by rw [hat]; simp) (by simp) (by rw [hat]; rfl))
  show Function.update s.owner () (some i) () = some j ↔ _
  rw [Function.update_self]
  by_cases hj : j = i
  · rw [hj, Function.update_self]
    exact iff_of_true rfl rfl
  · rw [Function.update_of_ne hj, ← h.owner j, hfree]
    exact iff_of_false (fun heq => hj (Option.some.inj heq).symm) (fun heq => by cases heq)

theorem reads (h : Inv s stage active ids started given) (hat : stage i = .locked) :
    Inv (s.setCode i (Stage.code (.read s.shared))) (Function.update stage i (.read s.shared)) active
      ids started given := by
  have htally : Tally (Function.update stage i (.read s.shared)) active ids started given :=
    h.tally.same (by rw [hat]; simp) (by simp) (by rw [hat]; rfl)
  exact h.passes (by rw [hat]; rfl) (fun _ hx => by cases hx; rfl) htally

/-- The counter goes on, and it has not wrapped before. -/
theorem writes (h : Inv s stage active ids started given) {id : Nat} (hat : stage i = .read id)
    (hfew : started ≤ unsignedSize) :
    Inv ⟨(s.shared + 1) % unsignedSize, s.owner, Function.update s.code i (Stage.code (.wrote id))⟩
      (Function.update stage i (.wrote id)) active ids started (given + 1) := by
  have hi : stage i ≠ .idle := by rw [hat]; simp
  have hholds : (stage i).holds = true := by rw [hat]; rfl
  have hnone : (stage i).id = none := by rw [hat]; rfl
  -- the number is one of fewer than `2 ^ 32`
  have hid : id = given := by
    have hlt := (h.tally.take (x := .wrote given) hi hnone (by simp) rfl).given_le
    rw [h.read i id hat, h.counter]
    exact Nat.mod_eq_of_lt (by omega)
  refine h.goes (fun j => ?_) ?_ (fun _ hx => by cases hx) (fun j id' hji hj => ?_)
    (h.tally.take hi hnone (by simp) (by rw [hid]; rfl))
  · rw [h.owner j]
    by_cases hj : j = i
    · rw [hj, Function.update_self, hat]
      rfl
    · rw [Function.update_of_ne hj]
  · rw [h.counter, Nat.mod_add_mod]
  · -- another worker cannot have read the counter, this one holds the mutex
    exact absurd (h.alone hholds (by rw [hj]; rfl)) hji

/-- The mutex is released. -/
theorem unlocks (h : Inv s stage active ids started given) {id : Nat} (hat : stage i = .wrote id) :
    Inv ⟨s.shared, Function.update s.owner () none,
        Function.update s.code i (Stage.code (.leaving id))⟩
      (Function.update stage i (.leaving id)) active ids started given := by
  have hholds : (stage i).holds = true := by rw [hat]; rfl
  refine h.goes (fun j => ?_) h.counter (fun _ hx => by cases hx)
    (fun j id _ hj => h.read j id hj) (h.tally.same (by rw [hat]; simp) (by simp) (by rw [hat]; rfl))
  show Function.update s.owner () none () = some j ↔ _
  rw [Function.update_self]
  refine iff_of_false (fun heq => by cases heq) fun hj => ?_
  by_cases hji : j = i
  · rw [hji, Function.update_self] at hj
    cases hj
  · rw [Function.update_of_ne hji] at hj
    exact hji (h.alone hholds hj)

theorem leaves (h : Inv s stage active ids started given) {id : Nat} (hat : stage i = .leaving id) :
    Inv (s.setCode i (Stage.code .idle)) (Function.update stage i .idle) (active.erase i)
      (ids ++ [id]) started given :=
  h.passes (by rw [hat]; rfl) (fun _ hx => by cases hx) (h.tally.finish (by rw [hat]; rfl))

/-- Every step of a worker, as long as the counter can count the workers. -/
theorem step (h : Inv s stage active (idsOf seen) (startedIn seen) given)
    {label : Option (Service.Label ι Unit Nat)}
    (hstep : Service.Step (fun _ => tsCounter) s label s') (hfew : startedIn seen ≤ unsignedSize) :
    ∃ stage' active' given', Inv s' stage' active' (idsOf (seen ++ label.toList))
      (startedIn (seen ++ label.toList)) given' := by
  -- the code that a thread has left tells its stage, and each stage has one step
  cases hstep with
  | @ask i call hidle =>
    rw [h.code] at hidle
    rw [idsOf_append, startedIn_append, Option.toList_some,
      show idsOf [Service.Label.ask i call] = [] from rfl, List.append_nil]
    cases hat : stage i with
    | idle => exact ⟨_, _, given, h.asks hat⟩
    | entering | locked | read | wrote | leaving =>
      rw [hat] at hidle
      cases hidle
  | @lock i call g rest hcode hfree =>
    rw [Option.toList_none, List.append_nil]
    rw [h.code] at hcode
    cases hat : stage i with
    | entering =>
      rw [hat] at hcode
      cases hcode
      exact ⟨_, active, given, h.locks hat hfree⟩
    | idle | locked | read | wrote | leaving =>
      rw [hat] at hcode
      cases hcode
  | @unlock i call g rest hcode =>
    rw [Option.toList_none, List.append_nil]
    rw [h.code] at hcode
    cases hat : stage i with
    | wrote id =>
      rw [hat] at hcode
      cases hcode
      exact ⟨_, active, given, h.unlocks hat⟩
    | idle | entering | locked | read | leaving =>
      rw [hat] at hcode
      cases hcode
  | @act i call β f rest b shared hcode hf =>
    rw [Option.toList_none, List.append_nil]
    rw [h.code] at hcode
    cases hat : stage i with
    | locked =>
      rw [hat] at hcode
      cases hcode
      cases hf
      exact ⟨_, active, given, h.reads hat⟩
    | read id =>
      rw [hat] at hcode
      cases hcode
      cases hf
      exact ⟨_, active, given + 1, h.writes hat hfew⟩
    | idle | entering | wrote | leaving =>
      rw [hat] at hcode
      cases hcode
  | @loop i call β γ round b rest hcode =>
    rw [h.code] at hcode
    cases hat : stage i with
    | idle | entering | locked | read | wrote | leaving =>
      rw [hat] at hcode
      cases hcode
  | @done i call reply hcode =>
    rw [h.code] at hcode
    rw [idsOf_append, startedIn_append, Option.toList_some]
    cases hat : stage i with
    | leaving id =>
      rw [hat] at hcode
      cases hcode
      exact ⟨_, _, given, h.leaves hat⟩
    | idle | entering | locked | read | wrote =>
      rw [hat] at hcode
      cases hcode

end Inv

theorem inv_of_runs (runs : Service.Runs (fun _ => tsCounter) (Service.start 0) seen s)
    (hfew : startedIn seen ≤ unsignedSize) :
    ∃ stage active given, Inv s stage active (idsOf seen) (startedIn seen) given := by
  induction runs with
  | nil =>
    have htally : Tally (fun _ : ι => Stage.idle) [] [] 0 0 :=
      ⟨List.nodup_nil, fun i => iff_of_false List.not_mem_nil fun h => h rfl, rfl, List.Perm.refl _⟩
    refine ⟨fun _ => .idle, [], 0, fun _ => rfl, fun i => ?_, rfl, fun _ _ hread => ?_, htally⟩
    · exact iff_of_false (fun h => by cases h) fun h => by cases h
    · cases hread
  | snoc runs next ih =>
    rw [startedIn_append] at hfew
    obtain ⟨stage, active, given, h⟩ := ih (by omega)
    exact h.step next (by omega)

end TsCounter

/-- However the calls of `ts_counter` interleave, as long as there are no more than the counter can
count: the numbers that were got are all different, and when no call is under way they are the first
ones, each once. -/
theorem worker_ids_distinct [DecidableEq ι] {s : Service ι Unit Nat Unit Nat}
    (runs : Service.Runs (fun _ => tsCounter) (Service.start 0) seen s)
    (hfew : startedIn seen ≤ unsignedSize) :
    (idsOf seen).Nodup ∧ (∀ id ∈ idsOf seen, id < startedIn seen) ∧
      ((∀ i, s.code i = none) → (idsOf seen).Perm (List.range (startedIn seen))) := by
  obtain ⟨stage, active, given, h⟩ := TsCounter.inv_of_runs runs hfew
  have hnodup := h.tally.perm.nodup_iff.mpr List.nodup_range
  refine ⟨(List.nodup_append.mp hnodup).1, fun id hid => ?_, fun hidle => ?_⟩
  · have hmem := h.tally.perm.subset (List.mem_append_left _ hid)
    exact Nat.lt_of_lt_of_le (List.mem_range.mp hmem) h.tally.given_le
  · have hnone : active = [] := by
      refine List.eq_nil_iff_forall_not_mem.mpr fun i hi => ?_
      have hcode := (h.code i).symm.trans (hidle i)
      cases hat : stage i with
      | idle => exact (h.tally.mem i).mp hi hat
      | entering | locked | read | wrote | leaving =>
        rw [hat] at hcode
        cases hcode
    have hperm := h.tally.perm
    have hlength := hperm.length_eq
    have hstarted := h.tally.started
    simp only [hnone, List.filterMap_nil, List.append_nil, List.length_range, List.length_nil,
      Nat.add_zero] at hperm hlength hstarted
    rwa [hstarted, hlength]

/-- The worker that began last is the first one to get a number. -/
theorem worker_ids_distinct_two :
    ∃ (seen : List (Service.Label Nat Unit Nat)) (s : Service Nat Unit Nat Unit Nat),
      Service.Runs (fun _ => tsCounter) (Service.start 0) seen s ∧ startedIn seen = 2 ∧
        idsOf seen = [0, 1] ∧ (idsOf seen).Nodup := by
  obtain ⟨seen, s, runs, htest⟩ := Service.runs_of_test (fun _ => tsCounter) 0
    ([.ask 0 (), .ask 1 ()] ++ List.replicate 4 (.go 1) ++ List.replicate 3 (.go 0) ++
      [.go 1, .go 0, .go 0])
    (fun seen _ => decide (startedIn seen = 2 ∧ idsOf seen = [0, 1])) (by decide)
  obtain ⟨hstarted, hids⟩ := of_decide_eq_true htest
  exact ⟨seen, s, runs, hstarted, hids,
    (worker_ids_distinct runs (by rw [hstarted]; decide)).1⟩

end FileStorage.Server
