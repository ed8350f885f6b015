import FileStorage.Server.Shutdown
import Mathlib.Algebra.Order.BigOperators.Group.Finset

/-!
# Joining — the shutdown comes to its end

After the polling loop every step of the main thread and of a worker brings the end closer, in
whatever order they are taken.  Until the workers are joined some step can be taken, unless the main
thread waits for a worker whose handler does not return; and by then they have pulled what was waiting
for them.
-/

namespace FileStorage.Server

open Memory

/-! ## 1. What is left to do -/

namespace GuardedQueue

/-- No more than one message waits in a queue. -/
def waiting (q : GuardedQueue) : Nat := q.log.queue.nextIncoming.toList.length

/-- The steps to the end of the thread when the flag is set and nothing more is added. -/
def left (q : GuardedQueue) : Nat :=
  match q.worker with
  | .outside | .woken => 5 + 4 * q.waiting
  | .test => 4 + 4 * q.waiting
  | .flagTest => 3 + 5 * q.waiting
  | .wait => 7 + 4 * q.waiting
  | .blocked => 6 + 4 * q.waiting
  | .take => 2 + 5 * q.waiting
  | .unlock (some _) => 6 + 4 * q.waiting
  | .unlock none => 1
  | .exited => 0

end GuardedQueue

namespace MainPoint

/-- The steps of the main thread to the end of `workers_join`. -/
def left (count : Nat) : MainPoint → Nat
  | .lock i => 3 * (count - i) + count + 2
  | .signal i => 3 * (count - i) + count + 1
  | .unlock i => 3 * (count - i) + count
  | .join i => count - i + 1
  | .polling | .addLock _ _ _ | .addMessage _ _ _ | .addSignal _ | .addUnlock _ | .shutdownHard
  | .joined => 0

/-- The thread of worker `i` was joined. -/
def hasJoined (i : Nat) : MainPoint → Prop
  | .join j => i < j
  | .joined => True
  | _ => False

end MainPoint

namespace Shutdown

def left (count : Nat) (s : Shutdown) : Nat :=
  s.main.left count + ∑ i ∈ Finset.range count, (s.queues i).left

/-- A second signal changes nothing. -/
def Event.counts : Event → Bool
  | .hardSignal => false
  | _ => true

/-- The step is the first one of a worker after the handler of a message. -/
def FromHandler (s : Shutdown) (event : Event) : Prop :=
  ∃ i, event = .worker i ∧ (s.queues i).worker = .outside

/-- The loops of the main thread go over the workers. -/
structure Ordered (count : Nat) (s : Shutdown) : Prop where
  within : ∀ i, s.main = .signal i ∨ s.main = .unlock i → i < count
  joined : ∀ i < count, s.main.hasJoined i → (s.queues i).worker = .exited

end Shutdown

/-! ## 2. A step of a worker -/

namespace GuardedQueue

variable {q q' : GuardedQueue}

/-- All that the main thread does to a queue in the shutdown: it wakes the worker. -/
def Roused (q q' : GuardedQueue) : Prop :=
  q'.log = q.log ∧ (q'.worker = q.worker ∨ q.worker = .blocked ∧ q'.worker = .woken)

/-- Of the messages that are pulled and that wait. -/
def messages (q : GuardedQueue) : List Addr := q.log.pulled ++ q.log.queue.nextIncoming.toList

theorem waiting_le (q : GuardedQueue) : q.waiting ≤ 1 := by
  unfold waiting
  cases q.log.queue.nextIncoming with
  | none => exact Nat.zero_le 1
  | some a => exact Nat.le_refl 1

theorem left_le (q : GuardedQueue) : q.left ≤ 11 := by
  have hwaiting := q.waiting_le
  unfold left
  split <;> omega

theorem roused_refl (q : GuardedQueue) : Roused q q := ⟨rfl, Or.inl rfl⟩

theorem roused_signal (q : GuardedQueue) : Roused q q.signal := by
  unfold signal
  by_cases hblocked : q.worker = .blocked
  · rw [if_pos hblocked]
    exact ⟨rfl, Or.inr ⟨hblocked, rfl⟩⟩
  · rw [if_neg hblocked]
    exact roused_refl q

theorem Roused.left_le (h : Roused q q') : q'.left ≤ q.left := by
  obtain ⟨hlog, hworker | ⟨hblocked, hwoken⟩⟩ := h
  · rw [left, left, waiting, waiting, hlog, hworker]
  · simp only [left, waiting, hlog, hblocked, hwoken]
    omega

theorem Roused.exited_iff (h : Roused q q') : q'.worker = .exited ↔ q.worker = .exited := by
  obtain ⟨-, hworker | ⟨hblocked, hwoken⟩⟩ := h
  · rw [hworker]
  · rw [hblocked, hwoken]
    exact iff_of_false nofun nofun

/-- With the flag set the worker comes closer to its end, and what it takes it has pulled. -/
theorem pullStep_left (hwf : q.log.Wf) (hx : q.pullStep true = some q') :
    q'.left < q.left ∧ q'.messages = q.messages ∧
      (q'.worker = .exited → q'.log = q.log ∧ q.worker = .unlock none) := by
  unfold pullStep at hx
  cases hat : q.worker with
  | outside | woken =>
    simp only [hat] at hx
    obtain ⟨q₁, hlock, rfl⟩ := Option.map_eq_some_iff.mp hx
    obtain ⟨-, rfl⟩ := lock_eq_some.mp hlock
    refine ⟨?_, rfl, fun h => by cases h⟩
    simp only [left, waiting, hat, goTo]
    omega
  | test =>
    simp only [hat] at hx
    obtain rfl := Option.some.inj hx
    cases hfront : q.log.queue.nextIncoming with
    | none => exact ⟨by simp [left, waiting, hat, goTo, hfront], rfl, fun h => by cases h⟩
    | some a => exact ⟨by simp [left, waiting, hat, goTo, hfront], rfl, fun h => by cases h⟩
  | flagTest =>
    simp only [hat, if_true] at hx
    obtain rfl := Option.some.inj hx
    refine ⟨?_, rfl, fun h => by cases h⟩
    simp only [left, waiting, hat, goTo]
    omega
  | wait =>
    simp only [hat] at hx
    obtain rfl := Option.some.inj hx
    refine ⟨?_, rfl, fun h => by cases h⟩
    simp only [left, waiting, hat, goTo, unlock]
    omega
  | take =>
    simp only [hat] at hx
    obtain ⟨⟨msg, messages', queue⟩, hpull, hx⟩ := Option.bind_eq_some_iff.mp hx
    obtain rfl := Option.some.inj hx
    have hpull := Exec.toOption_eq_some.mp hpull
    cases hfront : q.log.queue.nextIncoming with
    | none =>
      simp only [workloadQueuePull, hfront] at hpull
      obtain ⟨rfl, rfl, rfl⟩ : none = msg ∧ q.log.messages = messages' ∧ q.log.queue = queue := by
        simpa using hpull
      exact ⟨by simp [left, waiting, hat, hfront], by simp [messages, hfront], fun h => by cases h⟩
    | some a =>
      -- the message that is taken was alone
      obtain ⟨message, hread, hnext⟩ := Heap.field_eq_some (hwf.front a hfront)
      simp only [workloadQueuePull, hfront, Heap.load_of_read hread, Exec.ok_bind,
        Heap.store_of_read hread, hnext] at hpull
      cases hpull
      exact ⟨by simp [left, waiting, hat, hfront], by simp [messages, hfront], fun h => by cases h⟩
  | unlock msg =>
    simp only [hat] at hx
    obtain rfl := Option.some.inj hx
    cases msg with
    | none => exact ⟨by simp [left, hat, goTo, unlock], rfl, fun _ => ⟨rfl, rfl⟩⟩
    | some a =>
      refine ⟨?_, rfl, fun h => by cases h⟩
      simp only [left, waiting, hat, goTo, unlock, Option.isSome_some, if_true]
      omega
  | blocked | exited =>
    simp only [hat] at hx
    cases hx

end GuardedQueue

/-! ## 3. A step of the main thread -/

namespace Shutdown

open GuardedQueue (Roused)

variable {count i : Nat} {s s' s₀ : Shutdown} {event : Event} {tr tr' : List (Shutdown × Event)}

/-- The next point in the shutdown. -/
inductive Follows (count : Nat) (s : Shutdown) : MainPoint → Prop
  | lock {i : Nat} (hat : s.main = .lock i) (hi : i < count) : Follows count s (.signal i)
  | allSignalled {i : Nat} (hat : s.main = .lock i) (hi : ¬i < count) : Follows count s (.join 0)
  | signal {i : Nat} (hat : s.main = .signal i) : Follows count s (.unlock i)
  | unlock {i : Nat} (hat : s.main = .unlock i) : Follows count s (.lock (i + 1))
  | join {i : Nat} (hat : s.main = .join i) (hi : i < count)
      (hexited : (s.queues i).worker = .exited) : Follows count s (.join (i + 1))
  | joined {i : Nat} (hat : s.main = .join i) (hi : ¬i < count) : Follows count s .joined

/-- What holds of every queue and of the new one holds when it is put in its place. -/
theorem forall_setQueue {R : Nat → GuardedQueue → Prop} {q : GuardedQueue}
    (h : ∀ j, R j (s.queues j)) (hq : R i q) (j : Nat) : R j ((s.setQueue i q).queues j) := by
  show R j (Function.update s.queues i q j)
  by_cases hij : j = i
  · subst hij
    rwa [Function.update_self]
  · rw [Function.update_of_ne hij]
    exact h j

theorem roused_setQueue {q : GuardedQueue} (hq : Roused (s.queues i) q) (j : Nat) :
    Roused (s.queues j) ((s.setQueue i q).queues j) :=
  forall_setQueue (R := fun j q' => Roused (s.queues j) q')
    (fun _ => GuardedQueue.roused_refl _) hq j

theorem mainStep_closing (hclosing : s.main.shuttingDown = true)
    (hx : s.mainStep count = some s') :
    s'.hard = s.hard ∧ (∀ j, Roused (s.queues j) (s'.queues j)) ∧ Follows count s s'.main := by
  unfold mainStep at hx
  cases hat : s.main with
  | polling | addLock | addMessage | addSignal | addUnlock | shutdownHard =>
    rw [hat] at hclosing
    cases hclosing
  | joined =>
    simp only [hat] at hx
    cases hx
  | lock i =>
    simp only [hat] at hx
    by_cases hi : i < count
    · rw [if_pos hi] at hx
      obtain ⟨q, hlock, hx⟩ := Option.bind_eq_some_iff.mp hx
      obtain rfl := Option.some.inj hx
      obtain ⟨-, rfl⟩ := GuardedQueue.lock_eq_some.mp hlock
      exact ⟨rfl, roused_setQueue ⟨rfl, Or.inl rfl⟩, .lock hat hi⟩
    · rw [if_neg hi] at hx
      obtain rfl := Option.some.inj hx
      exact ⟨rfl, fun j => GuardedQueue.roused_refl _, .allSignalled hat hi⟩
  | signal i =>
    simp only [hat] at hx
    obtain rfl := Option.some.inj hx
    exact ⟨rfl, roused_setQueue (GuardedQueue.roused_signal _), .signal hat⟩
  | unlock i =>
    simp only [hat] at hx
    obtain rfl := Option.some.inj hx
    exact ⟨rfl, roused_setQueue ⟨rfl, Or.inl rfl⟩, .unlock hat⟩
  | join i =>
    simp only [hat] at hx
    by_cases hi : i < count
    · rw [if_pos hi] at hx
      by_cases hexited : (s.queues i).worker = .exited
      · rw [if_pos hexited] at hx
        obtain rfl := Option.some.inj hx
        exact ⟨rfl, fun j => GuardedQueue.roused_refl _, .join hat hi hexited⟩
      · rw [if_neg hexited] at hx
        cases hx
    · rw [if_neg hi] at hx
      obtain rfl := Option.some.inj hx
      exact ⟨rfl, fun j => GuardedQueue.roused_refl _, .joined hat hi⟩

theorem Follows.shuttingDown {main : MainPoint} (h : Follows count s main) :
    main.shuttingDown = true := by
  cases h <;> rfl

theorem Follows.left_lt {main : MainPoint} (h : Follows count s main) (hordered : Ordered count s) :
    main.left count < s.main.left count := by
  cases h with
  | lock hat hi | allSignalled hat hi | join hat hi hexited | joined hat hi =>
    rw [hat]
    simp only [MainPoint.left]
    omega
  | signal hat =>
    have hi := hordered.within _ (Or.inl hat)
    rw [hat]
    simp only [MainPoint.left]
    omega
  | unlock hat =>
    have hi := hordered.within _ (Or.inr hat)
    rw [hat]
    simp only [MainPoint.left]
    omega

theorem Follows.ordered (h : Follows count s s'.main) (hordered : Ordered count s)
    (hqueues : ∀ j, Roused (s.queues j) (s'.queues j)) : Ordered count s' := by
  have hkept : ∀ j < count, s.main.hasJoined j → (s'.queues j).worker = .exited :=
    fun j hj hjoined => (hqueues j).exited_iff.mpr (hordered.joined j hj hjoined)
  generalize hmain : s'.main = main at h
  constructor
  · intro j hj
    rw [hmain] at hj
    cases h with
    | lock hat hi =>
      obtain rfl : _ = j := MainPoint.signal.inj (hj.resolve_right nofun)
      exact hi
    | signal hat =>
      obtain rfl : _ = j := MainPoint.unlock.inj (hj.resolve_left nofun)
      exact hordered.within _ (Or.inl hat)
    | allSignalled | unlock | join | joined => exact absurd hj (by rintro (h | h) <;> cases h)
  · intro j hj hjoined
    rw [hmain] at hjoined
    cases h with
    | lock | signal | unlock => exact hjoined.elim
    | allSignalled => exact absurd hjoined (Nat.not_lt_zero j)
    | @join i hat hi hexited =>
      by_cases hlt : j < i
      · exact hkept j hj (by rw [hat]; exact hlt)
      · have hle : j < i + 1 := hjoined
        obtain rfl : j = i := by omega
        exact (hqueues j).exited_iff.mpr hexited
    | joined hat hi =>
      refine hkept j hj ?_
      rw [hat]
      show j < _
      omega

/-! ## 4. The threads together -/

/-- A worker that has ended takes no step. -/
theorem exited_setQueue {q : GuardedQueue} (hq : (s.queues i).worker = .exited → q.worker = .exited)
    {j : Nat} (hj : (s.queues j).worker = .exited) :
    ((s.setQueue i q).queues j).worker = .exited :=
  forall_setQueue (R := fun j q' => (s.queues j).worker = .exited → q'.worker = .exited)
    (fun _ hexited => hexited) hq j hj

theorem Ordered.setQueue {q : GuardedQueue} (h : Ordered count s)
    (hq : (s.queues i).worker = .exited → q.worker = .exited) : Ordered count (s.setQueue i q) :=
  ⟨h.within, fun j hj hjoined => exited_setQueue hq (h.joined j hj hjoined)⟩

/-- Before the shutdown there is nothing to keep. -/
theorem ordered_before (h : s.main.shuttingDown = false ∨ s.main = .lock 0) : Ordered count s := by
  constructor
  · intro i hi
    rcases hi with hi | hi <;> rw [hi] at h <;> rcases h with h | h <;> cases h
  · intro i hi hjoined
    cases hat : s.main with
    | join | joined =>
      rw [hat] at h
      rcases h with h | h <;> cases h
    | _ =>
      rw [hat] at hjoined
      exact hjoined.elim

theorem mainStep_before (hbefore : s.main.shuttingDown = false) (hx : s.mainStep count = some s') :
    s'.main.shuttingDown = false ∨ s'.main = .lock 0 := by
  unfold mainStep at hx
  cases hat : s.main with
  | lock | signal | unlock | join | joined =>
    rw [hat] at hbefore
    cases hbefore
  | polling =>
    simp only [hat] at hx
    cases hx
  | addLock | addMessage =>
    simp only [hat] at hx
    obtain ⟨q, -, hx⟩ := Option.bind_eq_some_iff.mp hx
    obtain rfl := Option.some.inj hx
    exact Or.inl rfl
  | addSignal | addUnlock =>
    simp only [hat] at hx
    obtain rfl := Option.some.inj hx
    exact Or.inl rfl
  | shutdownHard =>
    simp only [hat] at hx
    obtain rfl := Option.some.inj hx
    exact Or.inr rfl

theorem Ordered.next (h : Ordered count s) (hx : s.next count event = some s') :
    Ordered count s' := by
  unfold Shutdown.next at hx
  cases event with
  | worker i =>
    simp only at hx
    split at hx
    · obtain ⟨q, hpull, rfl⟩ := Option.map_eq_some_iff.mp hx
      refine h.setQueue fun hexited => ?_
      simp only [GuardedQueue.pullStep, hexited] at hpull
      cases hpull
    · cases hx
  | spurious i =>
    simp only at hx
    split at hx
    · rename_i hblocked
      obtain rfl := Option.some.inj hx
      refine h.setQueue fun hexited => ?_
      rw [hblocked] at hexited
      cases hexited
    · cases hx
  | hardSignal =>
    obtain rfl := Option.some.inj hx
    exact ⟨h.within, h.joined⟩
  | handOver i fd buffer =>
    simp only at hx
    split at hx
    · obtain rfl := Option.some.inj hx
      exact ordered_before (Or.inl rfl)
    · cases hx
  | leaveLoop =>
    simp only at hx
    split at hx
    · obtain rfl := Option.some.inj hx
      exact ordered_before (Or.inl rfl)
    · cases hx
  | main =>
    cases hclosing : s.main.shuttingDown with
    | false => exact ordered_before (mainStep_before hclosing hx)
    | true =>
      obtain ⟨-, hqueues, hfollows⟩ := mainStep_closing hclosing hx
      exact hfollows.ordered h hqueues

theorem Runs.ordered (run : Runs count tr s) : Ordered count s :=
  run.invariant (Ordered count) (fun _ _ => True) (ordered_before (Or.inl rfl))
    (fun _ _ _ h _ hx => h.next hx) fun _ _ => trivial

/-- Only a worker of the program goes anywhere. -/
theorem idle_setQueue (h : ∀ j, ¬j < count → (s.queues j).worker = .outside) {q : GuardedQueue}
    (hq : ¬i < count → q.worker = (s.queues i).worker) (j : Nat) (hj : ¬j < count) :
    ((s.setQueue i q).queues j).worker = .outside :=
  forall_setQueue (R := fun j q' => ¬j < count → q'.worker = .outside) h
    (fun hi => (hq hi).trans (h i hi)) j hj

theorem idle_mainStep (h : ∀ j, ¬j < count → (s.queues j).worker = .outside)
    (hx : s.mainStep count = some s') (j : Nat) (hj : ¬j < count) :
    (s'.queues j).worker = .outside := by
  have hsignal : ∀ i, ¬i < count → (s.queues i).signal.worker = (s.queues i).worker := by
    intro i hi
    rw [GuardedQueue.signal, if_neg (by rw [h i hi]; exact nofun)]
  have hlock : ∀ {i q}, (s.queues i).lock .main = some q → q.worker = (s.queues i).worker := by
    intro i q hlock
    obtain ⟨-, rfl⟩ := GuardedQueue.lock_eq_some.mp hlock
    rfl
  unfold mainStep at hx
  cases hat : s.main with
  | polling | joined =>
    simp only [hat] at hx
    cases hx
  | addLock =>
    simp only [hat] at hx
    obtain ⟨q, hq, hx⟩ := Option.bind_eq_some_iff.mp hx
    obtain rfl := Option.some.inj hx
    exact idle_setQueue h (fun _ => hlock hq) j hj
  | addMessage i =>
    simp only [hat] at hx
    obtain ⟨log, -, hx⟩ := Option.bind_eq_some_iff.mp hx
    obtain rfl := Option.some.inj hx
    exact idle_setQueue (q := { s.queues i with log }) h (fun _ => rfl) j hj
  | addSignal i | signal i =>
    simp only [hat] at hx
    obtain rfl := Option.some.inj hx
    exact idle_setQueue h (hsignal i) j hj
  | addUnlock | unlock =>
    simp only [hat] at hx
    obtain rfl := Option.some.inj hx
    exact idle_setQueue (q := (s.queues _).unlock) h (fun _ => rfl) j hj
  | shutdownHard =>
    simp only [hat] at hx
    obtain rfl := Option.some.inj hx
    exact h j hj
  | lock =>
    simp only [hat] at hx
    split at hx
    · obtain ⟨q, hq, hx⟩ := Option.bind_eq_some_iff.mp hx
      obtain rfl := Option.some.inj hx
      exact idle_setQueue h (fun _ => hlock hq) j hj
    · obtain rfl := Option.some.inj hx
      exact h j hj
  | join =>
    simp only [hat] at hx
    split at hx
    · obtain ⟨-, hx⟩ := Option.ite_none_right_eq_some.mp hx
      obtain rfl := Option.some.inj hx
      exact h j hj
    · obtain rfl := Option.some.inj hx
      exact h j hj

theorem idle_next (h : ∀ j, ¬j < count → (s.queues j).worker = .outside)
    (hx : s.next count event = some s') (j : Nat) (hj : ¬j < count) :
    (s'.queues j).worker = .outside := by
  cases event with
  | worker i =>
    obtain ⟨hi, hx⟩ := Option.ite_none_right_eq_some.mp hx
    obtain ⟨q, -, rfl⟩ := Option.map_eq_some_iff.mp hx
    exact idle_setQueue h (fun hi' => absurd hi hi') j hj
  | spurious i =>
    obtain ⟨hblocked, hx⟩ := Option.ite_none_right_eq_some.mp hx
    obtain rfl := Option.some.inj hx
    refine idle_setQueue h (fun hi => ?_) j hj
    rw [h i hi] at hblocked
    cases hblocked
  | hardSignal =>
    obtain rfl := Option.some.inj hx
    exact h j hj
  | handOver i fd buffer =>
    obtain ⟨-, hx⟩ := Option.ite_none_right_eq_some.mp hx
    obtain rfl := Option.some.inj hx
    exact h j hj
  | leaveLoop =>
    obtain ⟨-, hx⟩ := Option.ite_none_right_eq_some.mp hx
    obtain rfl := Option.some.inj hx
    exact h j hj
  | main => exact idle_mainStep h hx j hj

theorem Runs.idle (run : Runs count tr s) (j : Nat) (hj : ¬j < count) :
    (s.queues j).worker = .outside :=
  run.invariant (fun s => ∀ j, ¬j < count → (s.queues j).worker = .outside) (fun _ _ => True)
    (fun _ _ => rfl) (fun _ _ _ h _ hx => idle_next h hx) (fun _ _ => trivial) j hj

/-- From `s₀` on, in the shutdown: no message is added any more, and a worker ends when none waits. -/
structure Closing (count : Nat) (s₀ s : Shutdown) : Prop where
  inv : Inv count s
  ordered : Ordered count s
  idle : ∀ i, ¬i < count → (s.queues i).worker = .outside
  wf : ∀ i, (s.queues i).log.Wf
  closing : s.main.shuttingDown = true
  kept : ∀ i, (s.queues i).messages = (s₀.queues i).messages
  ended : ∀ i < count, (s.queues i).worker = .exited →
    (s₀.queues i).worker = .exited ∨ (s.queues i).log.queue.nextIncoming = none

theorem left_of_roused (hqueues : ∀ j, Roused (s.queues j) (s'.queues j))
    (hmain : s'.main.left count < s.main.left count) : s'.left count < s.left count := by
  have hsum : ∑ j ∈ Finset.range count, (s'.queues j).left ≤
      ∑ j ∈ Finset.range count, (s.queues j).left :=
    Finset.sum_le_sum fun j _ => (hqueues j).left_le
  unfold left
  omega

theorem left_setQueue {q : GuardedQueue} (hi : i < count) (hq : q.left < (s.queues i).left) :
    (s.setQueue i q).left count < s.left count := by
  have hsum : ∑ j ∈ Finset.range count, ((s.setQueue i q).queues j).left <
      ∑ j ∈ Finset.range count, (s.queues j).left := by
    refine Finset.sum_lt_sum (fun j _ => ?_) ⟨i, Finset.mem_range.mpr hi, ?_⟩
    · exact forall_setQueue (R := fun j q' => q'.left ≤ (s.queues j).left)
        (fun _ => Nat.le_refl _) (Nat.le_of_lt hq) j
    · show (Function.update s.queues i q i).left < _
      rwa [Function.update_self]
  show s.main.left count + _ < _
  unfold left
  omega

/-- What a step leaves of a queue. -/
def Keeps (q q' : GuardedQueue) : Prop :=
  q'.messages = q.messages ∧
    (q'.worker = .exited → q'.log = q.log ∧ (q.worker = .exited ∨ q.worker = .unlock none))

theorem keeps_of_roused {q q' : GuardedQueue} (h : Roused q q') : Keeps q q' := by
  refine ⟨?_, fun hexited => ⟨h.1, Or.inl (h.exited_iff.mp hexited)⟩⟩
  rw [GuardedQueue.messages, GuardedQueue.messages, h.1]

theorem keeps_setQueue {q : GuardedQueue} (hq : Keeps (s.queues i) q) (j : Nat) :
    Keeps (s.queues j) ((s.setQueue i q).queues j) :=
  forall_setQueue (R := fun j q' => Keeps (s.queues j) q')
    (fun _ => keeps_of_roused (GuardedQueue.roused_refl _)) hq j

theorem Closing.of_keeps (h : Closing count s₀ s) (hx : s.next count event = some s')
    (hwf : ∀ i, (s'.queues i).log.Wf) (hclosing : s'.main.shuttingDown = true)
    (hqueues : ∀ j, Keeps (s.queues j) (s'.queues j)) : Closing count s₀ s' := by
  refine ⟨h.inv.next hx, h.ordered.next hx, idle_next h.idle hx, hwf, hclosing,
    fun j => (hqueues j).1.trans (h.kept j), ?_⟩
  intro j hj hexited
  obtain ⟨hlog, hbefore | hnull⟩ := (hqueues j).2 hexited
  · rw [hlog]
    exact h.ended j hj hbefore
  · rw [hlog]
    exact Or.inr ((h.inv.queues j hj).null hnull).2

/-- Every step leaves less to do, except for a second signal. -/
theorem Closing.next (h : Closing count s₀ s) (hwf : ∀ i, (s'.queues i).log.Wf)
    (hx : s.next count event = some s') :
    Closing count s₀ s' ∧
      s'.left count + (if event.counts = true then 1 else 0) ≤ s.left count := by
  have hhard : s.hard = true := h.inv.flag h.closing
  have hclosing := h.of_keeps hx hwf
  cases event with
  | worker i =>
    obtain ⟨hi, hx⟩ := Option.ite_none_right_eq_some.mp hx
    rw [hhard] at hx
    obtain ⟨q, hpull, rfl⟩ := Option.map_eq_some_iff.mp hx
    obtain ⟨hleft, hmessages, hexited⟩ := GuardedQueue.pullStep_left (h.wf i) hpull
    have hkeeps : Keeps (s.queues i) q :=
      ⟨hmessages, fun hq => ⟨(hexited hq).1, Or.inr (hexited hq).2⟩⟩
    exact ⟨hclosing h.closing (keeps_setQueue hkeeps), left_setQueue hi hleft⟩
  | spurious i =>
    obtain ⟨hblocked, hx⟩ := Option.ite_none_right_eq_some.mp hx
    obtain rfl := Option.some.inj hx
    have hroused : Roused (s.queues i) ((s.queues i).goTo .woken) := ⟨rfl, Or.inr ⟨hblocked, rfl⟩⟩
    refine ⟨hclosing h.closing (keeps_setQueue (keeps_of_roused hroused)), left_setQueue ?_ ?_⟩
    · by_contra hi
      rw [h.idle i hi] at hblocked
      cases hblocked
    · simp only [GuardedQueue.left, GuardedQueue.waiting, GuardedQueue.goTo, hblocked]
      omega
  | hardSignal =>
    obtain rfl := Option.some.inj hx
    exact ⟨hclosing h.closing fun j => keeps_of_roused (GuardedQueue.roused_refl _), Nat.le_refl _⟩
  | handOver i fd buffer =>
    obtain ⟨hguard, -⟩ := Option.ite_none_right_eq_some.mp hx
    have hmain := h.closing
    rw [hguard.1] at hmain
    cases hmain
  | leaveLoop =>
    obtain ⟨hguard, -⟩ := Option.ite_none_right_eq_some.mp hx
    have hmain := h.closing
    rw [hguard] at hmain
    cases hmain
  | main =>
    obtain ⟨-, hqueues, hfollows⟩ := mainStep_closing h.closing hx
    exact ⟨hclosing hfollows.shuttingDown fun j => keeps_of_roused (hqueues j),
      left_of_roused hqueues (hfollows.left_lt h.ordered)⟩

theorem Runs.wf (run : Runs count tr s) (i : Nat) : (s.queues i).log.Wf := by
  obtain ⟨tr', run'⟩ := run.queue i
  exact (queue_accounts run').1

theorem Runs.closing (run : Runs count tr s) (hclosing : s.main.shuttingDown = true) :
    Closing count s s :=
  ⟨run.inv, run.ordered, run.idle, run.wf, hclosing, fun _ => rfl, fun _ _ => Or.inl⟩

/-- A worker that holds the mutex of its queue can go on. -/
theorem worker_goes_on (run : Runs count tr s) (hi : i < count)
    (hholds : (s.queues i).worker.holds = true) : (s.next count (.worker i)).isSome := by
  have hpull : ((s.queues i).pullStep s.hard).isSome := by
    unfold GuardedQueue.pullStep
    cases hat : (s.queues i).worker with
    | outside | blocked | woken | exited =>
      rw [hat] at hholds
      cases hholds
    | test | flagTest | wait | unlock => rfl
    | take =>
      obtain ⟨r, hr⟩ := run.pull i
      simp only [hr]
      rfl
  simp only [next, if_pos hi, Option.isSome_map, hpull]

theorem main_not_fromHandler (s : Shutdown) : ¬s.FromHandler .main := by
  rintro ⟨i, hmain, -⟩
  cases hmain

theorem not_fromHandler_of_ne (h : (s.queues i).worker ≠ .outside) :
    ¬s.FromHandler (.worker i) := by
  rintro ⟨j, hworker, houtside⟩
  cases hworker
  exact h houtside

/-- In the shutdown somebody can take a step until the workers are joined.  Only while the main thread
waits for a worker that handles a message the step may be that of leaving a handler. -/
theorem goes_on (run : Runs count tr s) (hclosing : s.main.shuttingDown = true)
    (hmain : s.main ≠ .joined) :
    (∃ event, event.counts = true ∧ ¬s.FromHandler event ∧ (s.next count event).isSome) ∨
      ∃ i < count, s.main = .join i ∧ (s.queues i).worker = .outside ∧
        (s.next count (.worker i)).isSome := by
  have hnot := main_not_fromHandler s
  cases hat : s.main with
  | polling | addLock | addMessage | addSignal | addUnlock | shutdownHard =>
    rw [hat] at hclosing
    cases hclosing
  | joined => exact absurd hat hmain
  | signal i => exact Or.inl ⟨.main, rfl, hnot, by simp only [next, mainStep, hat]; rfl⟩
  | unlock i => exact Or.inl ⟨.main, rfl, hnot, by simp only [next, mainStep, hat]; rfl⟩
  | lock i =>
    by_cases hi : i < count
    · cases hmutex : (s.queues i).mutex with
      | none =>
        refine Or.inl ⟨.main, rfl, hnot, ?_⟩
        simp only [next, mainStep, hat, if_pos hi, GuardedQueue.lock, hmutex, if_true]
        rfl
      | some party =>
        have hinv := run.inv.queues i hi
        cases party with
        | main =>
          have hholding := hinv.byMain.mp hmutex
          rw [hat] at hholding
          cases hholding
        | worker =>
          -- the worker is not in a handler, and gives the mutex back
          have hholds := hinv.byWorker.mp hmutex
          refine Or.inl ⟨.worker i, rfl, not_fromHandler_of_ne fun houtside => ?_,
            worker_goes_on run hi hholds⟩
          rw [houtside] at hholds
          cases hholds
    · exact Or.inl ⟨.main, rfl, hnot, by simp only [next, mainStep, hat, if_neg hi]; rfl⟩
  | join i =>
    by_cases hi : i < count
    · by_cases hexited : (s.queues i).worker = .exited
      · refine Or.inl ⟨.main, rfl, hnot, ?_⟩
        simp only [next, mainStep, hat, if_pos hi, if_pos hexited]
        rfl
      · obtain ⟨s', hnext⟩ := workers_go_on run hat hi hexited
        have hsome : (s.next count (.worker i)).isSome := by rw [hnext]; rfl
        by_cases houtside : (s.queues i).worker = .outside
        · exact Or.inr ⟨i, hi, rfl, houtside, hsome⟩
        · exact Or.inl ⟨.worker i, rfl, not_fromHandler_of_ne houtside, hsome⟩
    · exact Or.inl ⟨.main, rfl, hnot, by simp only [next, mainStep, hat, if_neg hi]; rfl⟩

theorem left_bound (count : Nat) (s : Shutdown) : s.left count ≤ 15 * count + 2 := by
  have hmain : s.main.left count ≤ 4 * count + 2 := by
    cases s.main with
    | polling | addLock | addMessage | addSignal | addUnlock | shutdownHard | joined =>
      exact Nat.zero_le _
    | lock | signal | unlock | join =>
      simp only [MainPoint.left]
      omega
  have hqueues : ∑ i ∈ Finset.range count, (s.queues i).left ≤ ∑ i ∈ Finset.range count, 11 :=
    Finset.sum_le_sum fun i _ => (s.queues i).left_le
  rw [Finset.sum_const_nat (m := 11) fun _ _ => rfl, Finset.card_range] at hqueues
  unfold left
  omega

/-! ## 5. The shutdown -/

/-- The shutdown ends as long as the handlers return.  Once the main thread has set the flag there are
at most `15 * count + 2` steps more, in any order, spurious wakeups included.  In every state before the
end somebody can take a step that leaves no handler, unless the main thread waits for a worker that
still handles a message.  At the end every worker has ended, and those that had not when the flag was
set have pulled all the messages that were waiting for them. -/
theorem shutdown_ends (run : Runs count tr s) (hclosing : s.main.shuttingDown = true)
    (continued : Run (fun s event s' => s.next count event = some s') s tr' s') :
    tr'.countP (fun x => x.2.counts) ≤ 15 * count + 2 ∧
      (s'.main ≠ .joined →
        (∃ event, event.counts = true ∧ ¬s'.FromHandler event ∧ (s'.next count event).isSome) ∨
          ∃ i < count, s'.main = .join i ∧ (s'.queues i).worker = .outside ∧
            (s'.next count (.worker i)).isSome) ∧
      (s'.main = .joined → ∀ i < count, (s'.queues i).worker = .exited ∧
        ((s.queues i).worker ≠ .exited →
          (s'.queues i).log.pulled = (s.queues i).log.pulled ++ (s.queues i).log.waiting)) := by
  have hstep : ∀ s₁ event s₂, (∃ tr, Runs count tr s₁) ∧ Closing count s s₁ →
      s₁.next count event = some s₂ → ((∃ tr, Runs count tr s₂) ∧ Closing count s s₂) ∧
        s₂.left count + (if event.counts = true then 1 else 0) ≤ s₁.left count := by
    intro s₁ event s₂ h hx
    obtain ⟨⟨tr₁, run₁⟩, hclosing₁⟩ := h
    have run₂ : Runs count (tr₁ ++ [(s₁, event)]) s₂ := .snoc run₁ hx
    obtain ⟨hclosing₂, hleft⟩ := hclosing₁.next run₂.wf hx
    exact ⟨⟨⟨_, run₂⟩, hclosing₂⟩, hleft⟩
  obtain ⟨⟨⟨tr'', run'⟩, hend⟩, hbound⟩ := continued.measured _ (left count) Event.counts
    ⟨⟨tr, run⟩, run.closing hclosing⟩ hstep
  refine ⟨?_, goes_on run' hend.closing, fun hjoined i hi => ?_⟩
  · have hleft := left_bound count s
    omega
  · have hexited : (s'.queues i).worker = .exited :=
      hend.ordered.joined i hi (by rw [hjoined]; trivial)
    refine ⟨hexited, fun hnot => ?_⟩
    have hempty := (hend.ended i hi hexited).resolve_left hnot
    have hkept := hend.kept i
    rw [GuardedQueue.messages, GuardedQueue.messages, hempty, Option.toList_none,
      List.append_nil] at hkept
    rw [QueueLog.waiting_eq (run.wf i)]
    exact hkept

/-- A message waits for worker 0 when the flag is set, and worker 1 is asleep. -/
theorem shutdown_ends_two : ∃ tr s tr' s' a, Runs 2 tr s ∧
    Run (fun s event s' => next 2 s event = some s') s tr' s' ∧ s.main = .lock 0 ∧
      s'.main = .joined ∧ (s.queues 0).log.waiting = [a] ∧ (s'.queues 0).log.pulled = [a] ∧
        tr'.countP (fun x => x.2.counts) ≤ 32 := by
  have hrun : ((replay (next 2) start
      [.worker 1, .worker 1, .worker 1, .worker 1, .handOver 0 4 [7], .main, .main, .main, .main,
        .leaveLoop, .main]).bind fun x =>
      (replay (next 2) x.2
        [.worker 0, .worker 0, .worker 0, .worker 0, .spurious 1, .main, .main, .main, .worker 1,
          .worker 1, .worker 1, .worker 1, .worker 1, .main, .main, .main, .main, .worker 0,
          .worker 0, .worker 0, .worker 0, .worker 0, .main, .main, .main]).map
        fun y => (x, y)).any (fun z => z.1.2.main == .lock 0 && z.2.2.main == .joined &&
          (z.1.2.queues 0).log.waiting == [0] && (z.1.2.queues 0).worker == .outside &&
            (z.1.2.queues 0).log.pulled == []) = true := by
    decide
  obtain ⟨z, hz, htest⟩ := (Option.any_eq_true _ _).mp hrun
  obtain ⟨x, hx, hz⟩ := Option.bind_eq_some_iff.mp hz
  obtain ⟨y, hy, rfl⟩ := Option.map_eq_some_iff.mp hz
  simp only [Bool.and_eq_true, beq_iff_eq] at htest
  obtain ⟨⟨⟨⟨hlock, hjoined⟩, hwaiting⟩, houtside⟩, hpulled⟩ := htest
  have run : Runs 2 x.1 x.2 := Run.of_replay (fun _ _ _ h => h) hx
  have continued : Run (fun s event s' => next 2 s event = some s') x.2 y.1 y.2 :=
    Run.of_replay (fun _ _ _ h => h) hy
  obtain ⟨hbound, -, hend⟩ := shutdown_ends run (by rw [hlock]; rfl) continued
  have hworker := (hend hjoined 0 (by decide)).2 (by rw [houtside]; exact nofun)
  rw [hpulled, hwaiting] at hworker
  exact ⟨x.1, x.2, y.1, y.2, 0, run, continued, hlock, hjoined, hwaiting, hworker, hbound⟩

end Shutdown

end FileStorage.Server
