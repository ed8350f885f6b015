import FileStorage.Server.WorkloadQueue
import Mathlib.Logic.Function.Basic

/-!
# Shutdown — the workers are woken and joined

One worker pulls from each queue.  It tests the queue and the hard flag and goes to sleep under the
mutex of the queue, and the main thread sets the flag without one; it signals each condition
variable once, under the mutex.  Here the steps of the main thread and of the workers interleave:
a step is one call on a mutex or a condition variable, or one access to what they share.
-/

namespace FileStorage.Server

open Memory

/-! ## 1. The state -/

/-- Where a worker stands in `workload_queue_pull`. -/
inductive PullPoint where
  | outside              -- handling a message, or not started yet: the next step is the one after that
  | test                 -- at the head of the loop
  | flagTest
  | wait                 -- at `pthread_cond_wait`
  | blocked              -- in it, the mutex released
  | woken                -- in it, to lock the mutex again
  | take                 -- past the loop
  | unlock (msg : Ptr)
  | exited               -- `NULL` ends the thread
deriving DecidableEq

/-- Whether the mutex is held there. -/
def PullPoint.holds : PullPoint → Bool
  | .test | .flagTest | .wait | .take | .unlock _ => true
  | .outside | .blocked | .woken | .exited => false

/-- Where the main thread stands: in the polling loop, in a call of `workload_queue_add`, or in the
shutdown after the loop. -/
inductive MainPoint where
  | polling
  | addLock (i : Nat) (fd : Int) (buffer : List UInt8)
  | addMessage (i : Nat) (fd : Int) (buffer : List UInt8)
  | addSignal (i : Nat)
  | addUnlock (i : Nat)
  | shutdownHard
  | lock (i : Nat)       -- at the head of the loop of `workload_queues_cond_signal`
  | signal (i : Nat)
  | unlock (i : Nat)
  | join (i : Nat)
  | joined
deriving DecidableEq

inductive Party where
  | main
  | worker
deriving DecidableEq

/-- A queue with its mutex and condition variable, and with its worker. -/
structure GuardedQueue where
  log : QueueLog
  mutex : Option Party
  worker : PullPoint
deriving DecidableEq

structure Shutdown where
  hard : Bool
  main : MainPoint
  queues : Nat → GuardedQueue

/-! ## 2. The code -/

namespace GuardedQueue

def init : GuardedQueue := ⟨.init, none, .outside⟩

def goTo (q : GuardedQueue) (point : PullPoint) : GuardedQueue := { q with worker := point }

/-- `pthread_cond_signal` wakes the worker when it is blocked, and is lost otherwise. -/
def signal (q : GuardedQueue) : GuardedQueue := if q.worker = .blocked then q.goTo .woken else q

def lock (q : GuardedQueue) (party : Party) : Option GuardedQueue :=
  if q.mutex = none then some { q with mutex := some party } else none

def unlock (q : GuardedQueue) : GuardedQueue := { q with mutex := none }

/-- The next step of the worker. -/
def pullStep (hard : Bool) (q : GuardedQueue) : Option GuardedQueue :=
  match q.worker with
  | .outside | .woken => (q.lock .worker).map (·.goTo .test)
  | .test => some (q.goTo (if q.log.queue.nextIncoming.isSome then .take else .flagTest))
  | .flagTest => some (q.goTo (if hard then .take else .wait))
  | .wait => some (q.unlock.goTo .blocked)
  | .take => do
      let (msg, messages, queue) ← (workloadQueuePull q.log.messages q.log.queue).toOption
      let pulled := q.log.pulled ++ msg.toList
      some { q with log := ⟨messages, queue, q.log.added, pulled⟩, worker := .unlock msg }
  | .unlock msg => some (q.unlock.goTo (if msg.isSome then .outside else .exited))
  | .blocked | .exited => none

end GuardedQueue

namespace Shutdown

inductive Event where
  | worker (i : Nat)
  | spurious (i : Nat)                                     -- `pthread_cond_wait` may return so
  | hardSignal                                             -- the handler of the signal
  | handOver (i : Nat) (fd : Int) (buffer : List UInt8)    -- from the polling loop
  | leaveLoop
  | main

def start : Shutdown := ⟨false, .polling, fun _ => .init⟩

def setQueue (s : Shutdown) (i : Nat) (q : GuardedQueue) : Shutdown :=
  { s with queues := Function.update s.queues i q }

def goTo (s : Shutdown) (point : MainPoint) : Shutdown := { s with main := point }

/-- The next step of the main thread in a call of `workload_queue_add` or after the polling loop. -/
def mainStep (count : Nat) (s : Shutdown) : Option Shutdown :=
  match s.main with
  | .polling | .joined => none
  | .addLock i fd buffer => do
      let q ← (s.queues i).lock .main
      some ((s.setQueue i q).goTo (.addMessage i fd buffer))
  | .addMessage i fd buffer => do
      let log ← ((s.queues i).log.call (.add fd buffer)).toOption
      some ((s.setQueue i { s.queues i with log }).goTo (.addSignal i))
  | .addSignal i => some ((s.setQueue i (s.queues i).signal).goTo (.addUnlock i))
  | .addUnlock i => some ((s.setQueue i (s.queues i).unlock).goTo .polling)
  | .shutdownHard => some { s with hard := true, main := .lock 0 }
  | .lock i =>
      if i < count then do
        let q ← (s.queues i).lock .main
        some ((s.setQueue i q).goTo (.signal i))
      else
        some (s.goTo (.join 0))
  | .signal i => some ((s.setQueue i (s.queues i).signal).goTo (.unlock i))
  | .unlock i => some ((s.setQueue i (s.queues i).unlock).goTo (.lock (i + 1)))
  | .join i =>
      if i < count then
        if (s.queues i).worker = .exited then some (s.goTo (.join (i + 1))) else none
      else
        some (s.goTo .joined)

def next (count : Nat) (s : Shutdown) : Event → Option Shutdown
  | .worker i =>
      if i < count then ((s.queues i).pullStep s.hard).map (s.setQueue i) else none
  | .spurious i =>
      if (s.queues i).worker = .blocked then some (s.setQueue i ((s.queues i).goTo .woken))
      else none
  | .hardSignal => some { s with hard := true }
  | .handOver i fd buffer =>
      if s.main = .polling ∧ i < count then some (s.goTo (.addLock i fd buffer)) else none
  | .leaveLoop => if s.main = .polling then some (s.goTo .shutdownHard) else none
  | .main => s.mainStep count

def Runs (count : Nat) (tr : List (Shutdown × Event)) (s : Shutdown) : Prop :=
  Run (fun s event s' => s.next count event = some s') start tr s

end Shutdown

/-! ## 3. Who holds a mutex -/

namespace MainPoint

/-- The queue whose mutex the main thread holds. -/
def holding : MainPoint → Option Nat
  | .addMessage i _ _ | .addSignal i | .addUnlock i | .signal i | .unlock i => some i
  | .polling | .addLock _ _ _ | .shutdownHard | .lock _ | .join _ | .joined => none

/-- The main thread has set the flag. -/
def shuttingDown : MainPoint → Bool
  | .lock _ | .signal _ | .unlock _ | .join _ | .joined => true
  | .polling | .addLock _ _ _ | .addMessage _ _ _ | .addSignal _ | .addUnlock _
  | .shutdownHard => false

/-- The loop of `workload_queues_cond_signal` has signalled the queue `i`. -/
def signalled (i : Nat) : MainPoint → Prop
  | .lock j | .signal j => i < j
  | .unlock j => i ≤ j
  | .join _ | .joined => True
  | .polling | .addLock _ _ _ | .addMessage _ _ _ | .addSignal _ | .addUnlock _
  | .shutdownHard => False

/-- The loop has finished. -/
def allSignalled : MainPoint → Bool
  | .join _ | .joined => true
  | _ => false

theorem shuttingDown_of_signalled {i : Nat} {main : MainPoint} (h : main.signalled i) :
    main.shuttingDown = true := by
  cases main <;> first | rfl | exact False.elim h

end MainPoint

/-- What holds of the queue `i` while the main thread stands at `main`. -/
structure GuardedQueue.Inv (hard : Bool) (main : MainPoint) (i : Nat) (q : GuardedQueue) :
    Prop where
  byWorker : q.mutex = some .worker ↔ q.worker.holds = true
  byMain : q.mutex = some .main ↔ main.holding = some i
  /-- After the signal the worker does not go to sleep again. -/
  awake : main.signalled i → q.worker ≠ .wait ∧ q.worker ≠ .blocked
  take : q.worker = .take → q.log.queue.nextIncoming ≠ none ∨ hard = true
  null : q.worker = .unlock none → hard = true ∧ q.log.queue.nextIncoming = none
  exited : q.worker = .exited → hard = true

namespace GuardedQueue

variable {hard : Bool} {main main' : MainPoint} {i : Nat} {q q' : GuardedQueue}

theorem inv_init : Inv false .polling i init := by
  constructor <;> simp [init, PullPoint.holds, MainPoint.holding, MainPoint.signalled]

theorem lock_eq_some {party : Party} :
    q.lock party = some q' ↔ q.mutex = none ∧ q' = { q with mutex := some party } := by
  unfold lock
  split
  · simp [*, eq_comm]
  · simp [*]

theorem workloadQueuePull_null {messages messages' : Heap Message} {queue queue' : WorkloadQueue}
    (hx : workloadQueuePull messages queue = .ok (none, messages', queue')) :
    queue.nextIncoming = none ∧ messages' = messages ∧ queue' = queue := by
  unfold workloadQueuePull at hx
  split at hx
  · rename_i hnull
    cases hx
    exact ⟨hnull, rfl, rfl⟩
  · obtain ⟨message, -, hx⟩ := Exec.bind_eq_ok.mp hx
    obtain ⟨messages, -, hx⟩ := Exec.bind_eq_ok.mp hx
    cases hx

/-- The worker has locked the mutex and is at the head of the loop. -/
theorem Inv.locked (h : Inv hard main i q) (hfree : q.mutex = none) :
    Inv hard main i { q with mutex := some .worker, worker := .test } := by
  refine ⟨⟨fun _ => rfl, fun _ => rfl⟩, ⟨nofun, fun hmain => ?_⟩, fun _ => ⟨nofun, nofun⟩, nofun,
    nofun, nofun⟩
  have hheld := h.byMain.mpr hmain
  rw [hfree] at hheld
  cases hheld

/-- The worker has the mutex and keeps it. -/
theorem Inv.kept (h : Inv hard main i q) (hheld : q.worker.holds = true) {log : QueueLog}
    {point : PullPoint} (hholds : point.holds = true)
    (hwait : main.signalled i → point ≠ .wait)
    (htake : point = .take → log.queue.nextIncoming ≠ none ∨ hard = true)
    (hnull : point = .unlock none → hard = true ∧ log.queue.nextIncoming = none) :
    Inv hard main i { q with log, worker := point } := by
  have hmutex := h.byWorker.mpr hheld
  refine ⟨⟨fun _ => hholds, fun _ => hmutex⟩, h.byMain, fun hsignalled => ⟨hwait hsignalled, ?_⟩,
    htake, hnull, ?_⟩
  · rintro rfl
    cases hholds
  · rintro rfl
    cases hholds

/-- The worker has the mutex and gives it up. -/
theorem Inv.released (h : Inv hard main i q) (hheld : q.worker.holds = true) {point : PullPoint}
    (hholds : point.holds = false) (hblocked : main.signalled i → point ≠ .blocked)
    (hexited : point = .exited → hard = true) :
    Inv hard main i (q.unlock.goTo point) := by
  have hmutex := h.byWorker.mpr hheld
  refine ⟨⟨nofun, fun hpoint => ?_⟩, ⟨nofun, fun hmain => ?_⟩,
    fun hsignalled => ⟨?_, hblocked hsignalled⟩, ?_, ?_, hexited⟩
  · exact absurd (hholds.symm.trans hpoint) nofun
  · exact absurd (hmutex.symm.trans (h.byMain.mpr hmain)) nofun
  · rintro (rfl : point = .wait)
    cases hholds
  · rintro (rfl : point = .take)
    cases hholds
  · rintro (rfl : point = .unlock none)
    cases hholds

theorem Inv.pullStep (h : Inv hard main i q) (hflag : main.shuttingDown = true → hard = true)
    (hx : q.pullStep hard = some q') : Inv hard main i q' := by
  unfold GuardedQueue.pullStep at hx
  split at hx
  · obtain ⟨q₁, hlock, rfl⟩ := Option.map_eq_some_iff.mp hx
    obtain ⟨hfree, rfl⟩ := lock_eq_some.mp hlock
    exact h.locked hfree
  · obtain ⟨q₁, hlock, rfl⟩ := Option.map_eq_some_iff.mp hx
    obtain ⟨hfree, rfl⟩ := lock_eq_some.mp hlock
    exact h.locked hfree
  · rename_i hat
    cases hx
    have hheld : q.worker.holds = true := by rw [hat]; rfl
    split
    · rename_i hsome
      exact h.kept hheld rfl (fun _ => nofun)
        (fun _ => Or.inl (Option.isSome_iff_ne_none.mp hsome)) nofun
    · exact h.kept hheld rfl (fun _ => nofun) nofun nofun
  · rename_i hat
    cases hx
    have hheld : q.worker.holds = true := by rw [hat]; rfl
    split
    · exact h.kept hheld rfl (fun _ => nofun) (fun _ => Or.inr ‹_›) nofun
    · -- the flag was set before the signal
      rename_i hclear
      exact h.kept hheld rfl
        (fun hsignalled => absurd (hflag (MainPoint.shuttingDown_of_signalled hsignalled)) hclear)
        nofun nofun
  · rename_i hat
    cases hx
    have hheld : q.worker.holds = true := by rw [hat]; rfl
    exact h.released hheld rfl (fun hsignalled => absurd hat (h.awake hsignalled).1) nofun
  · rename_i hat
    obtain ⟨⟨msg, messages, queue⟩, hpull, hx⟩ := Option.bind_eq_some_iff.mp hx
    cases hx
    have hheld : q.worker.holds = true := by rw [hat]; rfl
    refine h.kept hheld rfl (fun _ => nofun) nofun fun hnull => ?_
    obtain rfl : msg = none := PullPoint.unlock.inj hnull
    obtain ⟨hempty, -, rfl⟩ := workloadQueuePull_null (Exec.toOption_eq_some.mp hpull)
    exact ⟨(h.take hat).resolve_left fun hne => hne hempty, hempty⟩
  · rename_i msg hat
    cases hx
    have hheld : q.worker.holds = true := by rw [hat]; rfl
    cases msg with
    | none => exact h.released hheld rfl (fun _ => nofun) fun _ => (h.null hat).1
    | some a => exact h.released hheld rfl (fun _ => nofun) nofun
  · cases hx
  · cases hx

/-- The worker has no part in what happens to the queue. -/
theorem Inv.idle (hholds : q.worker.holds = false)
    (hmutex : q.mutex = some .main ∧ main.holding = some i ∨
      q.mutex = none ∧ main.holding ≠ some i)
    (hawake : main.signalled i → q.worker ≠ .blocked) (hexited : q.worker = .exited → hard = true) :
    Inv hard main i q := by
  have hnot : ∀ {point : PullPoint}, point.holds = true → q.worker ≠ point := fun hpoint hat => by
    rw [hat, hpoint] at hholds
    cases hholds
  refine ⟨?_, ?_, fun hsignalled => ⟨hnot rfl, hawake hsignalled⟩, fun hat => absurd hat (hnot rfl),
    fun hat => absurd hat (hnot rfl), hexited⟩
  · rcases hmutex with ⟨hmutex, -⟩ | ⟨hmutex, -⟩ <;> simp [hmutex, hholds]
  · rcases hmutex with ⟨hmutex, hmain⟩ | ⟨hmutex, hmain⟩ <;> simp [hmutex, hmain]

theorem Inv.holds_of_main (h : Inv hard main i q) (hmain : main.holding = some i) :
    q.worker.holds = false := by
  rw [← Bool.not_eq_true, ← h.byWorker, h.byMain.mpr hmain]
  nofun

theorem Inv.lockMain (h : Inv hard main i q) (hfree : q.mutex = none)
    (hmain : main'.holding = some i) (hsignalled : main'.signalled i → main.signalled i) :
    Inv hard main' i { q with mutex := some .main } := by
  refine .idle ?_ (Or.inl ⟨rfl, hmain⟩) (fun h' => (h.awake (hsignalled h')).2) h.exited
  show q.worker.holds = false
  rw [← Bool.not_eq_true, ← h.byWorker, hfree]
  nofun

theorem Inv.add (h : Inv hard main i q) (hheld : main.holding = some i)
    (hmain : main'.holding = some i) (hsignalled : main'.signalled i → main.signalled i)
    (log : QueueLog) : Inv hard main' i { q with log } :=
  .idle (h.holds_of_main hheld) (Or.inl ⟨h.byMain.mpr hheld, hmain⟩)
    (fun h' => (h.awake (hsignalled h')).2) h.exited

theorem Inv.signal (h : Inv hard main i q) (hheld : main.holding = some i)
    (hmain : main'.holding = some i) : Inv hard main' i q.signal := by
  have hholds := h.holds_of_main hheld
  have hmutex := h.byMain.mpr hheld
  unfold GuardedQueue.signal
  split
  · exact .idle rfl (Or.inl ⟨hmutex, hmain⟩) (fun _ => nofun) nofun
  · exact .idle hholds (Or.inl ⟨hmutex, hmain⟩) (fun _ => ‹_›) h.exited

theorem Inv.unlockMain (h : Inv hard main i q) (hheld : main.holding = some i)
    (hmain : main'.holding = none) (hsignalled : main'.signalled i → main.signalled i) :
    Inv hard main' i q.unlock :=
  .idle (h.holds_of_main hheld) (Or.inr ⟨rfl, by simp [hmain]⟩)
    (fun h' => (h.awake (hsignalled h')).2) h.exited

theorem Inv.woken (h : Inv hard main i q) (hat : q.worker = .blocked) :
    Inv hard main i (q.goTo .woken) := by
  have hholds : q.worker.holds = false := by rw [hat]; rfl
  refine ⟨?_, h.byMain, fun _ => ⟨nofun, nofun⟩, nofun, nofun, nofun⟩
  rw [show (q.goTo .woken).mutex = q.mutex from rfl, h.byWorker, hholds]
  rfl

/-- The main thread is busy elsewhere. -/
theorem Inv.elsewhere {hard' : Bool} (h : Inv hard main i q) (hhard : hard = true → hard' = true)
    (hholding : main'.holding = some i ↔ main.holding = some i)
    (hsignalled : main'.signalled i → main.signalled i) : Inv hard' main' i q where
  byWorker := h.byWorker
  byMain := h.byMain.trans hholding.symm
  awake h' := h.awake (hsignalled h')
  take hat := (h.take hat).imp_right hhard
  null hat := ⟨hhard (h.null hat).1, (h.null hat).2⟩
  exited hat := hhard (h.exited hat)

end GuardedQueue

/-! ## 4. The threads together -/

namespace Shutdown

structure Inv (count : Nat) (s : Shutdown) : Prop where
  flag : s.main.shuttingDown = true → s.hard = true
  queues : ∀ i < count, (s.queues i).Inv s.hard s.main i

variable {count i : Nat} {s s' : Shutdown} {tr : List (Shutdown × Event)}

theorem inv_start : Inv count start := ⟨nofun, fun _ _ => GuardedQueue.inv_init⟩

/-- The main thread or a worker takes a step at the queue `i`. -/
theorem Inv.setQueue (h : Inv count s) {q : GuardedQueue} {main : MainPoint}
    (hflag : main.shuttingDown = true → s.hard = true)
    (hq : (s.queues i).Inv s.hard s.main i → q.Inv s.hard main i)
    (hholding : ∀ j, j ≠ i → (main.holding = some j ↔ s.main.holding = some j))
    (hsignalled : ∀ j, j ≠ i → main.signalled j → s.main.signalled j) :
    Inv count ((s.setQueue i q).goTo main) := by
  refine ⟨hflag, fun j hj => ?_⟩
  show (Function.update s.queues i q j).Inv s.hard main j
  by_cases hij : j = i
  · subst hij
    rw [Function.update_self]
    exact hq (h.queues j hj)
  · rw [Function.update_of_ne hij]
    exact (h.queues j hj).elsewhere id (hholding j hij) (hsignalled j hij)

/-- The main thread goes on without a step at a queue. -/
theorem Inv.goTo (h : Inv count s) {hard : Bool} {main : MainPoint}
    (hflag : main.shuttingDown = true → hard = true) (hhard : s.hard = true → hard = true)
    (hholding : main.holding = s.main.holding)
    (hsignalled : ∀ j < count, main.signalled j → s.main.signalled j) :
    Inv count { s with hard, main } :=
  ⟨hflag, fun j hj => (h.queues j hj).elsewhere hhard (by rw [hholding]) (hsignalled j hj)⟩

theorem Inv.lockQueue (h : Inv count s) {q : GuardedQueue} {main : MainPoint}
    (hlock : (s.queues i).lock .main = some q) (hfrom : s.main.holding = none)
    (hto : main.holding = some i) (hflag : main.shuttingDown = true → s.hard = true)
    (hsignalled : ∀ j, main.signalled j → s.main.signalled j) :
    Inv count ((s.setQueue i q).goTo main) := by
  obtain ⟨hfree, rfl⟩ := GuardedQueue.lock_eq_some.mp hlock
  refine h.setQueue hflag (fun hq => hq.lockMain hfree hto (hsignalled i)) (fun j hj => ?_)
    fun j _ => hsignalled j
  simp [hfrom, hto, Ne.symm hj]

/-- Only the queue that gets the signal counts as signalled from now on. -/
theorem Inv.signalQueue (h : Inv count s) {main : MainPoint} (hfrom : s.main.holding = some i)
    (hto : main.holding = some i) (hflag : main.shuttingDown = true → s.hard = true)
    (hsignalled : ∀ j, j ≠ i → main.signalled j → s.main.signalled j) :
    Inv count ((s.setQueue i (s.queues i).signal).goTo main) := by
  refine h.setQueue hflag (fun hq => hq.signal hfrom hto) (fun j _ => ?_) hsignalled
  rw [hfrom, hto]

theorem Inv.unlockQueue (h : Inv count s) {main : MainPoint} (hfrom : s.main.holding = some i)
    (hto : main.holding = none) (hflag : main.shuttingDown = true → s.hard = true)
    (hsignalled : ∀ j, main.signalled j → s.main.signalled j) :
    Inv count ((s.setQueue i (s.queues i).unlock).goTo main) := by
  refine h.setQueue hflag (fun hq => hq.unlockMain hfrom hto (hsignalled i)) (fun j hj => ?_)
    fun j _ => hsignalled j
  simp [hfrom, hto, Ne.symm hj]

theorem Inv.mainStep (h : Inv count s) (hx : s.mainStep count = some s') : Inv count s' := by
  unfold Shutdown.mainStep at hx
  split at hx
  · cases hx
  · cases hx
  · -- `workload_queue_add`: nothing is signalled for the shutdown, and the flag may be clear
    rename_i i fd buffer hat
    obtain ⟨q, hlock, hx⟩ := Option.bind_eq_some_iff.mp hx
    cases hx
    exact h.lockQueue hlock (by rw [hat]; rfl) rfl nofun fun _ => nofun
  · rename_i i fd buffer hat
    obtain ⟨log, -, hx⟩ := Option.bind_eq_some_iff.mp hx
    cases hx
    have hheld : s.main.holding = some i := by rw [hat]; rfl
    refine h.setQueue nofun (fun hq => hq.add hheld rfl False.elim log) (fun j _ => ?_)
      fun _ _ => nofun
    rw [hheld]
    rfl
  · rename_i i hat
    cases hx
    exact h.signalQueue (by rw [hat]; rfl) rfl nofun fun _ _ => nofun
  · rename_i i hat
    cases hx
    exact h.unlockQueue (by rw [hat]; rfl) rfl nofun fun _ => nofun
  · rename_i hat
    cases hx
    refine h.goTo (fun _ => rfl) (fun _ => rfl) (by rw [hat]; rfl) fun j _ hlt => ?_
    exact absurd hlt (Nat.not_lt_zero j)
  · -- the loop of `workload_queues_cond_signal`, after the flag was set
    rename_i i hat
    have hflag : s.hard = true := h.flag (by rw [hat]; rfl)
    split at hx
    · obtain ⟨q, hlock, hx⟩ := Option.bind_eq_some_iff.mp hx
      cases hx
      refine h.lockQueue hlock (by rw [hat]; rfl) rfl (fun _ => hflag) fun j hlt => ?_
      rw [hat]
      exact hlt
    · -- every queue was signalled
      rename_i hend
      cases hx
      refine h.goTo (fun _ => hflag) id (by rw [hat]; rfl) fun j hj _ => ?_
      rw [hat]
      show j < i
      omega
  · rename_i i hat
    cases hx
    refine h.signalQueue (by rw [hat]; rfl) rfl (fun _ => h.flag (by rw [hat]; rfl))
      fun j hj hle => ?_
    rw [hat]
    exact Nat.lt_of_le_of_ne hle hj
  · rename_i i hat
    cases hx
    refine h.unlockQueue (by rw [hat]; rfl) rfl (fun _ => h.flag (by rw [hat]; rfl))
      fun j hlt => ?_
    rw [hat]
    exact Nat.le_of_lt_succ hlt
  · rename_i i hat
    have hflag : s.hard = true := h.flag (by rw [hat]; rfl)
    have hsignalled : ∀ j, s.main.signalled j := fun j => by rw [hat]; trivial
    split at hx
    · split at hx
      · cases hx
        exact h.goTo (fun _ => hflag) id (by rw [hat]; rfl) fun j _ _ => hsignalled j
      · cases hx
    · cases hx
      exact h.goTo (fun _ => hflag) id (by rw [hat]; rfl) fun j _ _ => hsignalled j

theorem Inv.next {event : Event} (h : Inv count s) (hx : s.next count event = some s') :
    Inv count s' := by
  unfold Shutdown.next at hx
  split at hx
  · split at hx
    · obtain ⟨q, hpull, rfl⟩ := Option.map_eq_some_iff.mp hx
      exact h.setQueue h.flag (fun hq => hq.pullStep h.flag hpull) (fun _ _ => Iff.rfl)
        fun _ _ => id
    · cases hx
  · split at hx
    · rename_i hblocked
      cases hx
      exact h.setQueue h.flag (fun hq => hq.woken hblocked) (fun _ _ => Iff.rfl) fun _ _ => id
    · cases hx
  · cases hx
    exact h.goTo (fun _ => rfl) (fun _ => rfl) rfl fun _ _ => id
  · split at hx
    · rename_i hguard
      cases hx
      exact h.goTo nofun id (by rw [hguard.1]; rfl) fun _ _ => nofun
    · cases hx
  · split at hx
    · rename_i hat
      cases hx
      exact h.goTo nofun id (by rw [hat]; rfl) fun _ _ => nofun
    · cases hx
  · exact h.mainStep hx

theorem Runs.inv (run : Runs count tr s) : Inv count s :=
  run.invariant (Inv count) (fun _ _ => True) inv_start (fun _ _ _ h _ hx => h.next hx)
    fun _ _ => trivial

/-- No worker sleeps through the shutdown, and only the shutdown gives a worker `NULL`. -/
theorem no_lost_wakeup (run : Runs count tr s) :
    (s.main.allSignalled = true → ∀ i < count, (s.queues i).worker ≠ .blocked) ∧
      (∀ i < count, (s.queues i).worker = .unlock none →
        s.hard = true ∧ (s.queues i).log.queue.nextIncoming = none) ∧
      ∀ i < count, (s.queues i).worker = .exited → s.hard = true := by
  have hinv := run.inv
  refine ⟨fun hall i hi => ((hinv.queues i hi).awake ?_).2, fun i hi => (hinv.queues i hi).null,
    fun i hi => (hinv.queues i hi).exited⟩
  cases hmain : s.main with
  | join | joined => trivial
  | _ => rw [hmain] at hall; cases hall

theorem runs_of_events (count : Nat) (events : List Event) (test : Shutdown → Bool)
    (hx : (replay (next count) start events).any (fun x => test x.2) = true) :
    ∃ tr s, Runs count tr s ∧ test s = true := by
  obtain ⟨x, hreplay, htest⟩ := (Option.any_eq_true _ _).mp hx
  exact ⟨x.1, x.2, Run.of_replay (fun _ _ _ h => h) hreplay, htest⟩

/-- Worker 0 is asleep when the flag is set, worker 1 finds the flag set before its signal. -/
theorem no_lost_wakeup_two : ∃ tr s, Runs 2 tr s ∧ s.main = .join 0 ∧
    (s.queues 0).worker = .unlock none ∧ (s.queues 1).worker = .exited ∧
      (∀ i < 2, (s.queues i).worker ≠ .blocked) ∧ s.hard = true ∧
        (s.queues 0).log.queue.nextIncoming = none := by
  obtain ⟨tr, s, run, htest⟩ := runs_of_events 2
    [.worker 0, .worker 0, .worker 0, .worker 0, .leaveLoop, .main,
      .worker 1, .worker 1, .worker 1, .worker 1, .main, .main, .main,
      .worker 0, .worker 0, .worker 0, .worker 0, .worker 1, .main, .main, .main, .main]
    (fun s => s.main == .join 0 && (s.queues 0).worker == .unlock none &&
      (s.queues 1).worker == .exited) (by decide)
  simp only [Bool.and_eq_true, beq_iff_eq] at htest
  obtain ⟨⟨hjoin, hnull⟩, hexited⟩ := htest
  obtain ⟨hawake, hall, -⟩ := no_lost_wakeup run
  exact ⟨tr, s, run, hjoin, hnull, hexited, hawake (by rw [hjoin]; rfl),
    hall 0 (by decide) hnull⟩

/-! ## 5. The queues under the threads -/

theorem pullStep_log {hard : Bool} {q q' : GuardedQueue} (hx : q.pullStep hard = some q') :
    q'.log = q.log ∨ queueStep q.log .pull q'.log := by
  unfold GuardedQueue.pullStep at hx
  split at hx
  · obtain ⟨q₁, hlock, rfl⟩ := Option.map_eq_some_iff.mp hx
    obtain ⟨-, rfl⟩ := GuardedQueue.lock_eq_some.mp hlock
    exact Or.inl rfl
  · obtain ⟨q₁, hlock, rfl⟩ := Option.map_eq_some_iff.mp hx
    obtain ⟨-, rfl⟩ := GuardedQueue.lock_eq_some.mp hlock
    exact Or.inl rfl
  · cases hx
    exact Or.inl rfl
  · cases hx
    exact Or.inl rfl
  · cases hx
    exact Or.inl rfl
  · obtain ⟨⟨msg, messages, queue⟩, hpull, hx⟩ := Option.bind_eq_some_iff.mp hx
    cases hx
    have hpull := Exec.toOption_eq_some.mp hpull
    cases msg with
    | none =>
      obtain ⟨-, rfl, rfl⟩ := GuardedQueue.workloadQueuePull_null hpull
      left
      simp
    | some a =>
      right
      simp [queueStep, QueueLog.call, hpull]
  · cases hx
    exact Or.inl rfl
  · cases hx
  · cases hx

/-- A call on the queue, or nothing. -/
def Calls (log log' : QueueLog) : Prop := log' = log ∨ ∃ c, queueStep log c log'

theorem calls_setQueue {q : GuardedQueue} (hq : Calls (s.queues i).log q.log) (j : Nat) :
    Calls (s.queues j).log ((s.setQueue i q).queues j).log := by
  show Calls _ (Function.update s.queues i q j).log
  by_cases hij : j = i
  · subst hij
    rwa [Function.update_self]
  · rw [Function.update_of_ne hij]
    exact Or.inl rfl

theorem calls_signal {q : GuardedQueue} : Calls q.log q.signal.log := by
  unfold GuardedQueue.signal
  split <;> exact Or.inl rfl

theorem calls_lock {q q' : GuardedQueue} {party : Party} (hx : q.lock party = some q') :
    Calls q.log q'.log := by
  obtain ⟨-, rfl⟩ := GuardedQueue.lock_eq_some.mp hx
  exact Or.inl rfl

theorem calls_mainStep (hx : s.mainStep count = some s') (j : Nat) :
    Calls (s.queues j).log (s'.queues j).log := by
  unfold mainStep at hx
  split at hx
  · cases hx
  · cases hx
  · obtain ⟨q, hlock, hx⟩ := Option.bind_eq_some_iff.mp hx
    cases hx
    exact calls_setQueue (calls_lock hlock) j
  · obtain ⟨log, hadd, hx⟩ := Option.bind_eq_some_iff.mp hx
    cases hx
    exact calls_setQueue (Or.inr ⟨_, Exec.toOption_eq_some.mp hadd⟩) j
  · cases hx
    exact calls_setQueue calls_signal j
  · cases hx
    exact calls_setQueue (q := (s.queues _).unlock) (Or.inl rfl) j
  · cases hx
    exact Or.inl rfl
  · split at hx
    · obtain ⟨q, hlock, hx⟩ := Option.bind_eq_some_iff.mp hx
      cases hx
      exact calls_setQueue (calls_lock hlock) j
    · cases hx
      exact Or.inl rfl
  · cases hx
    exact calls_setQueue calls_signal j
  · cases hx
    exact calls_setQueue (q := (s.queues _).unlock) (Or.inl rfl) j
  · split at hx
    · split at hx
      · cases hx
        exact Or.inl rfl
      · cases hx
    · cases hx
      exact Or.inl rfl

theorem calls_next {event : Event} (hx : s.next count event = some s') (j : Nat) :
    Calls (s.queues j).log (s'.queues j).log := by
  unfold next at hx
  split at hx
  · split at hx
    · obtain ⟨q, hpull, rfl⟩ := Option.map_eq_some_iff.mp hx
      exact calls_setQueue ((pullStep_log hpull).imp_right fun h => ⟨_, h⟩) j
    · cases hx
  · split at hx
    · cases hx
      exact calls_setQueue (q := (s.queues _).goTo .woken) (Or.inl rfl) j
    · cases hx
  · cases hx
    exact Or.inl rfl
  · split at hx
    · cases hx
      exact Or.inl rfl
    · cases hx
  · split at hx
    · cases hx
      exact Or.inl rfl
    · cases hx
  · exact calls_mainStep hx j

/-- Under the threads each queue runs as it does on its own. -/
theorem Runs.queue (run : Runs count tr s) (i : Nat) :
    ∃ tr', Run queueStep .init tr' (s.queues i).log := by
  induction run with
  | nil => exact ⟨[], .nil⟩
  | snoc run next ih =>
    obtain ⟨tr', run'⟩ := ih
    rcases calls_next next i with hsame | ⟨c, hcall⟩
    · exact ⟨tr', hsame ▸ run'⟩
    · exact ⟨_, .snoc run' hcall⟩

theorem Runs.pull (run : Runs count tr s) (i : Nat) :
    ∃ r, workloadQueuePull (s.queues i).log.messages (s.queues i).log.queue = .ok r := by
  obtain ⟨tr', run'⟩ := run.queue i
  cases hfront : (s.queues i).log.queue.nextIncoming with
  | none =>
    refine ⟨(none, (s.queues i).log.messages, (s.queues i).log.queue), ?_⟩
    simp only [workloadQueuePull, hfront]
  | some a =>
    obtain ⟨log, hcall, -⟩ := QueueLog.call_pull (queue_accounts run').1 hfront
    obtain ⟨r, hpull, -⟩ := Exec.bind_eq_ok.mp hcall
    exact ⟨r, hpull⟩

/-- While the main thread joins the workers, none of them is stuck at its queue. -/
theorem workers_go_on (run : Runs count tr s) {k : Nat} (hjoin : s.main = .join k)
    (hi : i < count) (hworker : (s.queues i).worker ≠ .exited) :
    ∃ s', s.next count (.worker i) = some s' := by
  have hinv := run.inv.queues i hi
  have hblocked := (no_lost_wakeup run).1 (by rw [hjoin]; rfl) i hi
  have hnotMain : (s.queues i).mutex ≠ some .main := fun h => by
    have hmain := hinv.byMain.mp h
    rw [hjoin] at hmain
    cases hmain
  suffices h : ∃ q, (s.queues i).pullStep s.hard = some q by
    obtain ⟨q, hpull⟩ := h
    exact ⟨s.setQueue i q, by simp only [next, if_pos hi, hpull, Option.map_some]⟩
  have hlock : (s.queues i).worker.holds = false →
      ∃ q, ((s.queues i).lock .worker).map (·.goTo .test) = some q := fun hholds => by
    have hfree : (s.queues i).mutex = none := by
      cases hmutex : (s.queues i).mutex with
      | none => rfl
      | some party =>
        cases party with
        | main => exact absurd hmutex hnotMain
        | worker => exact absurd (hinv.byWorker.mp hmutex) (by simp [hholds])
    exact ⟨{ s.queues i with mutex := some .worker, worker := .test }, by
      simp only [GuardedQueue.lock, if_pos hfree, Option.map_some]
      rfl⟩
  unfold GuardedQueue.pullStep
  cases hat : (s.queues i).worker with
  | outside | woken => exact hlock (by rw [hat]; rfl)
  | test | flagTest | wait | unlock => exact ⟨_, rfl⟩
  | take =>
    obtain ⟨r, hpull⟩ := run.pull i
    exact ⟨_, by rw [hpull]; rfl⟩
  | blocked => exact absurd hat hblocked
  | exited => exact absurd hat hworker

end Shutdown

end FileStorage.Server
