import FileStorage.Exec
import FileStorage.Memory.Path
import FileStorage.Run

/-!
# WorkloadQueue — the messages between the receiver and one worker

A queue is a chain of messages with a pointer to each end.  `workload_queue_add` moves the front
pointer to the new message even when older ones are waiting.
-/

namespace FileStorage.Server

open Memory

/-! ## 1. The code -/

structure Message where
  fd : Int
  buffer : List UInt8
  next : Ptr
deriving DecidableEq

structure WorkloadQueue where
  nextIncoming : Ptr
  lastIncoming : Ptr
deriving DecidableEq

/-- Each queue after `workload_queues_init`. -/
def WorkloadQueue.init : WorkloadQueue := ⟨none, none⟩

def workloadQueueAdd (messages : Heap Message) (queue : WorkloadQueue) (msg : Addr) :
    Exec (Heap Message × WorkloadQueue) := do
  let message ← messages.load msg
  if message.next.isSome then
    throw .assertion
  -- also when other messages are waiting
  let queue := { queue with nextIncoming := some msg }
  match queue.lastIncoming with
  | some last => do
      let messages ← messages.store last fun message => { message with next := some msg }
      return (messages, { queue with lastIncoming := some msg })
  | none => return (messages, { nextIncoming := some msg, lastIncoming := some msg })

/-- An empty queue gives `NULL`, which happens on shutdown only. -/
def workloadQueuePull (messages : Heap Message) (queue : WorkloadQueue) :
    Exec (Ptr × Heap Message × WorkloadQueue) :=
  match queue.nextIncoming with
  | none => .ok (none, messages, queue)
  | some msg => do
      let message ← messages.load msg
      let messages ← messages.store msg fun message => { message with next := none }
      -- `last_incoming` is left alone
      return (some msg, messages, { queue with nextIncoming := message.next })

/-! ## 2. Runs of one queue -/

/-- A queue with its messages; `added` and `pulled` are ghosts that record the calls. -/
structure QueueLog where
  messages : Heap Message
  queue : WorkloadQueue
  added : List Addr
  pulled : List Addr
deriving DecidableEq

def QueueLog.init : QueueLog := ⟨.empty, .init, [], []⟩

inductive QueueCall where
  | add (fd : Int) (buffer : List UInt8)
  | pull
deriving DecidableEq

def QueueCall.isAdd : QueueCall → Bool
  | .add _ _ => true
  | .pull => false

/-- A new message is allocated and added, as in `hand_over_buf_to_worker`; a pull waits until the
queue holds something. -/
def QueueLog.call (s : QueueLog) : QueueCall → Exec QueueLog
  | .add fd buffer => do
      let msg := s.messages.fresh
      let (messages, queue) ← workloadQueueAdd (s.messages.alloc ⟨fd, buffer, none⟩) s.queue msg
      return { messages, queue, added := s.added ++ [msg], pulled := s.pulled }
  | .pull => do
      match ← workloadQueuePull s.messages s.queue with
      | (none, _) => throw .diverge
      | (some msg, messages, queue) =>
          return { messages, queue, added := s.added, pulled := s.pulled ++ [msg] }

def queueStep (s : QueueLog) (c : QueueCall) (s' : QueueLog) : Prop := s.call c = .ok s'

/-- The messages still reachable from `next_incoming`, the front one first. -/
def QueueLog.waiting (s : QueueLog) : List Addr :=
  walk (s.messages.field Message.next) s.messages.fresh s.queue.nextIncoming

/-! ## 3. What the two calls do -/

/-- At most one message is reachable, and the back pointer is never stale. -/
structure QueueLog.Wf (s : QueueLog) : Prop where
  front : ∀ a, s.queue.nextIncoming = some a → s.messages.field Message.next a = some none
  back : ∀ a, s.queue.lastIncoming = some a → ∃ message, s.messages.read a = some message

namespace QueueLog

variable {s s' : QueueLog}

theorem wf_init : init.Wf := by
  constructor <;> exact fun a h => by cases h

theorem waiting_eq (h : s.Wf) : s.waiting = s.queue.nextIncoming.toList := by
  have hpath : Path (s.messages.field Message.next) s.queue.nextIncoming
      s.queue.nextIncoming.toList none := by
    cases hfront : s.queue.nextIncoming with
    | none => exact rfl
    | some a => exact ⟨rfl, none, h.front a hfront, rfl⟩
  refine hpath.walk_eq ?_
  cases hfront : s.queue.nextIncoming with
  | none => exact Nat.zero_le _
  | some a =>
    obtain ⟨message, hread, -⟩ := Heap.field_eq_some (h.front a hfront)
    exact Nat.lt_of_le_of_lt (Nat.zero_le _) (Heap.lt_fresh_of_read hread)

/-- Adding leaves the new message alone in the queue, whoever was waiting. -/
theorem call_add (h : s.Wf) (fd : Int) (buffer : List UInt8) :
    ∃ s', s.call (.add fd buffer) = .ok s' ∧ s'.Wf ∧
      s'.queue.nextIncoming = some s.messages.fresh ∧ s'.added = s.added ++ [s.messages.fresh] ∧
      s'.pulled = s.pulled := by
  set a := s.messages.fresh with ha
  have hnew : (s.messages.alloc ⟨fd, buffer, none⟩).read a = some ⟨fd, buffer, none⟩ := by
    rw [Heap.read_alloc, if_pos ha]
  cases hback : s.queue.lastIncoming with
  | none =>
    refine ⟨⟨s.messages.alloc ⟨fd, buffer, none⟩, ⟨some a, some a⟩, s.added ++ [a], s.pulled⟩,
      ?_, ⟨?_, ?_⟩, rfl, rfl, rfl⟩
    · simp only [call, workloadQueueAdd, Heap.load_of_read hnew, hback, ← ha]
      rfl
    · intro c hc
      obtain rfl := Option.some.inj hc
      exact Heap.field_eq_of_read hnew _
    · intro c hc
      obtain rfl := Option.some.inj hc
      exact ⟨_, hnew⟩
  | some last =>
    obtain ⟨message, hread⟩ := h.back last hback
    -- the back message was allocated before
    have hne : last ≠ a := fun heq => by
      rw [heq, ha, Heap.read_fresh] at hread
      cases hread
    have hlast : (s.messages.alloc ⟨fd, buffer, none⟩).read last = some message := by
      rw [Heap.read_alloc, if_neg hne, hread]
    have hnew' : ((s.messages.alloc ⟨fd, buffer, none⟩).modify last fun message =>
        { message with next := some a }).read a = some ⟨fd, buffer, none⟩ := by
      rw [Heap.read_modify_of_ne _ _ hne, hnew]
    refine ⟨⟨(s.messages.alloc ⟨fd, buffer, none⟩).modify last fun message =>
        { message with next := some a }, ⟨some a, some a⟩, s.added ++ [a], s.pulled⟩,
      ?_, ⟨?_, ?_⟩, rfl, rfl, rfl⟩
    · simp only [call, workloadQueueAdd, Heap.load_of_read hnew, hback, Exec.ok_bind,
        Heap.store_of_read hlast, ← ha]
      rfl
    · intro c hc
      obtain rfl := Option.some.inj hc
      exact Heap.field_eq_of_read hnew' _
    · intro c hc
      obtain rfl := Option.some.inj hc
      exact ⟨_, hnew'⟩

/-- Pulling takes the message in front and leaves the queue empty. -/
theorem call_pull (h : s.Wf) {a : Addr} (hfront : s.queue.nextIncoming = some a) :
    ∃ s', s.call .pull = .ok s' ∧ s'.Wf ∧ s'.queue.nextIncoming = none ∧ s'.added = s.added ∧
      s'.pulled = s.pulled ++ [a] := by
  obtain ⟨message, hread, hnext⟩ := Heap.field_eq_some (h.front a hfront)
  refine ⟨⟨s.messages.modify a fun message => { message with next := none },
    { s.queue with nextIncoming := message.next }, s.added, s.pulled ++ [a]⟩,
    ?_, ⟨?_, ?_⟩, hnext, rfl, rfl⟩
  · simp only [call, workloadQueuePull, hfront, Heap.load_of_read hread, Exec.ok_bind,
      Heap.store_of_read hread]
    rfl
  · intro c hc
    rw [hnext] at hc
    cases hc
  · intro c hc
    obtain ⟨old, hold⟩ := h.back c hc
    rw [Heap.read_modify, hold]
    split <;> exact ⟨_, rfl⟩

theorem call_pull_empty (hfront : s.queue.nextIncoming = none) :
    s.call .pull = .error .diverge := by
  simp [call, workloadQueuePull, hfront]

end QueueLog

/-! ## 4. Accounting -/

/-- A passed test of the calls from `workload_queues_init` on is about a real run. -/
theorem queue_replayed (calls : List QueueCall)
    (test : List (QueueLog × QueueCall) → QueueLog → Bool)
    (hx : (replay (fun s c => (QueueLog.call s c).toOption) .init calls).any
      (fun r => test r.1 r.2) = true) :
    ∃ tr s, Run queueStep .init tr s ∧ test tr s = true := by
  cases hr : replay (fun s c => (QueueLog.call s c).toOption) .init calls with
  | none => simp [hr] at hx
  | some r =>
    refine ⟨r.1, r.2, Run.of_replay ?_ hr, by simpa [hr] using hx⟩
    exact fun s c s' hnext => Exec.toOption_eq_some.mp hnext

/-- How many of the adds found a message waiting. -/
def overtaken (tr : List (QueueLog × QueueCall)) : Nat :=
  tr.countP fun x => x.2.isAdd && x.1.queue.nextIncoming.isSome

/-- Each such add loses the message that was waiting; without one nothing is lost. -/
theorem queue_accounts {tr : List (QueueLog × QueueCall)} {s : QueueLog}
    (run : Run queueStep .init tr s) :
    s.Wf ∧ s.added.length =
        s.pulled.length + s.queue.nextIncoming.toList.length + overtaken tr ∧
      (overtaken tr = 0 → s.pulled ++ s.queue.nextIncoming.toList = s.added) := by
  induction run with
  | nil => exact ⟨QueueLog.wf_init, rfl, fun _ => rfl⟩
  | snoc run next ih =>
    rename_i tr s s' c
    obtain ⟨hwf, hlen, hexact⟩ := ih
    have hcount : overtaken (tr ++ [(s, c)]) =
        overtaken tr + if c.isAdd && s.queue.nextIncoming.isSome then 1 else 0 := by
      rw [overtaken, List.countP_append, List.countP_singleton]
      rfl
    cases c with
    | add fd buffer =>
      -- the new message is in front; one that was waiting is lost and counted
      obtain ⟨s₁, hcall, hwf', hfront, hadded, hpulled⟩ := QueueLog.call_add hwf fd buffer
      obtain rfl : s₁ = s' := Except.ok.inj (hcall.symm.trans next)
      refine ⟨hwf', ?_, ?_⟩
      · rw [hcount, hadded, hpulled, hfront]
        cases hold : s.queue.nextIncoming <;> simp [QueueCall.isAdd, hold] at hlen ⊢ <;> omega
      · intro hzero
        rw [hcount] at hzero
        have hempty : s.queue.nextIncoming = none := by
          cases hold : s.queue.nextIncoming with
          | none => rfl
          | some a => simp [QueueCall.isAdd, hold] at hzero
        have hold := hexact (by omega)
        rw [hempty, Option.toList_none, List.append_nil] at hold
        rw [hpulled, hfront, hadded, hold]
        rfl
    | pull =>
      cases hold : s.queue.nextIncoming with
      | none =>
        rw [queueStep, QueueLog.call_pull_empty hold] at next
        cases next
      | some a =>
        obtain ⟨s₁, hcall, hwf', hfront, hadded, hpulled⟩ := QueueLog.call_pull hwf hold
        obtain rfl : s₁ = s' := Except.ok.inj (hcall.symm.trans next)
        rw [hold] at hlen hexact
        have hcount' : overtaken (tr ++ [(s, .pull)]) = overtaken tr := hcount
        refine ⟨hwf', ?_, ?_⟩
        · rw [hcount', hadded, hpulled, hfront, hlen]
          simp
        · intro hzero
          rw [hpulled, hfront, hadded, ← hexact (hcount' ▸ hzero)]
          simp

/-- The messages pulled and then the ones waiting are the messages added, in their order, exactly
when every add of the run found the queue empty. -/
theorem queue_delivers_iff {tr : List (QueueLog × QueueCall)} {s : QueueLog}
    (run : Run queueStep .init tr s) :
    s.pulled ++ s.waiting = s.added ↔
      ∀ x ∈ tr, x.2.isAdd → x.1.queue.nextIncoming = none := by
  obtain ⟨hwf, hlen, hexact⟩ := queue_accounts run
  have hzero : overtaken tr = 0 ↔ ∀ x ∈ tr, x.2.isAdd → x.1.queue.nextIncoming = none := by
    rw [overtaken, List.countP_eq_zero]
    simp
  rw [QueueLog.waiting_eq hwf, ← hzero]
  constructor
  · intro hall
    have hsum := congrArg List.length hall
    rw [List.length_append] at hsum
    omega
  · exact hexact

/-- Taking turns, one message after the other arrives. -/
theorem queue_delivers_in_turns :
    ∃ tr s, Run queueStep .init tr s ∧ s.added.length = 2 ∧ s.pulled ++ s.waiting = s.added := by
  obtain ⟨tr, s, run, htest⟩ := queue_replayed [.add 3 [1], .pull, .add 4 [2]]
    (fun tr s => s.added.length == 2 && tr.all fun x =>
      !x.2.isAdd || x.1.queue.nextIncoming.isNone) (by decide)
  simp only [Bool.and_eq_true, beq_iff_eq, List.all_eq_true, Bool.or_eq_true,
    Bool.not_eq_true', Option.isNone_iff_eq_none] at htest
  refine ⟨tr, s, run, htest.1, (queue_delivers_iff run).mpr fun x hx hadd => ?_⟩
  rcases htest.2 x hx with hnot | hnone
  · rw [hadd] at hnot
    cases hnot
  · exact hnone

/-- Two messages in a row: the first one is gone. -/
theorem queue_loses_message :
    ¬∀ (tr : List (QueueLog × QueueCall)) (s : QueueLog), Run queueStep .init tr s →
      s.pulled ++ s.waiting = s.added := by
  intro hclaim
  obtain ⟨tr, s, run, htest⟩ := queue_replayed [.add 3 [1], .add 4 [2]]
    (fun _ s => s.pulled ++ s.waiting != s.added) (by decide)
  exact absurd (hclaim tr s run) (by simpa using htest)

end FileStorage.Server
