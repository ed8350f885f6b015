import FileStorage.Server.WorkloadQueue

/-!
# QueueTail — the back pointer of a queue

`workload_queue_pull` moves the front pointer on and leaves the back pointer where it is.  The
message that was pulled last stays at the back, and the next `workload_queue_add` writes to it.
-/

namespace FileStorage.Server

open Memory

namespace QueueLog

/-! ## 1. What the claim is about -/

/-- `last_incoming` is the end of the chain that starts at `next_incoming`, `NULL` when there is
none. -/
def BackIsLast (s : QueueLog) : Prop :=
  ∃ waiting, Path (s.messages.field Message.next) s.queue.nextIncoming waiting none ∧
    s.queue.lastIncoming = waiting.getLast?

/-- The messages that were pulled are in `s'` what they are in `s`. -/
def Spares (s s' : QueueLog) : Prop := ∀ a ∈ s.pulled, s'.messages.read a = s.messages.read a

/-! ## 2. The two calls -/

variable {s s' : QueueLog}

/-- Both pointers go to the new message, and the message at the back gets a successor. -/
theorem of_call_add {fd : Int} {buffer : List UInt8} (hx : s.call (.add fd buffer) = .ok s') :
    s'.queue = ⟨some s.messages.fresh, some s.messages.fresh⟩ ∧ s'.pulled = s.pulled ∧
      s'.messages = (s.messages.alloc ⟨fd, buffer, none⟩).modifyAt s.queue.lastIncoming
        fun message => { message with next := some s.messages.fresh } := by
  obtain ⟨⟨messages, queue⟩, hadd, hx⟩ := Exec.bind_eq_ok.mp hx
  obtain rfl := Except.ok.inj hx
  obtain ⟨message, -, hadd⟩ := Exec.bind_eq_ok.mp hadd
  split at hadd
  · cases hadd
  · cases hback : s.queue.lastIncoming with
    | none =>
      simp only [hback] at hadd
      cases hadd
      exact ⟨rfl, rfl, rfl⟩
    | some last =>
      simp only [hback] at hadd
      obtain ⟨messages', hstore, hadd⟩ := Exec.bind_eq_ok.mp hadd
      cases hadd
      unfold Heap.store at hstore
      split at hstore
      · cases hstore
        exact ⟨rfl, rfl, rfl⟩
      · cases hstore

/-- The back pointer stays where it is. -/
theorem of_call_pull (h : s.Wf) (hx : s.call .pull = .ok s') :
    ∃ a, s.queue.nextIncoming = some a ∧ s'.queue = ⟨none, s.queue.lastIncoming⟩ ∧
      s'.pulled = s.pulled ++ [a] ∧
      s'.messages = s.messages.modify a fun message => { message with next := none } := by
  cases hfront : s.queue.nextIncoming with
  | none =>
    rw [call_pull_empty hfront] at hx
    cases hx
  | some a =>
    obtain ⟨message, hread, hnext⟩ := Heap.field_eq_some (h.front a hfront)
    simp only [call, workloadQueuePull, hfront, Heap.load_of_read hread, Exec.ok_bind,
      Heap.store_of_read hread] at hx
    cases hx
    exact ⟨a, rfl, by rw [hnext], rfl, rfl⟩

/-! ## 3. The invariant -/

/-- The message at the back is the one in front, or the one that was pulled last. -/
structure Ends (s : QueueLog) : Prop where
  wf : s.Wf
  front : s.queue.nextIncoming = none ∨ s.queue.nextIncoming = s.queue.lastIncoming
  back : ∀ a, s.queue.lastIncoming = some a → s.queue.nextIncoming = none →
    a ∈ s.pulled ∧ s.messages.field Message.next a = some none
  waits : ∀ a, s.queue.nextIncoming = some a → a ∉ s.pulled
  kept : ∀ a ∈ s.pulled, ∃ message, s.messages.read a = some message

/-- Nothing is at the back that was pulled. -/
def Tidy (s : QueueLog) : Prop := s.queue.nextIncoming = none → s.queue.lastIncoming = none

theorem ends_init : init.Ends := ⟨wf_init, Or.inl rfl, nofun, nofun, nofun⟩

theorem Ends.add (h : s.Ends) {fd : Int} {buffer : List UInt8}
    (hx : s.call (.add fd buffer) = .ok s') : s'.Ends ∧ s'.Tidy := by
  obtain ⟨s₁, hcall, hwf, -, -, -⟩ := call_add h.wf fd buffer
  obtain rfl : s₁ = s' := Except.ok.inj (hcall.symm.trans hx)
  obtain ⟨hqueue, hpulled, hmessages⟩ := of_call_add hx
  -- the new message is none of the old ones
  have hne : ∀ a ∈ s.pulled, a ≠ s.messages.fresh := by
    intro a ha
    obtain ⟨message, hread⟩ := h.kept a ha
    exact Nat.ne_of_lt (Heap.lt_fresh_of_read hread)
  have hsome : s₁.queue.nextIncoming ≠ none := by
    rw [hqueue]
    exact Option.some_ne_none _
  refine ⟨⟨hwf, ?_, fun a _ hnone => absurd hnone hsome, fun a ha hmem => ?_, fun a ha => ?_⟩,
    fun hnone => absurd hnone hsome⟩
  · rw [hqueue]
    exact Or.inr rfl
  · rw [hqueue] at ha
    rw [hpulled] at hmem
    exact hne a hmem (Option.some.inj ha).symm
  · rw [hpulled] at ha
    obtain ⟨message, hread⟩ := h.kept a ha
    rw [hmessages]
    exact Heap.read_modifyAt_some (by rw [Heap.read_alloc, if_neg (hne a ha), hread]) _ _

theorem Ends.pull (h : s.Ends) (hx : s.call .pull = .ok s') : s'.Ends ∧ ¬s'.Tidy := by
  obtain ⟨a, hfront, hqueue, hpulled, hmessages⟩ := of_call_pull h.wf hx
  obtain ⟨s₁, hcall, hwf, -, -, -⟩ := call_pull h.wf hfront
  obtain rfl : s₁ = s' := Except.ok.inj (hcall.symm.trans hx)
  have hback : s.queue.lastIncoming = some a :=
    (h.front.resolve_left (by rw [hfront]; exact Option.some_ne_none _)).symm.trans hfront
  obtain ⟨message, hread, -⟩ := Heap.field_eq_some (h.wf.front a hfront)
  have hnone : s₁.queue.nextIncoming = none := by rw [hqueue]
  refine ⟨⟨hwf, Or.inl hnone, fun b hb _ => ?_, fun b hb => ?_, fun b hb => ?_⟩, fun htidy => ?_⟩
  · rw [hqueue, hback] at hb
    obtain rfl := Option.some.inj hb
    rw [hpulled, hmessages]
    refine ⟨List.mem_append_right _ (List.mem_singleton.mpr rfl), ?_⟩
    rw [Heap.field, Heap.read_modify_self, hread]
    rfl
  · rw [hnone] at hb
    cases hb
  · have hold : ∃ message, s.messages.read b = some message := by
      rw [hpulled] at hb
      rcases List.mem_append.mp hb with hb | hb
      · exact h.kept b hb
      · rw [List.mem_singleton.mp hb]
        exact ⟨message, hread⟩
    obtain ⟨old, hold⟩ := hold
    rw [hmessages, Heap.read_modify, hold]
    split <;> exact ⟨_, rfl⟩
  · have hlast := htidy hnone
    rw [hqueue, hback] at hlast
    cases hlast

/-! ## 4. What it means for the back pointer -/

theorem Ends.backIsLast_iff (h : s.Ends) : s.BackIsLast ↔ s.Tidy := by
  cases hfront : s.queue.nextIncoming with
  | none =>
    simp only [BackIsLast, Tidy, hfront, true_implies]
    constructor
    · rintro ⟨waiting, hpath, hlast⟩
      have hnil : waiting = [] := hpath.unique rfl
      rw [hlast, hnil]
      rfl
    · intro hlast
      exact ⟨[], rfl, hlast⟩
  | some a =>
    have hback := h.front.resolve_left (by rw [hfront]; exact Option.some_ne_none _)
    simp only [BackIsLast, Tidy, hfront]
    refine ⟨fun _ hnone => absurd hnone (Option.some_ne_none _), fun _ => ?_⟩
    exact ⟨[a], ⟨rfl, none, h.wf.front a hfront, rfl⟩, hback.symm.trans hfront⟩

/-- The next message writes to a message that was pulled exactly when one is still at the back. -/
theorem Ends.spares_iff (h : s.Ends) {fd : Int} {buffer : List UInt8}
    (hx : s.call (.add fd buffer) = .ok s') : s.Spares s' ↔ s.Tidy := by
  obtain ⟨-, -, hmessages⟩ := of_call_add hx
  have hold : ∀ a ∈ s.pulled, (s.messages.alloc ⟨fd, buffer, none⟩).read a = s.messages.read a := by
    intro a ha
    obtain ⟨message, hread⟩ := h.kept a ha
    rw [Heap.read_alloc, if_neg (Nat.ne_of_lt (Heap.lt_fresh_of_read hread))]
  constructor
  · intro hspares hnone
    by_contra hsome
    obtain ⟨a, hback⟩ := Option.ne_none_iff_exists'.mp hsome
    obtain ⟨hmem, hnext⟩ := h.back a hback hnone
    obtain ⟨message, hread, hnext⟩ := Heap.field_eq_some hnext
    have hwritten := hspares a hmem
    rw [hmessages, hback, Heap.modifyAt, Option.elim_some, Heap.read_modify_self, hold a hmem, hread,
      Option.map_some] at hwritten
    rw [← Option.some.inj hwritten] at hnext
    cases hnext
  · intro htidy a ha
    rw [hmessages, Heap.read_modifyAt_of_ne, hold a ha]
    -- the message at the back is in front, or there is none
    intro hback
    cases hfront : s.queue.nextIncoming with
    | none =>
      rw [htidy hfront] at hback
      cases hback
    | some b =>
      have hsame := h.front.resolve_left (by rw [hfront]; exact Option.some_ne_none _)
      exact h.waits a (hsame.trans hback) ha

/-! ## 5. The runs -/

theorem Ends.step (h : s.Ends) {c : QueueCall} (hx : queueStep s c s') :
    s'.Ends ∧ (s'.Tidy ↔ c.isAdd) := by
  cases c with
  | add fd buffer =>
    obtain ⟨hends, htidy⟩ := h.add hx
    exact ⟨hends, fun _ => rfl, fun _ => htidy⟩
  | pull =>
    obtain ⟨hends, hnot⟩ := h.pull hx
    exact ⟨hends, fun htidy => absurd htidy hnot, nofun⟩

end QueueLog

/-- The back pointer is right in every state of a run, and no add writes to a message after it was
pulled, exactly when none is pulled. -/
theorem queue_back_iff {tr : List (QueueLog × QueueCall)} {s : QueueLog}
    (run : Run queueStep .init tr s) :
    (∀ s' ∈ statesOf tr s, s'.BackIsLast ∧
        ∀ fd buffer s'', queueStep s' (.add fd buffer) s'' → s'.Spares s'') ↔
      ∀ x ∈ tr, x.2.isAdd := by
  have hends := run.invariant_states QueueLog.Ends (fun _ _ => True) QueueLog.ends_init
    (fun _ _ _ h _ hx => (h.step hx).1) fun _ _ => trivial
  rw [← run.good_iff QueueLog.Ends QueueLog.Tidy (fun _ c => c.isAdd) QueueLog.ends_init
    (fun _ => rfl) (fun _ _ _ h hx => (h.step hx).1) fun _ _ _ h _ hx => (h.step hx).2]
  constructor
  · intro hall s' hs'
    exact (hends s' hs').backIsLast_iff.mp (hall s' hs').1
  · intro htidy s' hs'
    have h := hends s' hs'
    exact ⟨h.backIsLast_iff.mpr (htidy s' hs'), fun fd buffer s'' hx =>
      (h.spares_iff hx).mpr (htidy s' hs')⟩

/-- Three messages, none of which is pulled. -/
theorem queue_back_of_adds :
    ∃ tr s, Run queueStep .init tr s ∧ s.added.length = 3 ∧ ∀ s' ∈ statesOf tr s, s'.BackIsLast ∧
      ∀ fd buffer s'', queueStep s' (.add fd buffer) s'' → s'.Spares s'' := by
  obtain ⟨tr, s, run, htest⟩ := queue_replayed [.add 3 [1], .add 4 [2], .add 3 [3]]
    (fun tr s => s.added.length == 3 && tr.all fun x => x.2.isAdd) (by decide)
  rw [Bool.and_eq_true, beq_iff_eq, List.all_eq_true] at htest
  exact ⟨tr, s, run, htest.1, (queue_back_iff run).mpr htest.2⟩

/-- A message is added and pulled, and the next one writes to it. -/
theorem queue_writes_pulled :
    ¬∀ (tr : List (QueueLog × QueueCall)) (s : QueueLog), Run queueStep .init tr s →
      ∀ s' ∈ statesOf tr s, s'.BackIsLast ∧
        ∀ fd buffer s'', queueStep s' (.add fd buffer) s'' → s'.Spares s'' := by
  intro hclaim
  obtain ⟨tr, s, run, htest⟩ := queue_replayed [.add 3 [1], .pull]
    (fun _ s => (s.call (.add 4 [2])).any fun s' =>
      s.pulled.any fun a => s'.messages.read a != s.messages.read a) (by decide)
  obtain ⟨s', hx, htest⟩ := Exec.any_eq_true.mp htest
  obtain ⟨a, hmem, hne⟩ := List.any_eq_true.mp htest
  have hspares := (hclaim tr s run s (by simp [statesOf])).2 _ _ _ hx
  exact absurd (hspares a hmem) (by simpa using hne)

end FileStorage.Server
