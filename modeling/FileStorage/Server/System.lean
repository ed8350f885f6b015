import FileStorage.Server.Descriptors
import FileStorage.Server.Requests

/-!
# System — the receiver, the workers and the table together

The receiver hands messages over.  A worker takes one, in any order, and runs its handler on the
table; what the handler writes goes out a few bytes at a time, while the receiver and the other
workers go on.  The bytes go to whatever is on the descriptor then.
-/

namespace FileStorage.Server

/-! ## 1. The state -/

/-- What the handler of a message, by its place in the log of the receiver, has yet to write. -/
structure Reply where
  message : Nat
  writes : List Write
deriving DecidableEq

/-- Bytes that went out while the message was handled. -/
structure Output where
  message : Nat
  kind : WriteKind
  bytes : List UInt8
  dest : Option Endpoint  -- what was on the descriptor
deriving DecidableEq

/-- A ghost: the messages on whose strength a file is locked and is waited for. -/
structure Tickets where
  owner : Option Nat
  waiters : List Nat  -- in the order of `subs`

/-- The tickets after the operation of the message `id`. -/
def Op.tickets (id : Nat) (out : Outcome) (k : Tickets) : Op → Tickets
  | .create _ _ withLock => if out.code = .ok then ⟨if withLock then some id else none, []⟩ else k
  | .open _ _ withLock =>
      if out.code = .ok then { k with owner := if withLock then some id else none } else k
  | .lock _ _ =>
      if out.code = .ok then { k with owner := some id }
      else if out.code = .okWait then { k with waiters := id :: k.waiters }
      else k
  | .unlock _ _ => if out.code = .ok then ⟨k.waiters.head?, k.waiters.tail⟩ else k
  | .close _ _ | .remove _ _ | .replace _ _ | .append _ _ => k

structure System where
  receiver : Receiver
  table : HTable
  taken : List Nat            -- the messages that a worker has taken
  replies : List Reply
  outputs : List Output       -- a log of all bytes that went out
  tickets : CStr → Tickets

namespace System

inductive Event where
  | receive (answer : KernelAnswer)
  | take (id : Nat) (rands : List Nat)
  | write (i n : Nat)         -- `write` takes `n` bytes of the reply `i`
  | fail (i skipped : Nat)    -- `write` fails, and the handler leaves out the next `skipped` writes
deriving DecidableEq

def start (files : List (Int × Endpoint)) (table : HTable) : System where
  receiver := .start files
  table
  taken := []
  replies := []
  outputs := []
  tickets := fun _ => ⟨none, []⟩

def ticketsAfter (P : Platform) (s : System) (id : Nat) (h : HandedOver) (rands : List Nat) :
    CStr → Tickets :=
  match messageOp h.fd h.buffer.raw with
  | none => s.tickets
  | some o =>
      match o.exec P s.table rands with
      | .ok (out, _) => Function.update s.tickets o.key (o.tickets id out (s.tickets o.key))
      | .error _ => s.tickets

/-- The rest of a reply after `n` bytes of its first write. -/
def restOf (w : Write) (rest : List Write) (n : Nat) : List Write :=
  if n = w.bytes.length then rest else { w with bytes := w.bytes.drop n } :: rest

/-- The next step of the system. -/
def next (P : Platform) (sent : Nat → List UInt8) (s : System) : Event → Option System
  | .receive answer => do
      let receiver ← (s.receiver.next sent P answer).toOption.join
      some { s with receiver }
  | .take id rands => do
      let h ← s.receiver.handed[id]?
      if id ∈ s.taken then
        none
      else
        let (writes, table) ← (workerHandleMessage P s.table h.fd h.buffer.raw rands).toOption
        some { s with
          table
          taken := s.taken ++ [id]
          replies := s.replies ++ [⟨id, writes⟩]
          tickets := s.ticketsAfter P id h rands }
  | .write i n =>
      match s.replies[i]? with
      | some ⟨id, w :: rest⟩ =>
          if n ≤ w.bytes.length then
            some { s with
              replies := s.replies.set i ⟨id, restOf w rest n⟩
              outputs := s.outputs ++
                [⟨id, w.kind, w.bytes.take n, s.receiver.kernel.endpoint w.fd⟩] }
          else
            none
      | _ => none
  | .fail i skipped =>
      match s.replies[i]? with
      | some ⟨id, _ :: rest⟩ => some { s with replies := s.replies.set i ⟨id, rest.drop skipped⟩ }
      | _ => none

/-- From `htable_create` and the descriptors `files` the events of `tr` lead to `s`. -/
def Runs (P : Platform) (sent : Nat → List UInt8) (files : List (Int × Endpoint)) (buckets : Nat)
    (config : Config) (tr : List (System × Event)) (s : System) : Prop :=
  (∀ x ∈ files, x.2 = .other) ∧ ∃ t₀, htableCreate buckets config = .ok t₀ ∧
    Run (fun s e s' => s.next P sent e = some s') (start files t₀) tr s

/-! ## 2. What a step does -/

inductive Step (P : Platform) (sent : Nat → List UInt8) (s : System) : Event → System → Prop
  | receive {answer : KernelAnswer} {r : Receiver}
      (hstep : Receiver.Step sent P s.receiver answer r) :
      Step P sent s (.receive answer) { s with receiver := r }
  | take {id : Nat} {rands : List Nat} {h : HandedOver} {writes : List Write} {t : HTable}
      (hmessage : s.receiver.handed[id]? = some h) (hfresh : id ∉ s.taken)
      (hx : workerHandleMessage P s.table h.fd h.buffer.raw rands = .ok (writes, t)) :
      Step P sent s (.take id rands) { s with
        table := t
        taken := s.taken ++ [id]
        replies := s.replies ++ [⟨id, writes⟩]
        tickets := s.ticketsAfter P id h rands }
  | write {i n id : Nat} {w : Write} {rest : List Write}
      (hreply : s.replies[i]? = some ⟨id, w :: rest⟩) :
      Step P sent s (.write i n) { s with
        replies := s.replies.set i ⟨id, restOf w rest n⟩
        outputs := s.outputs ++ [⟨id, w.kind, w.bytes.take n, s.receiver.kernel.endpoint w.fd⟩] }
  | fail {i skipped id : Nat} {w : Write} {rest : List Write}
      (hreply : s.replies[i]? = some ⟨id, w :: rest⟩) :
      Step P sent s (.fail i skipped)
        { s with replies := s.replies.set i ⟨id, rest.drop skipped⟩ }

variable {P : Platform} {sent : Nat → List UInt8} {s s' : System} {e : Event}

theorem step_of_next (hx : s.next P sent e = some s') : Step P sent s e s' := by
  cases e with
  | receive answer =>
    obtain ⟨r, hr, hx⟩ := Option.bind_eq_some_iff.mp hx
    cases hx
    have hnext := Exec.toOption_eq_some.mp (Option.join_eq_some_iff.mp hr)
    exact .receive (Receiver.step_of_next hnext)
  | take id rands =>
    obtain ⟨h, hmessage, hx⟩ := Option.bind_eq_some_iff.mp hx
    split at hx
    · cases hx
    · rename_i hfresh
      obtain ⟨⟨writes, t⟩, hhandle, hx⟩ := Option.bind_eq_some_iff.mp hx
      cases hx
      exact .take hmessage hfresh (Exec.toOption_eq_some.mp hhandle)
  | write i n =>
    simp only [next] at hx
    split at hx
    · rename_i hreply
      split at hx
      · cases hx
        exact .write hreply
      · cases hx
    · cases hx
  | fail i skipped =>
    simp only [next] at hx
    split at hx
    · rename_i hreply
      cases hx
      exact .fail hreply
    · cases hx

/-- What a worker that took a message did. -/
theorem ticketsAfter_of_exec {id : Nat} {h : HandedOver} {rands : List Nat} {o : Op} {out : Outcome}
    {t : HTable} (hop : messageOp h.fd h.buffer.raw = some o)
    (hexec : o.exec P s.table rands = .ok (out, t)) :
    s.ticketsAfter P id h rands =
      Function.update s.tickets o.key (o.tickets id out (s.tickets o.key)) := by
  simp only [ticketsAfter, hop, hexec]

/-- The writes that are due after a step on a reply were due before. -/
theorem due_of_set {s : System} {i id : Nat} {w : Write} {rest new : List Write}
    (hreply : s.replies[i]? = some ⟨id, w :: rest⟩)
    (hnew : ∀ x ∈ new, x ∈ rest ∨ x.fd = w.fd ∧ x.kind = w.kind) {reply : Reply}
    (hmem : reply ∈ s.replies.set i ⟨id, new⟩) {x : Write} (hx : x ∈ reply.writes) :
    ∃ before ∈ s.replies, before.message = reply.message ∧
      ∃ y ∈ before.writes, y.fd = x.fd ∧ y.kind = x.kind := by
  rcases List.mem_or_eq_of_mem_set hmem with hmem | rfl
  · exact ⟨reply, hmem, rfl, x, hx, rfl, rfl⟩
  · refine ⟨_, List.mem_of_getElem? hreply, rfl, ?_⟩
    rcases hnew x hx with hx | ⟨hfd, hkind⟩
    · exact ⟨x, List.mem_cons_of_mem _ hx, rfl, rfl⟩
    · exact ⟨w, List.mem_cons_self, hfd.symm, hkind.symm⟩

theorem of_mem_restOf {w x : Write} {rest : List Write} {n : Nat} (hx : x ∈ restOf w rest n) :
    x ∈ rest ∨ x.fd = w.fd ∧ x.kind = w.kind := by
  unfold restOf at hx
  split at hx
  · exact Or.inl hx
  · rcases List.mem_cons.mp hx with rfl | hx
    · exact Or.inr ⟨rfl, rfl⟩
    · exact Or.inl hx

theorem runs_of_events (P : Platform) (sent : Nat → List UInt8) (buckets : Nat) (config : Config)
    (events : List Event) (test : List (System × Event) → System → Bool)
    (hx : ((htableCreate buckets config).toOption.bind fun t =>
      replay (next P sent) (start Receiver.usualFiles t) events).any
        (fun x => test x.1 x.2) = true) :
    ∃ tr s, Runs P sent Receiver.usualFiles buckets config tr s ∧ test tr s = true := by
  obtain ⟨x, hreplay, htest⟩ := (Option.any_eq_true _ _).mp hx
  obtain ⟨t₀, hcreate, hreplay⟩ := Option.bind_eq_some_iff.mp hreplay
  have hother : ∀ x ∈ Receiver.usualFiles, x.2 = .other := by decide
  exact ⟨x.1, x.2, ⟨hother, t₀, Exec.toOption_eq_some.mp hcreate,
    Run.of_replay (fun _ _ _ h => h) hreplay⟩, htest⟩

end System

end FileStorage.Server
