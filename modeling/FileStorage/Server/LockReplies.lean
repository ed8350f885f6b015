import FileStorage.Server.Ownership
import FileStorage.Server.Worker

/-!
# LockReplies — the status bytes of all connections, under every order of the workers

The receiver logs requests, a worker runs the handler of one, and a handler writes its status bytes
later, one at a time, while other workers go on.
-/

namespace FileStorage.Server

/-! ## 1. The server -/

structure Request where
  fd : Int
  op : ApiOp
  buffer : List UInt8
deriving DecidableEq

/-- A status byte for `fd`.  `request` is a ghost: the request that it answers, by its place in
the log. -/
structure Answer where
  request : Nat
  fd : Int
  code : UInt8
deriving DecidableEq

structure Traffic where
  table : HTable
  received : List Request       -- the log of all requests
  handled : List Nat            -- those that a worker has taken, in this order
  replies : List (List Answer)  -- for each of these, the status bytes yet to be written
  sent : List Answer            -- the status bytes written so far

namespace Traffic

/-- The request for `key` of `fd` that waits for the lock: the latest, as waiters are kept on a
stack. -/
def waiting (s : Traffic) (fd : Int) (key : CStr) : Option Nat :=
  s.handled.reverse.find? fun id =>
    s.received[id]?.any fun r => r.fd = fd ∧ r.op = .lockFile ∧ bufToStr r.buffer = key

/-- The status byte that `w` starts with, written by the handler of request `id`. -/
def answer (s : Traffic) (id : Nat) (r : Request) (w : Write) : Answer where
  request := if w.kind = .granted then (s.waiting w.fd (bufToStr r.buffer)).getD id else id
  fd := w.fd
  code := w.bytes.headD 0

inductive Event where
  | receive (r : Request)
  | handle (id : Nat) (rands : List Nat)
  | write (i : Nat)
deriving DecidableEq

/-- `accept` only gives out descriptors that are not negative. -/
def next (P : Platform) (s : Traffic) : Event → Option Traffic
  | .receive r => if 0 ≤ r.fd then some { s with received := s.received ++ [r] } else none
  | .handle id rands => do
      let r ← s.received[id]?
      -- a worker takes a request once
      if id ∈ s.handled then
        none
      else
        let (writes, table) ← (workerHandleRequest P s.table r.fd r.op r.buffer rands).toOption
        some { s with
          table
          handled := s.handled ++ [id]
          replies := s.replies ++ [(statusWrites writes).map (s.answer id r)] }
  | .write i =>
      match s.replies[i]? with
      | some (a :: rest) => some { s with replies := s.replies.set i rest, sent := s.sent ++ [a] }
      | _ => none

def start (table : HTable) : Traffic where
  table
  received := []
  handled := []
  replies := []
  sent := []

/-- From `htable_create` the events of `tr` lead to `s`. -/
def Runs (P : Platform) (buckets : Nat) (config : Config) (tr : List (Traffic × Event))
    (s : Traffic) : Prop :=
  ∃ t₀, htableCreate buckets config = .ok t₀ ∧
    Run (fun s e s' => s.next P e = some s') (start t₀) tr s

/-- The requests of a connection, and the status bytes that it was sent. -/
def requestsOf (s : Traffic) (fd : Int) : List Nat :=
  (List.range s.received.length).filter fun id => (s.received[id]?).map Request.fd = some fd

def sentTo (s : Traffic) (fd : Int) : List Answer := s.sent.filter (·.fd = fd)

/-- What must hold when the status byte `a` is written next. -/
structure Answers (P : Platform) (s : Traffic) (a : Answer) : Prop where
  once : ∀ b ∈ s.sent, b.request ≠ a.request
  /-- A lock is confirmed to its owner only. -/
  held : ∀ r, s.received[a.request]? = some r → r.op = .lockFile → a.code = responseOk →
    ∃ f, htableFetchFile P s.table (bufToStr r.buffer) = .ok (some f) ∧ f.isLocked ∧
      f.fdOwner = r.fd
  awaited : (s.sentTo a.fd).length < (s.requestsOf a.fd).length
  /-- The k-th byte that a client reads answers its k-th request. -/
  inTurn : (s.requestsOf a.fd)[(s.sentTo a.fd).length]? = some a.request

end Traffic

/-! ## 2. One table operation -/

/-- Taking the first element of one of the lists. -/
theorem flatten_set_perm {α : Type} {ls : List (List α)} {i : Nat} {x : α} {rest : List α}
    (h : ls[i]? = some (x :: rest)) : ls.flatten.Perm (x :: (ls.set i rest).flatten) := by
  induction ls generalizing i with
  | nil => cases h
  | cons l ls ih =>
    cases i with
    | zero =>
      obtain rfl : l = x :: rest := Option.some.inj h
      exact List.Perm.refl _
    | succ i => exact ((ih h).append_left l).trans List.perm_middle

namespace Traffic

variable {P : Platform} {s s' : Traffic} {L : Contents}

/-- All status bytes, written or not. -/
def answers (s : Traffic) : List Answer := s.sent ++ s.replies.flatten

structure Inv (P : Platform) (s : Traffic) (L : Contents) : Prop where
  stored : Stored P s.table L
  fds : ∀ r ∈ s.received, 0 ≤ r.fd
  known : ∀ a ∈ s.answers, a.request ∈ s.handled ∧
    ∃ r, s.received[a.request]? = some r ∧ r.fd = a.fd
  distinct : (s.answers.map Answer.request).Nodup
  held : ∀ a ∈ s.replies.flatten, ∀ r, s.received[a.request]? = some r → r.op = .lockFile →
    ∃ f, fileAt L (bufToStr r.buffer) = some f ∧ f.isLocked ∧ f.fdOwner = r.fd
  /-- The requests of a connection are answered in their order, all but the last. -/
  turn : ∀ fd, ∃ rest, s.requestsOf fd = (s.sentTo fd).map Answer.request ++ rest ∧
    rest.length ≤ 1

/-- What an event can do. -/
theorem next_cases {e : Event} (hx : s.next P e = some s') :
    (∃ r, e = .receive r ∧ 0 ≤ r.fd ∧ s' = { s with received := s.received ++ [r] }) ∨
      (∃ id rands r writes t', e = .handle id rands ∧ s.received[id]? = some r ∧ id ∉ s.handled ∧
        workerHandleRequest P s.table r.fd r.op r.buffer rands = .ok (writes, t') ∧
        s' = { s with
          table := t'
          handled := s.handled ++ [id]
          replies := s.replies ++ [(statusWrites writes).map (s.answer id r)] }) ∨
      ∃ i a rest, e = .write i ∧ s.replies[i]? = some (a :: rest) ∧
        s' = { s with replies := s.replies.set i rest, sent := s.sent ++ [a] } := by
  cases e with
  | receive r =>
    simp only [next] at hx
    split at hx
    · exact Or.inl ⟨r, rfl, ‹_›, (Option.some.inj hx).symm⟩
    · cases hx
  | handle id rands =>
    obtain ⟨r, hr, hx⟩ := Option.bind_eq_some_iff.mp hx
    split at hx
    · cases hx
    · rename_i hfresh
      obtain ⟨⟨writes, t'⟩, hw, hx⟩ := Option.bind_eq_some_iff.mp hx
      exact Or.inr (Or.inl ⟨id, rands, r, writes, t', rfl, hr, hfresh,
        Exec.toOption_eq_some.mp hw, (Option.some.inj hx).symm⟩)
  | write i =>
    simp only [next] at hx
    split at hx
    · exact Or.inr (Or.inr ⟨i, _, _, rfl, ‹_›, (Option.some.inj hx).symm⟩)
    · cases hx

theorem Inv.unanswered (h : s.Inv P L) {a : Answer} (ha : a ∈ s.replies.flatten) :
    ∀ b ∈ s.sent, b.request ≠ a.request := by
  have hdistinct := h.distinct
  rw [answers, List.map_append] at hdistinct
  exact fun b hb => (List.nodup_append.mp hdistinct).2.2 _ (List.mem_map_of_mem hb) _
    (List.mem_map_of_mem ha)

/-- A byte that is left to write answers the last request of its connection, the only one without an
answer. -/
theorem Inv.last_unanswered (h : s.Inv P L) {a : Answer} (ha : a ∈ s.replies.flatten) :
    s.requestsOf a.fd = (s.sentTo a.fd).map Answer.request ++ [a.request] := by
  obtain ⟨-, q, hq, hfd⟩ := h.known a (List.mem_append_right _ ha)
  have hmem : a.request ∈ s.requestsOf a.fd := by
    refine List.mem_filter.mpr ⟨List.mem_range.mpr (List.getElem?_eq_some_iff.mp hq).1, ?_⟩
    simp [hq, hfd]
  obtain ⟨rest, hrest, hone⟩ := h.turn a.fd
  rw [hrest] at hmem ⊢
  rcases List.mem_append.mp hmem with hsent | hlast
  · obtain ⟨b, hb, heq⟩ := List.mem_map.mp hsent
    exact absurd heq (h.unanswered ha b (List.mem_filter.mp hb).1)
  · match rest, hone, hlast with
    | [id], _, hlast => rw [List.mem_singleton.mp hlast]

theorem inv_start {buckets : Nat} {config : Config} {t : HTable}
    (hcreate : htableCreate buckets config = .ok t) :
    (start t).Inv P (List.replicate buckets []) where
  stored := stored_create hcreate
  fds := nofun
  known := nofun
  distinct := List.nodup_nil
  held := nofun
  turn := fun _ => ⟨[], rfl, Nat.zero_le 1⟩

/-- In this state every status byte may be written. -/
theorem Inv.answers (h : s.Inv P L) {i : Nat} {a : Answer} {rest : List Answer}
    (ha : s.replies[i]? = some (a :: rest)) : s.Answers P a := by
  have hpending : a ∈ s.replies.flatten :=
    (flatten_set_perm ha).mem_iff.mpr List.mem_cons_self
  have hlast := h.last_unanswered hpending
  have hlength : ((s.sentTo a.fd).map Answer.request).length = (s.sentTo a.fd).length :=
    List.length_map _
  refine ⟨h.unanswered hpending, ?_, ?_, ?_⟩
  · intro r hr hop _
    obtain ⟨f, hf, hheld⟩ := h.held a hpending r hr hop
    exact ⟨f, by rw [h.stored.fetchFile, hf], hheld⟩
  · rw [hlast, List.length_append, hlength]
    exact Nat.lt_succ_self _
  · rw [hlast, ← hlength, List.getElem?_concat_length]

theorem runs_of_events (P : Platform) (buckets : Nat) (config : Config) (events : List Event)
    (test : List (Traffic × Event) → Traffic → Bool)
    (hx : ((htableCreate buckets config).toOption.bind fun t =>
      replay (next P) (start t) events).any (fun r => test r.1 r.2) = true) :
    ∃ tr s, Runs P buckets config tr s ∧ test tr s = true := by
  cases hcreate : (htableCreate buckets config).toOption with
  | none => simp [hcreate] at hx
  | some t =>
    cases hreplay : replay (next P) (start t) events with
    | none => simp [hcreate, hreplay] at hx
    | some r =>
      refine ⟨r.1, r.2, ⟨t, Exec.toOption_eq_some.mp hcreate, ?_⟩,
        by simpa [hcreate, hreplay] using hx⟩
      exact Run.of_replay (fun _ _ _ h => h) hreplay

/-- A handler is orderly when no byte is left to write, and its request is a `lockFile` for a file
that nobody else has locked or neither locks nor unlocks. -/
def calm (P : Platform) (s : Traffic) : Event → Bool
  | .handle id _ => s.replies.flatten.isEmpty && s.received[id]?.all fun r =>
      r.op ≠ .unlockFile && (r.op ≠ .lockFile ||
        (htableFetchFile P s.table (bufToStr r.buffer)).anySome fun f => ¬f.lockedAgainst r.fd)
  | .receive r => (s.requestsOf r.fd).all fun id => id ∈ s.sent.map Answer.request
  | .write _ => true

/-- A connection that does not wait may read the answers in the other order. -/
example : ((htableCreate 1 ⟨10, 10, .fifo⟩).toOption.bind fun t => replay (next samplePlatform) (start t)
    [.receive ⟨3, .openFileCreate, [97]⟩, .receive ⟨3, .closeFile, [97]⟩, .handle 1 [], .write 0,
      .handle 0 [], .write 1]).any (fun r => (r.2.sentTo 3).map Answer.request == [1, 0]) = true := by
  decide +kernel

end Traffic

end FileStorage.Server
