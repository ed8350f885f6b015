import FileStorage.Run
import FileStorage.Server.Deserializer
import Mathlib.Data.List.Perm.Basic

/-!
# Receiver — the polling loop

One thread runs `receiver_poll` again and again.  Here it goes step by step: a step is one round of
one of its loops or what it does around one system call, and the kernel's answer to the call is the
label of the step.  The main socket, at index 0 of the two parallel arrays, is left out of them: it
only says whether there is a new connection.
-/

namespace FileStorage.Server

/-! ## 1. The kernel -/

/-- What an open descriptor of the server refers to. -/
inductive Endpoint where
  | connection (c : Nat)  -- the connections are numbered as they are accepted
  | other                 -- the standard streams, the main socket, a log file
deriving DecidableEq

inductive Revents where
  | none
  | pollin
  | other  -- an error, a hang-up, or data together with one
deriving DecidableEq

structure Kernel where
  files : List (Int × Endpoint)        -- the open descriptors
  accepted : List Int                  -- the descriptor that each connection was given
  received : List (Nat × List UInt8)   -- what the server has read from the connections
deriving DecidableEq

namespace Kernel

def endpoint (k : Kernel) (fd : Int) : Option Endpoint := (k.files.find? (·.1 = fd)).map Prod.snd

def close (k : Kernel) (fd : Int) : Kernel := { k with files := k.files.filter (·.1 ≠ fd) }

/-- A new connection on `fd`. -/
def accept (k : Kernel) (fd : Int) : Kernel :=
  { k with
    files := (fd, .connection k.accepted.length) :: k.files
    accepted := k.accepted ++ [fd] }

/-- All that was read from the connection `c`, in order. -/
def receivedFrom (k : Kernel) (c : Nat) : List UInt8 :=
  ((k.received.filter (·.1 = c)).map Prod.snd).flatten

/-- `poll` skips a negative descriptor, and reports one that is not open. -/
def polls (k : Kernel) (fd : Int) (revents : Revents) : Bool :=
  if fd < 0 then revents = .none
  else if k.endpoint fd = none then revents = .other
  else true

/-- `read` gives `chunk` on `fd`: on a connection the next bytes that its client sent. -/
def gives (sent : Nat → List UInt8) (k : Kernel) (fd : Int) (chunk : List UInt8) : Bool :=
  match k.endpoint fd with
  | some (.connection c) => (k.receivedFrom c ++ chunk).isPrefixOf (sent c)
  | some .other => true
  | none => false

def read (k : Kernel) (fd : Int) (chunk : List UInt8) : Kernel :=
  match k.endpoint fd with
  | some (.connection c) => { k with received := k.received ++ [(c, chunk)] }
  | _ => k

variable {k : Kernel} {fd fd' : Int} {c c' : Nat} {chunk : List UInt8}

theorem endpoint_close_self : (k.close fd).endpoint fd = none := by
  simp [endpoint, close, List.find?_filter]

theorem endpoint_close_of_ne (h : fd ≠ fd') : (k.close fd').endpoint fd = k.endpoint fd := by
  rw [endpoint, endpoint, close, List.find?_filter]
  congr 2
  funext x
  by_cases hx : x.1 = fd
  · simp [hx, h]
  · simp [hx]

theorem endpoint_accept_self : (k.accept fd).endpoint fd = some (.connection k.accepted.length) := by
  simp [endpoint, accept]

theorem endpoint_accept_of_ne (h : fd ≠ fd') : (k.accept fd').endpoint fd = k.endpoint fd := by
  simp [endpoint, accept, Ne.symm h]

theorem accepted_read : (k.read fd chunk).accepted = k.accepted := by
  unfold read
  split <;> rfl

theorem endpoint_read : (k.read fd chunk).endpoint fd' = k.endpoint fd' := by
  unfold read
  split <;> rfl

/-- The connection `c` was given `fd`, and no other was since. -/
structure Gave (k : Kernel) (fd : Int) (c : Nat) : Prop where
  leads : ∀ e, k.endpoint fd = some e → e = .connection c
  given : k.accepted[c]? = some fd
  latest : ∀ c', k.accepted[c']? = some fd → c' ≤ c

theorem Gave.close (h : k.Gave fd c) (fd' : Int) : (k.close fd').Gave fd c := by
  refine ⟨fun e he => ?_, h.given, h.latest⟩
  by_cases heq : fd = fd'
  · subst heq
    rw [endpoint_close_self] at he
    cases he
  · rw [endpoint_close_of_ne heq] at he
    exact h.leads e he

theorem getElem?_accept : (k.accept fd').accepted[c]? = some fd ↔
    k.accepted[c]? = some fd ∨ c = k.accepted.length ∧ fd' = fd := by
  show (k.accepted ++ [fd'])[c]? = some fd ↔ _
  rcases Nat.lt_trichotomy c k.accepted.length with hlt | rfl | hgt
  · rw [List.getElem?_append_left hlt]
    simp [Nat.ne_of_lt hlt]
  · simp
  · rw [List.getElem?_eq_none (by rw [List.length_append, List.length_singleton]; omega),
      List.getElem?_eq_none (Nat.le_of_lt hgt)]
    simp [Nat.ne_of_gt hgt]

theorem Gave.accept (h : k.Gave fd c) (hne : fd ≠ fd') : (k.accept fd').Gave fd c := by
  refine ⟨fun e he => ?_, getElem?_accept.mpr (Or.inl h.given), fun c' hc' => ?_⟩
  · rw [endpoint_accept_of_ne hne] at he
    exact h.leads e he
  · rcases getElem?_accept.mp hc' with hc' | ⟨-, heq⟩
    · exact h.latest c' hc'
    · exact absurd heq.symm hne

theorem gave_accept_self : (k.accept fd).Gave fd k.accepted.length := by
  refine ⟨fun e he => ?_, getElem?_accept.mpr (Or.inr ⟨rfl, rfl⟩), fun c' hc' => ?_⟩
  · rw [endpoint_accept_self] at he
    exact (Option.some.inj he).symm
  · rcases getElem?_accept.mp hc' with hc' | ⟨rfl, -⟩
    · exact Nat.le_of_lt (List.getElem?_eq_some_iff.mp hc').1
    · exact Nat.le_refl _

theorem Gave.read (h : k.Gave fd c) : (k.read fd' chunk).Gave fd c := by
  refine ⟨fun e he => h.leads e ?_, ?_, ?_⟩
  · rwa [endpoint_read] at he
  · rw [accepted_read]
    exact h.given
  · rw [accepted_read]
    exact h.latest

/-- A descriptor that can be read from is open. -/
theorem Gave.endpoint_of_gives (h : k.Gave fd c) {sent : Nat → List UInt8}
    (hgives : k.gives sent fd chunk) : k.endpoint fd = some (.connection c) := by
  unfold gives at hgives
  split at hgives
  · rename_i hendpoint
    rw [hendpoint, h.leads _ hendpoint]
  · rename_i hendpoint
    exact absurd (h.leads _ hendpoint) nofun
  · cases hgives

theorem read_of_connection (h : k.endpoint fd = some (.connection c)) :
    k.read fd chunk = { k with received := k.received ++ [(c, chunk)] } := by
  simp only [read, h]

theorem receivedFrom_read_self (h : k.endpoint fd = some (.connection c)) :
    (k.read fd chunk).receivedFrom c = k.receivedFrom c ++ chunk := by
  simp [receivedFrom, read_of_connection h]

theorem receivedFrom_read_of_ne (h : k.endpoint fd = some (.connection c)) (hne : c' ≠ c) :
    (k.read fd chunk).receivedFrom c' = k.receivedFrom c' := by
  simp [receivedFrom, read_of_connection h, Ne.symm hne]

end Kernel

/-! ## 2. The state -/

/-- An entry of `active_sockets` with its deserializer.  `conn` is a ghost: the connection that it
was made for. -/
structure ActiveSocket where
  fd : Int
  revents : Revents
  deserializer : Deserializer
  conn : Nat
deriving DecidableEq

/-- Where `receiver_poll` stands. -/
inductive PollPoint where
  | cleanup (i : Nat)          -- in the loop of `receiver_cleanup`
  | poll
  | connect (hasNew : Bool)
  | validate (i : Nat)         -- in the loop over the deserializers
  | read (i : Nat)             -- in the loop over the events
deriving DecidableEq

/-- The points before `poll` has returned. -/
def PollPoint.early : PollPoint → Bool
  | .cleanup _ | .poll => true
  | _ => false

/-- A message as it is handed over.  `conn` is a ghost: the connection of its entry. -/
structure HandedOver where
  conn : Nat
  fd : Int
  buffer : Buffer
deriving DecidableEq

structure Receiver where
  kernel : Kernel
  activeSockets : List ActiveSocket
  acceptNewConnections : Bool
  point : PollPoint
  handed : List HandedOver  -- a log of all messages that went to the workers
deriving DecidableEq

/-- What the kernel answers. -/
inductive KernelAnswer where
  | go                                                -- no system call is due
  | events (hasNew : Bool) (revents : List Revents)   -- of `poll`
  | shutdownSoft                                      -- a signal, before `poll` or in it
  | accepted (fd : Int)
  | eof
  | failed
  | data (chunk : List UInt8)
deriving DecidableEq

namespace Receiver

def start (files : List (Int × Endpoint)) : Receiver where
  kernel := ⟨files, [], []⟩
  activeSockets := []
  acceptNewConnections := true
  point := .cleanup 0
  handed := []

def setSocket (r : Receiver) (i : Nat) (socket : ActiveSocket) : Receiver :=
  { r with activeSockets := r.activeSockets.set i socket }

def goTo (r : Receiver) (point : PollPoint) : Receiver := { r with point }

@[simp] theorem goTo_kernel (r : Receiver) (point : PollPoint) : (r.goTo point).kernel = r.kernel := rfl

@[simp] theorem goTo_activeSockets (r : Receiver) (point : PollPoint) :
    (r.goTo point).activeSockets = r.activeSockets := rfl

@[simp] theorem goTo_handed (r : Receiver) (point : PollPoint) : (r.goTo point).handed = r.handed := rfl

@[simp] theorem goTo_point (r : Receiver) (point : PollPoint) : (r.goTo point).point = point := rfl

@[simp] theorem setSocket_kernel (r : Receiver) (i : Nat) (socket : ActiveSocket) :
    (r.setSocket i socket).kernel = r.kernel := rfl

@[simp] theorem setSocket_activeSockets (r : Receiver) (i : Nat) (socket : ActiveSocket) :
    (r.setSocket i socket).activeSockets = r.activeSockets.set i socket := rfl

@[simp] theorem setSocket_handed (r : Receiver) (i : Nat) (socket : ActiveSocket) :
    (r.setSocket i socket).handed = r.handed := rfl

/-! ## 3. The code -/

/-- The last entry takes the place of entry `i`. -/
def removeAt (sockets : List ActiveSocket) (i : Nat) : List ActiveSocket :=
  match sockets.getLast? with
  | some last => (sockets.set i last).dropLast
  | none => sockets

/-- A round of the loop of `receiver_cleanup`. -/
def cleanupStep (r : Receiver) (i : Nat) : Receiver :=
  match r.activeSockets[i]? with
  | none => r.goTo .poll
  | some socket =>
      if socket.fd < 0 then
        { r with
          -- the loop goes on after `i`: the entry that comes to `i` is not looked at this time
          kernel := r.kernel.close (-socket.fd)
          activeSockets := removeAt r.activeSockets i
          point := .cleanup (i + 1) }
      else
        r.goTo (.cleanup (i + 1))

def pollStep (r : Receiver) (hasNew : Bool) (revents : List Revents) : Option Receiver :=
  if revents.length = r.activeSockets.length ∧
      ∀ x ∈ r.activeSockets.zip revents, r.kernel.polls x.1.fd x.2 then
    -- nothing to do, the call returns
    if hasNew = false ∧ ∀ x ∈ revents, x = .none then
      some (r.goTo (.cleanup 0))
    else
      some { r with
        activeSockets := (r.activeSockets.zip revents).map fun x => { x.1 with revents := x.2 }
        point := .connect hasNew }
  else
    none

/-- `receiver_add_new_connection`; a faulty connection is ignored. -/
def addNewConnection (r : Receiver) (fd : Int) : Option Receiver :=
  if fd < 0 then
    some (r.goTo (.validate 0))
  -- no number that is open is given out
  else if fd ∈ r.kernel.files.map Prod.fst then
    none
  else
    some { r with
      kernel := r.kernel.accept fd
      activeSockets :=
        r.activeSockets ++ [⟨fd, .none, deserializerCreate, r.kernel.accepted.length⟩]
      point := .validate 0 }

/-- A round of the loop that validates the deserializers.  The first that is not valid ends the
call. -/
def validateStep (r : Receiver) (i : Nat) : Exec Receiver :=
  match r.activeSockets[i]? with
  | none => .ok (r.goTo (.read 0))
  | some socket => do
      let isValid ← deserializerValidate socket.deserializer
      if isValid then
        let _ ← deserializerMissing socket.deserializer
        return r.goTo (.validate (i + 1))
      else
        -- back at the head of the polling loop; what `poll` reported for the others is forgotten
        return (r.setSocket i { socket with fd := -socket.fd }).goTo (.cleanup 0)

/-- A round of the loop over the events, when there is nothing to read. -/
def skipStep (r : Receiver) (i : Nat) (socket : ActiveSocket) : Option Receiver :=
  match socket.revents with
  -- the call returns here, too
  | .other => some ((r.setSocket i { socket with fd := -socket.fd }).goTo (.cleanup 0))
  | .none => some (r.goTo (.read (i + 1)))
  | .pollin => none

/-- What `read` answers, with room for `missingBytes` bytes.  The connection is dropped at the end of
its stream and on errors. -/
def takeAnswer (sent : Nat → List UInt8) (r : Receiver) (i : Nat) (socket : ActiveSocket)
    (missingBytes : Nat) : KernelAnswer → Exec (Option Receiver)
  | .eof | .failed =>
      -- not `-fd` as elsewhere: `receiver_cleanup` will close descriptor 1 for it
      .ok (some ((r.setSocket i { socket with fd := -1, revents := .none }).goTo (.read (i + 1))))
  | .data chunk =>
      if chunk ≠ [] ∧ chunk.length ≤ missingBytes ∧ r.kernel.gives sent socket.fd chunk then do
        let de ← socket.deserializer.fill chunk
        let (buf, deserializer) ← deserializerDetach de chunk.length
        let r := r.setSocket i { socket with deserializer, revents := .none }
        return some { r with
          kernel := r.kernel.read socket.fd chunk
          handed := r.handed ++ buf.toList.map (⟨socket.conn, socket.fd, ·⟩)
          point := .read (i + 1) }
      else
        .ok none
  | _ => .ok none

/-- A round of the loop over the events, when there is something to read. -/
def readStep (sent : Nat → List UInt8) (P : Platform) (r : Receiver) (i : Nat)
    (socket : ActiveSocket) (answer : KernelAnswer) : Exec (Option Receiver) := do
  let deserializer ← deserializerBuffer P socket.deserializer
  let missingBytes ← deserializerMissing deserializer
  if missingBytes = 0 then
    .error .assertion
  else
    r.takeAnswer sent i { socket with deserializer } missingBytes answer

/-- The next step of the polling loop; `none` when the answer is to another call. -/
def next (sent : Nat → List UInt8) (P : Platform) (r : Receiver) (answer : KernelAnswer) :
    Exec (Option Receiver) :=
  match r.point, answer with
  | .cleanup i, .go => .ok (some (r.cleanupStep i))
  | .cleanup 0, .shutdownSoft => .ok (some { r with acceptNewConnections := false })
  | .poll, .events hasNew revents => .ok (r.pollStep hasNew revents)
  | .poll, .shutdownSoft =>
      .ok (some { r with acceptNewConnections := false, point := .cleanup 0 })
  | .connect hasNew, .accepted fd =>
      .ok (if hasNew ∧ r.acceptNewConnections then r.addNewConnection fd else none)
  | .connect hasNew, .go =>
      .ok (if hasNew ∧ r.acceptNewConnections then none else some (r.goTo (.validate 0)))
  | .validate i, .go => do
      let r ← r.validateStep i
      return some r
  | .read i, answer =>
      match r.activeSockets[i]? with
      | none => .ok (if answer = .go then some (r.goTo (.cleanup 0)) else none)
      | some socket =>
          if socket.revents = .pollin then
            r.readStep sent P i socket answer
          else
            .ok (if answer = .go then r.skipStep i socket else none)
  | _, _ => .ok none

/-- The steps of a run; `files` are the descriptors that are open at the start, none of them that of
a connection. -/
def Runs (P : Platform) (sent : Nat → List UInt8) (files : List (Int × Endpoint))
    (tr : List (Receiver × KernelAnswer)) (r : Receiver) : Prop :=
  (∀ x ∈ files, x.2 = .other) ∧
    Run (fun r answer r' => r.next sent P answer = .ok (some r')) (start files) tr r

/-! ## 4. What a step does -/

/-- The entries that remain are the others. -/
theorem removeAt_perm {sockets : List ActiveSocket} {i : Nat} {socket : ActiveSocket}
    (h : sockets[i]? = some socket) : (removeAt sockets i).Perm (sockets.eraseIdx i) := by
  obtain ⟨hi, rfl⟩ := List.getElem?_eq_some_iff.mp h
  obtain ⟨init, last, rfl⟩ : ∃ init last, sockets = init ++ [last] :=
    ⟨_, _, (List.dropLast_append_getLast (List.ne_nil_of_length_pos (by omega))).symm⟩
  rw [removeAt, List.getLast?_concat]
  -- either the last entry is the one to go, or it takes the place of that one
  by_cases hlast : i = init.length
  · subst hlast
    rw [List.eraseIdx_append_of_length_le (Nat.le_refl _)]
    simp
  · have hinit : i < init.length := by
      rw [List.length_append, List.length_singleton] at hi
      omega
    show ((init ++ [last]).set i last).dropLast.Perm _
    rw [List.set_append_left _ _ hinit, List.dropLast_concat, List.eraseIdx_append_of_lt_length hinit]
    exact (List.set_perm_cons_eraseIdx hinit last).trans (List.perm_append_singleton _ _).symm

/-- The step, with the point at which it is made. -/
inductive Turn (sent : Nat → List UInt8) (P : Platform) (r : Receiver) :
    KernelAnswer → Receiver → Prop
  | cleaned {i : Nat} (hat : r.point = .cleanup i) (hend : r.activeSockets[i]? = none) :
      Turn sent P r .go (r.goTo .poll)
  | kept {i : Nat} {socket : ActiveSocket} (hat : r.point = .cleanup i)
      (hsocket : r.activeSockets[i]? = some socket) (hopen : 0 ≤ socket.fd) :
      Turn sent P r .go (r.goTo (.cleanup (i + 1)))
  | closed {i : Nat} {socket : ActiveSocket} (hat : r.point = .cleanup i)
      (hsocket : r.activeSockets[i]? = some socket) (hdead : socket.fd < 0) :
      Turn sent P r .go { r with
        kernel := r.kernel.close (-socket.fd)
        activeSockets := removeAt r.activeSockets i
        point := .cleanup (i + 1) }
  | signalled (hat : r.point.early) :
      Turn sent P r .shutdownSoft { r with acceptNewConnections := false, point := .cleanup 0 }
  | quiet {hasNew : Bool} {revents : List Revents} (hat : r.point = .poll) :
      Turn sent P r (.events hasNew revents) (r.goTo (.cleanup 0))
  | polled {hasNew : Bool} {revents : List Revents} (hat : r.point = .poll)
      (hlength : revents.length = r.activeSockets.length)
      (hpolls : ∀ x ∈ r.activeSockets.zip revents, r.kernel.polls x.1.fd x.2) :
      Turn sent P r (.events hasNew revents) { r with
        activeSockets := (r.activeSockets.zip revents).map fun x => { x.1 with revents := x.2 }
        point := .connect hasNew }
  | connected {answer : KernelAnswer} {hasNew : Bool} (hat : r.point = .connect hasNew) :
      Turn sent P r answer (r.goTo (.validate 0))
  | accepted {hasNew : Bool} {fd : Int} (hat : r.point = .connect hasNew) (hfd : 0 ≤ fd)
      (hfree : fd ∉ r.kernel.files.map Prod.fst) :
      Turn sent P r (.accepted fd) { r with
        kernel := r.kernel.accept fd
        activeSockets :=
          r.activeSockets ++ [⟨fd, .none, deserializerCreate, r.kernel.accepted.length⟩]
        point := .validate 0 }
  | validated {i : Nat} {socket : ActiveSocket} (hat : r.point = .validate i)
      (hsocket : r.activeSockets[i]? = some socket)
      (hvalid : deserializerValidate socket.deserializer = .ok true) :
      Turn sent P r .go (r.goTo (.validate (i + 1)))
  | allValid {i : Nat} (hat : r.point = .validate i) (hend : r.activeSockets[i]? = none) :
      Turn sent P r .go (r.goTo (.read 0))
  | invalid {i : Nat} {socket : ActiveSocket} (hat : r.point = .validate i)
      (hsocket : r.activeSockets[i]? = some socket)
      (hvalid : deserializerValidate socket.deserializer = .ok false) :
      Turn sent P r .go ((r.setSocket i { socket with fd := -socket.fd }).goTo (.cleanup 0))
  | hungUp {i : Nat} {socket : ActiveSocket} (hat : r.point = .read i)
      (hsocket : r.activeSockets[i]? = some socket) (hevents : socket.revents = .other) :
      Turn sent P r .go ((r.setSocket i { socket with fd := -socket.fd }).goTo (.cleanup 0))
  | skipped {i : Nat} {socket : ActiveSocket} (hat : r.point = .read i)
      (hsocket : r.activeSockets[i]? = some socket) (hevents : socket.revents = .none) :
      Turn sent P r .go (r.goTo (.read (i + 1)))
  | ended {answer : KernelAnswer} {i : Nat} {socket : ActiveSocket} {de : Deserializer}
      (hanswer : answer = .eof ∨ answer = .failed) (hat : r.point = .read i)
      (hsocket : r.activeSockets[i]? = some socket) (hevents : socket.revents = .pollin)
      (hbuffer : deserializerBuffer P socket.deserializer = .ok de)
      (hmissing : ∃ missing, deserializerMissing de = .ok missing) :
      Turn sent P r answer ((r.setSocket i { socket with
        fd := -1
        deserializer := de
        revents := .none }).goTo (.read (i + 1)))
  | received {i : Nat} {socket : ActiveSocket} {chunk : List UInt8} {de₁ de₂ de₃ : Deserializer}
      {buf : Option Buffer} (hat : r.point = .read i)
      (hsocket : r.activeSockets[i]? = some socket) (hevents : socket.revents = .pollin)
      (hbuffer : deserializerBuffer P socket.deserializer = .ok de₁)
      (hmissing : ∃ missing, deserializerMissing de₁ = .ok missing ∧ chunk.length ≤ missing)
      (hchunk : chunk ≠ []) (hgives : r.kernel.gives sent socket.fd chunk)
      (hfill : de₁.fill chunk = .ok de₂)
      (hdetach : deserializerDetach de₂ chunk.length = .ok (buf, de₃)) :
      Turn sent P r (.data chunk) { r.setSocket i { socket with deserializer := de₃, revents := .none } with
        kernel := r.kernel.read socket.fd chunk
        handed := r.handed ++ buf.toList.map (⟨socket.conn, socket.fd, ·⟩)
        point := .read (i + 1) }
  | done {i : Nat} (hat : r.point = .read i) (hend : r.activeSockets[i]? = none) :
      Turn sent P r .go (r.goTo (.cleanup 0))

variable {sent : Nat → List UInt8} {P : Platform} {r r' : Receiver} {answer : KernelAnswer} {i : Nat}
  {socket : ActiveSocket}

theorem turn_of_cleanupStep (hat : r.point = .cleanup i) : Turn sent P r .go (r.cleanupStep i) := by
  unfold cleanupStep
  split
  · exact .cleaned hat ‹_›
  · rename_i socket hsocket
    split
    · exact .closed hat hsocket ‹_›
    · exact .kept hat hsocket (Int.not_lt.mp ‹_›)

theorem turn_of_pollStep {hasNew : Bool} {revents : List Revents} (hat : r.point = .poll)
    (hx : r.pollStep hasNew revents = some r') : Turn sent P r (.events hasNew revents) r' := by
  unfold pollStep at hx
  split at hx
  · rename_i hguard
    split at hx
    · cases hx
      exact .quiet hat
    · cases hx
      exact .polled hat hguard.1 hguard.2
  · cases hx

theorem turn_of_addNewConnection {hasNew : Bool} {fd : Int} (hat : r.point = .connect hasNew)
    (hx : r.addNewConnection fd = some r') : Turn sent P r (.accepted fd) r' := by
  unfold addNewConnection at hx
  split at hx
  · cases hx
    exact .connected hat
  · rename_i hfd
    split at hx
    · cases hx
    · rename_i hfree
      cases hx
      exact .accepted hat (Int.not_lt.mp hfd) hfree

theorem turn_of_validateStep (hat : r.point = .validate i) (hx : r.validateStep i = .ok r') :
    Turn sent P r .go r' := by
  unfold validateStep at hx
  split at hx
  · rename_i hend
    cases hx
    exact .allValid hat hend
  · rename_i socket hsocket
    obtain ⟨isValid, hvalid, hx⟩ := Exec.bind_eq_ok.mp hx
    cases isValid with
    | false =>
      cases hx
      exact .invalid hat hsocket hvalid
    | true =>
      obtain ⟨missing, -, hx⟩ := Exec.bind_eq_ok.mp hx
      cases hx
      exact .validated hat hsocket hvalid

theorem turn_of_skipStep (hat : r.point = .read i) (hsocket : r.activeSockets[i]? = some socket)
    (hx : r.skipStep i socket = some r') : Turn sent P r .go r' := by
  unfold skipStep at hx
  split at hx
  · cases hx
    exact .hungUp hat hsocket ‹_›
  · cases hx
    exact .skipped hat hsocket ‹_›
  · cases hx

theorem turn_of_readStep (hat : r.point = .read i) (hsocket : r.activeSockets[i]? = some socket)
    (hevents : socket.revents = .pollin)
    (hx : r.readStep sent P i socket answer = .ok (some r')) : Turn sent P r answer r' := by
  obtain ⟨de, hbuffer, hx⟩ := Exec.bind_eq_ok.mp hx
  obtain ⟨missing, hmissing, hx⟩ := Exec.bind_eq_ok.mp hx
  split at hx
  · cases hx
  · cases answer with
    | eof | failed =>
      cases hx
      have hended : ∀ answer, answer = .eof ∨ answer = .failed → Turn sent P r answer _ :=
        fun answer hanswer => .ended hanswer hat hsocket hevents hbuffer ⟨missing, hmissing⟩
      exact hended _ (by simp)
    | data chunk =>
      simp only [takeAnswer] at hx
      split at hx
      · rename_i hguard
        obtain ⟨hchunk, hle, hgives⟩ := hguard
        obtain ⟨de₂, hfill, hx⟩ := Exec.bind_eq_ok.mp hx
        obtain ⟨⟨buf, de₃⟩, hdetach, hx⟩ := Exec.bind_eq_ok.mp hx
        cases hx
        exact .received hat hsocket hevents hbuffer ⟨missing, hmissing, hle⟩ hchunk hgives hfill
          hdetach
      · cases hx
    | go | events | shutdownSoft | accepted => cases hx

/-- Every step of the loop is one of these. -/
theorem turn_of_next (hx : r.next sent P answer = .ok (some r')) : Turn sent P r answer r' := by
  unfold next at hx
  split at hx
  · rename_i hat
    cases hx
    exact turn_of_cleanupStep hat
  · rename_i hat
    cases hx
    have hturn : Turn sent P r .shutdownSoft
        { r with acceptNewConnections := false, point := .cleanup 0 } := .signalled (by rw [hat]; rfl)
    rwa [← hat] at hturn
  · rename_i hat
    exact turn_of_pollStep hat (Except.ok.inj hx)
  · rename_i hat
    cases hx
    exact .signalled (by rw [hat]; rfl)
  · rename_i hat
    simp only [Except.ok.injEq] at hx
    split at hx
    · exact turn_of_addNewConnection hat hx
    · cases hx
  · rename_i hat
    simp only [Except.ok.injEq] at hx
    split at hx
    · cases hx
    · cases hx
      exact .connected hat
  · -- the loop over the deserializers
    rename_i hat
    obtain ⟨r₁, hstep, hx⟩ := Exec.bind_eq_ok.mp hx
    cases hx
    exact turn_of_validateStep hat hstep
  · -- the loop over the events
    rename_i hat
    split at hx
    · rename_i hend
      simp only [Except.ok.injEq] at hx
      split at hx
      · rename_i hgo
        cases hx
        subst hgo
        exact .done hat hend
      · cases hx
    · rename_i socket hsocket
      split at hx
      · exact turn_of_readStep hat hsocket ‹_› hx
      · simp only [Except.ok.injEq] at hx
        split at hx
        · rename_i hgo
          subst hgo
          exact turn_of_skipStep hat hsocket hx
        · cases hx
  · cases hx

/-- The same step, whatever the point is where only that changes. -/
inductive Step (sent : Nat → List UInt8) (P : Platform) (r : Receiver) :
    KernelAnswer → Receiver → Prop
  | moved {answer : KernelAnswer} {accept : Bool} {point : PollPoint} (hearly : point.early) :
      Step sent P r answer { r with acceptNewConnections := accept, point }
  | closed {i : Nat} {socket : ActiveSocket} (hat : r.point = .cleanup i)
      (hsocket : r.activeSockets[i]? = some socket) (hdead : socket.fd < 0) :
      Step sent P r .go { r with
        kernel := r.kernel.close (-socket.fd)
        activeSockets := removeAt r.activeSockets i
        point := .cleanup (i + 1) }
  | polled {hasNew : Bool} {revents : List Revents}
      (hlength : revents.length = r.activeSockets.length)
      (hpolls : ∀ x ∈ r.activeSockets.zip revents, r.kernel.polls x.1.fd x.2) :
      Step sent P r (.events hasNew revents) { r with
        activeSockets := (r.activeSockets.zip revents).map fun x => { x.1 with revents := x.2 }
        point := .connect hasNew }
  | connected {answer : KernelAnswer} {hasNew : Bool} (hat : r.point = .connect hasNew) :
      Step sent P r answer (r.goTo (.validate 0))
  | accepted {hasNew : Bool} {fd : Int} (hat : r.point = .connect hasNew) (hfd : 0 ≤ fd)
      (hfree : fd ∉ r.kernel.files.map Prod.fst) :
      Step sent P r (.accepted fd) { r with
        kernel := r.kernel.accept fd
        activeSockets :=
          r.activeSockets ++ [⟨fd, .none, deserializerCreate, r.kernel.accepted.length⟩]
        point := .validate 0 }
  | validated {i : Nat} {socket : ActiveSocket} (hat : r.point = .validate i)
      (hsocket : r.activeSockets[i]? = some socket)
      (hvalid : deserializerValidate socket.deserializer = .ok true) :
      Step sent P r .go (r.goTo (.validate (i + 1)))
  | allValid {i : Nat} (hat : r.point = .validate i) (hend : r.activeSockets[i]? = none) :
      Step sent P r .go (r.goTo (.read 0))
  | invalid {i : Nat} {socket : ActiveSocket} (hat : r.point = .validate i)
      (hsocket : r.activeSockets[i]? = some socket)
      (hvalid : deserializerValidate socket.deserializer = .ok false) :
      Step sent P r .go ((r.setSocket i { socket with fd := -socket.fd }).goTo (.cleanup 0))
  | hungUp {i : Nat} {socket : ActiveSocket} (hat : r.point = .read i)
      (hsocket : r.activeSockets[i]? = some socket) (hevents : socket.revents = .other) :
      Step sent P r .go ((r.setSocket i { socket with fd := -socket.fd }).goTo (.cleanup 0))
  | skipped {i : Nat} (hat : r.point = .read i) : Step sent P r .go (r.goTo (.read (i + 1)))
  | ended {answer : KernelAnswer} {i : Nat} {socket : ActiveSocket} {de : Deserializer}
      (hat : r.point = .read i) (hsocket : r.activeSockets[i]? = some socket)
      (hbuffer : deserializerBuffer P socket.deserializer = .ok de)
      (hmissing : ∃ missing, deserializerMissing de = .ok missing) :
      Step sent P r answer ((r.setSocket i { socket with
        fd := -1
        deserializer := de
        revents := .none }).goTo (.read (i + 1)))
  | received {i : Nat} {socket : ActiveSocket} {chunk : List UInt8} {de₁ de₂ de₃ : Deserializer}
      {buf : Option Buffer} (hat : r.point = .read i)
      (hsocket : r.activeSockets[i]? = some socket) (hevents : socket.revents = .pollin)
      (hbuffer : deserializerBuffer P socket.deserializer = .ok de₁)
      (hmissing : ∃ missing, deserializerMissing de₁ = .ok missing ∧ chunk.length ≤ missing)
      (hchunk : chunk ≠ []) (hgives : r.kernel.gives sent socket.fd chunk)
      (hfill : de₁.fill chunk = .ok de₂)
      (hdetach : deserializerDetach de₂ chunk.length = .ok (buf, de₃)) :
      Step sent P r (.data chunk) { r.setSocket i { socket with deserializer := de₃, revents := .none } with
        kernel := r.kernel.read socket.fd chunk
        handed := r.handed ++ buf.toList.map (⟨socket.conn, socket.fd, ·⟩)
        point := .read (i + 1) }

theorem step_of_next (hx : r.next sent P answer = .ok (some r')) : Step sent P r answer r' := by
  cases turn_of_next hx with
  | cleaned | kept | signalled | quiet | done => exact .moved rfl
  | closed hat hsocket hdead => exact .closed hat hsocket hdead
  | polled hat hlength hpolls => exact .polled hlength hpolls
  | connected hat => exact .connected hat
  | accepted hat hfd hfree => exact .accepted hat hfd hfree
  | validated hat hsocket hvalid => exact .validated hat hsocket hvalid
  | allValid hat hend => exact .allValid hat hend
  | invalid hat hsocket hvalid => exact .invalid hat hsocket hvalid
  | hungUp hat hsocket hevents => exact .hungUp hat hsocket hevents
  | skipped hat hsocket hevents => exact .skipped hat
  | ended hanswer hat hsocket hevents hbuffer hmissing => exact .ended hat hsocket hbuffer hmissing
  | received hat hsocket hevents hbuffer hmissing hchunk hgives hfill hdetach =>
    exact .received hat hsocket hevents hbuffer hmissing hchunk hgives hfill hdetach

/-- The answers to a call of `receiver_poll` with one entry, which reads `chunk`. -/
def pollOne (chunk : List UInt8) : List KernelAnswer :=
  [.go, .go, .events false [.pollin], .go, .go, .go, .data chunk, .go]

/-- The standard streams and the main socket. -/
def usualFiles : List (Int × Endpoint) := [(0, .other), (1, .other), (2, .other), (3, .other)]

theorem runs_of_answers (P : Platform) (sent : Nat → List UInt8) (answers : List KernelAnswer)
    (test : List (Receiver × KernelAnswer) → Receiver → Bool)
    (hx : (replay (fun r answer => (r.next sent P answer).toOption.join) (start usualFiles)
      answers).any (fun x => test x.1 x.2) = true) :
    ∃ tr r, Runs P sent usualFiles tr r ∧ test tr r = true := by
  obtain ⟨x, hreplay, htest⟩ := (Option.any_eq_true _ _).mp hx
  have hother : ∀ x ∈ usualFiles, x.2 = .other := by decide
  refine ⟨x.1, x.2, ⟨hother, Run.of_replay (fun r answer r' hnext => ?_) hreplay⟩, htest⟩
  exact Exec.toOption_eq_some.mp (Option.join_eq_some_iff.mp hnext)

end Receiver

end FileStorage.Server
