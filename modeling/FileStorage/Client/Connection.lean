import FileStorage.Run
import FileStorage.Server.Worker
import Mathlib.Data.Finset.Card

/-!
# Connection — opening and closing the connection to the server

`openConnection` makes a socket for every attempt and tries again until one is connected or the time
is over.
-/

namespace FileStorage.Client.Connection

open Memory
open Server (ApiOp)

/-! ## 1. The code -/

/-- The values of `errno` that the library sets, and those that the system calls leave. -/
inductive Errno where
  | noEnt
  | perm
  | timedOut
  | ofCall
deriving DecidableEq

structure ConnectionState where
  connectionIsOpen : Bool
  fd : Int
  socketName : Ptr
  lastOperation : Option ApiOp  -- `none` is the 0xff of the start
deriving DecidableEq

/-- The client with its open descriptors and the names that it has allocated. -/
structure Process where
  state : ConnectionState
  errno : Errno
  descriptors : Finset Nat
  names : Heap CStr
deriving DecidableEq

/-- `socket` gives the lowest descriptor that is not open. -/
def lowestUnused (descriptors : Finset Nat) : Nat :=
  ((List.range (descriptors.card + 1)).find? (· ∉ descriptors)).getD 0

/-- What the two system calls of an attempt give. -/
inductive Outcome where
  | noSocket   -- `socket` fails
  | refused    -- `connect` fails
  | connected
deriving DecidableEq

/-- The bytes of `sun_path`. -/
def sunPathSize : Nat := 108

def attemptConnection (p : Process) (sockname : CStr) (outcome : Outcome) :
    Exec (Int32 × Process) :=
  match outcome with
  | .noSocket => .ok (-1, { p with errno := .ofCall })
  | .refused | .connected =>
      let fd := lowestUnused p.descriptors
      let p := { p with
        descriptors := insert fd p.descriptors
        state := { p.state with fd } }
      -- `strcpy` into `sun_path`, with the NUL
      if sunPathSize ≤ sockname.strlen then
        .error .fault
      else
        let p := { p with
          names := p.names.alloc sockname
          state := { p.state with socketName := some p.names.fresh } }
        if outcome = .refused then
          .ok (-1, { p with errno := .ofCall })
        else
          .ok (0, { p with state := { p.state with connectionIsOpen := true, fd } })

/-- One round of the loop: the seconds on the clock, and the attempt if there is one. -/
structure Round where
  now : Int
  outcome : Outcome
deriving DecidableEq

def openLoop (p : Process) (sockname : CStr) (msec : Int32) (abstime : Int) :
    List Round → Exec (Int32 × Process)
  | [] => .error .diverge
  | round :: rounds => do
      if abstime < round.now ∧ 0 < abstime then
        return (-1, { p with errno := .timedOut })
      let (err, p) ← attemptConnection p sockname round.outcome
      if err ≠ 0 then
        waitMsec msec
        openLoop p sockname msec abstime rounds
      else
        return (0, p)

/-- `abstime` are its seconds. -/
def openConnection (p : Process) (sockname : CStr) (msec : Int32) (abstime : Int)
    (rounds : List Round) : Exec (Int32 × Process) :=
  let p := { p with state := { p.state with lastOperation := some .openConnection } }
  if p.state.connectionIsOpen then
    .ok (-1, { p with errno := .noEnt })
  else
    openLoop p sockname msec abstime rounds

/-- `close` fails on a descriptor that is not open. -/
def closeConnection (p : Process) (sockname : CStr) : Exec (Int32 × Process) :=
  let p := { p with state := { p.state with lastOperation := some .closeConnection } }
  if !p.state.connectionIsOpen then
    .ok (-1, { p with errno := .noEnt })
  else
    match p.state.socketName with
    | none => .error .fault
    | some a => do
        let name ← p.names.load a
        if name ≠ sockname then
          return (-1, { p with errno := .perm })
        if p.state.fd < 0 ∨ p.state.fd.toNat ∉ p.descriptors then
          return (-1, { p with errno := .ofCall })
        return (0, { p with
          descriptors := p.descriptors.erase p.state.fd.toNat
          names := p.names.free a
          state := { p.state with connectionIsOpen := false, socketName := none, fd := -1 } })

/-! ## 2. What a call leaves -/

/-- The connection is the one before. -/
structure SameConnection (p p' : Process) : Prop where
  connectionIsOpen : p'.state.connectionIsOpen = p.state.connectionIsOpen
  fd : p'.state.fd = p.state.fd
  socketName : p'.state.socketName = p.state.socketName
  descriptors : p'.descriptors = p.descriptors

/-- There are one descriptor and one name more, those of the connection. -/
structure OneConnection (p p' : Process) (sockname : CStr) : Prop where
  fd : ∃ fd, fd ∉ p.descriptors ∧ p'.descriptors = insert fd p.descriptors ∧ p'.state.fd = fd
  socketName : ∃ a, p.names.read a = none ∧ p'.names.read a = some sockname ∧
    p'.names.live = p.names.live + 1 ∧ p'.state.socketName = some a

def Round.late (abstime : Int) (round : Round) : Bool := abstime < round.now ∧ 0 < abstime

/-- The rounds whose attempts fail. -/
def failedRounds (abstime : Int) (rounds : List Round) : List Round :=
  rounds.takeWhile fun round => !round.late abstime && round.outcome ≠ .connected

/-- How often a socket was made and not connected. -/
def refusals (abstime : Int) (rounds : List Round) : Nat :=
  (failedRounds abstime rounds).countP (·.outcome = .refused)

/-! ## 3. One round -/

variable {p p' : Process} {sockname : CStr} {msec result : Int32} {abstime : Int}
  {round : Round} {rounds : List Round}

theorem lowestUnused_notMem (descriptors : Finset Nat) :
    lowestUnused descriptors ∉ descriptors := by
  unfold lowestUnused
  cases hfind : (List.range (descriptors.card + 1)).find? (· ∉ descriptors) with
  | some fd => simpa using List.find?_some hfind
  | none =>
    -- there are more numbers than open descriptors
    have hcard : descriptors.card < (Finset.range (descriptors.card + 1)).card := by
      rw [Finset.card_range]
      omega
    obtain ⟨fd, hfd, hnot⟩ := Finset.exists_mem_notMem_of_card_lt_card hcard
    have hall := List.find?_eq_none.mp hfind fd (List.mem_range.mpr (Finset.mem_range.mp hfd))
    exact absurd hnot (by simpa using hall)

/-- The process with a socket and a copy of its name. -/
def Process.withSocket (p : Process) (sockname : CStr) : Process :=
  { p with
    descriptors := insert (lowestUnused p.descriptors) p.descriptors
    names := p.names.alloc sockname
    state := { p.state with
      fd := lowestUnused p.descriptors, socketName := some p.names.fresh } }

def Process.connect (p : Process) (sockname : CStr) : Process :=
  { p.withSocket sockname with
    state := { (p.withSocket sockname).state with connectionIsOpen := true } }

/-- What a round can do. -/
theorem openLoop_cons
    (h : openLoop p sockname msec abstime (round :: rounds) = .ok (result, p')) :
    (round.late abstime = true ∧ result = -1 ∧ p' = { p with errno := .timedOut }) ∨
    (round.late abstime = false ∧ round.outcome = .connected ∧ result = 0 ∧
      p' = p.connect sockname) ∨
    (round.late abstime = false ∧ round.outcome = .noSocket ∧
      openLoop { p with errno := .ofCall } sockname msec abstime rounds = .ok (result, p')) ∨
    (round.late abstime = false ∧ round.outcome = .refused ∧
      openLoop { p.withSocket sockname with errno := .ofCall } sockname msec abstime rounds =
        .ok (result, p')) := by
  rw [openLoop] at h
  split at h
  · rename_i hlate
    cases h
    exact Or.inl ⟨decide_eq_true hlate, rfl, rfl⟩
  · rename_i hlate
    have hearly : round.late abstime = false := decide_eq_false hlate
    obtain ⟨⟨err, p₁⟩, hattempt, h⟩ := Exec.bind_eq_ok.mp h
    cases houtcome : round.outcome with
    | noSocket =>
      rw [houtcome] at hattempt
      cases hattempt
      obtain ⟨_, -, h⟩ := Exec.bind_eq_ok.mp h
      exact Or.inr (Or.inr (Or.inl ⟨hearly, rfl, h⟩))
    | refused =>
      rw [houtcome, attemptConnection] at hattempt
      split at hattempt
      · cases hattempt
      · cases hattempt
        obtain ⟨_, -, h⟩ := Exec.bind_eq_ok.mp h
        exact Or.inr (Or.inr (Or.inr ⟨hearly, rfl, h⟩))
    | connected =>
      rw [houtcome, attemptConnection] at hattempt
      split at hattempt
      · cases hattempt
      · cases hattempt
        cases h
        exact Or.inr (Or.inl ⟨hearly, rfl, rfl, rfl⟩)

/-! ## 4. All rounds -/

theorem failedRounds_cons (abstime : Int) (round : Round) (rounds : List Round) :
    failedRounds abstime (round :: rounds) =
      if round.late abstime = false ∧ round.outcome ≠ .connected then
        round :: failedRounds abstime rounds
      else
        [] := by
  simp [failedRounds, List.takeWhile_cons]

theorem refusals_cons (abstime : Int) (round : Round) (rounds : List Round) :
    refusals abstime (round :: rounds) =
      if round.late abstime = false ∧ round.outcome ≠ .connected then
        refusals abstime rounds + if round.outcome = .refused then 1 else 0
      else
        0 := by
  rw [refusals, failedRounds_cons]
  split
  · simp [refusals, List.countP_cons]
  · rfl

/-- There are `k` descriptors and `k` names more. -/
structure Gained (k : Nat) (p p' : Process) : Prop where
  descriptors : p'.descriptors.card = p.descriptors.card + k
  names : p'.names.live = p.names.live + k

theorem withSocket_gained (p : Process) (sockname : CStr) :
    Gained 1 p (p.withSocket sockname) :=
  ⟨Finset.card_insert_of_notMem (lowestUnused_notMem _), Heap.live_alloc _ _⟩

theorem Gained.trans {k k' : Nat} {p₁ p₂ p₃ : Process} (h : Gained k p₁ p₂)
    (h' : Gained k' p₂ p₃) : Gained (k + k') p₁ p₃ where
  descriptors := by rw [h'.descriptors, h.descriptors, Nat.add_assoc]
  names := by rw [h'.names, h.names, Nat.add_assoc]

theorem connect_oneConnection (p : Process) (sockname : CStr) :
    OneConnection p (p.connect sockname) sockname where
  fd := ⟨lowestUnused p.descriptors, lowestUnused_notMem _, rfl, rfl⟩
  socketName := by
    refine ⟨p.names.fresh, Heap.read_fresh _, ?_, Heap.live_alloc _ _, rfl⟩
    show (p.names.alloc sockname).read p.names.fresh = some sockname
    rw [Heap.read_alloc, if_pos rfl]

theorem OneConnection.gained (h : OneConnection p p' sockname) : Gained 1 p p' := by
  obtain ⟨fd, hnot, hinsert, -⟩ := h.fd
  obtain ⟨a, -, -, hlive, -⟩ := h.socketName
  exact ⟨by rw [hinsert, Finset.card_insert_of_notMem hnot], hlive⟩

theorem SameConnection.trans {p₁ p₂ p₃ : Process} (h : SameConnection p₁ p₂)
    (h' : SameConnection p₂ p₃) : SameConnection p₁ p₃ where
  connectionIsOpen := h'.connectionIsOpen.trans h.connectionIsOpen
  fd := h'.fd.trans h.fd
  socketName := h'.socketName.trans h.socketName
  descriptors := h'.descriptors.trans h.descriptors

/-- `errno` and the last operation do not matter. -/
theorem OneConnection.of_same {p₁ : Process} (h : OneConnection p₁ p' sockname)
    (hsame : SameConnection p p₁) (hnames : p₁.names = p.names) : OneConnection p p' sockname where
  fd := by
    rw [← hsame.descriptors]
    exact h.fd
  socketName := by
    rw [← hnames]
    exact h.socketName

/-- Every refused attempt keeps its descriptor and its name. -/
theorem openLoop_gained (h : openLoop p sockname msec abstime rounds = .ok (result, p')) :
    (result = 0 ∨ result = -1) ∧
      Gained (refusals abstime rounds + if result = 0 then 1 else 0) p p' := by
  induction rounds generalizing p with
  | nil => cases h
  | cons round rounds ih =>
    rcases openLoop_cons h with ⟨hlate, rfl, rfl⟩ | ⟨hearly, houtcome, rfl, rfl⟩ |
      ⟨hearly, houtcome, hrest⟩ | ⟨hearly, houtcome, hrest⟩
    · -- the time is over
      have hnone : refusals abstime (round :: rounds) = 0 := by simp [refusals_cons, hlate]
      rw [hnone]
      exact ⟨Or.inr rfl, rfl, rfl⟩
    · have hnone : refusals abstime (round :: rounds) = 0 := by simp [refusals_cons, houtcome]
      rw [hnone]
      exact ⟨Or.inl rfl, (connect_oneConnection p sockname).gained⟩
    · have hsame : refusals abstime (round :: rounds) = refusals abstime rounds := by
        simp [refusals_cons, hearly, houtcome]
      obtain ⟨hresult, hgained⟩ := ih hrest
      rw [hsame]
      exact ⟨hresult, hgained.descriptors, hgained.names⟩
    · have hmore : refusals abstime (round :: rounds) = refusals abstime rounds + 1 := by
        simp [refusals_cons, hearly, houtcome]
      obtain ⟨hresult, hgained⟩ := ih hrest
      have hsum := (withSocket_gained p sockname).trans ⟨hgained.descriptors, hgained.names⟩
      rw [hmore, Nat.add_comm _ 1, Nat.add_assoc]
      exact ⟨hresult, hsum⟩

/-- Without a refused attempt the state changes only on success. -/
theorem openLoop_clean (h : openLoop p sockname msec abstime rounds = .ok (result, p'))
    (hclean : refusals abstime rounds = 0) :
    (result = 0 → OneConnection p p' sockname) ∧ (result = -1 → SameConnection p p') := by
  induction rounds generalizing p with
  | nil => cases h
  | cons round rounds ih =>
    rw [refusals_cons] at hclean
    rcases openLoop_cons h with ⟨hlate, rfl, rfl⟩ | ⟨hearly, houtcome, rfl, rfl⟩ |
      ⟨hearly, houtcome, hrest⟩ | ⟨hearly, houtcome, hrest⟩
    · exact ⟨nofun, fun _ => ⟨rfl, rfl, rfl, rfl⟩⟩
    · exact ⟨fun _ => connect_oneConnection p sockname, nofun⟩
    · rw [hearly, houtcome] at hclean
      obtain ⟨hone, hsame⟩ := ih hrest hclean
      -- only `errno` is new
      have hstep : SameConnection p { p with errno := .ofCall } := ⟨rfl, rfl, rfl, rfl⟩
      exact ⟨fun hr => (hone hr).of_same hstep rfl, fun hr => hstep.trans (hsame hr)⟩
    · rw [hearly, houtcome] at hclean
      simp at hclean

/-! ## 5. When nothing is left behind -/

theorem refusals_eq_zero :
    refusals abstime rounds = 0 ↔
      ∀ round ∈ failedRounds abstime rounds, round.outcome ≠ .refused := by
  rw [refusals, List.countP_eq_zero]
  simp

/-- A call leaves what it should exactly when no attempt of it has a socket that is not connected. -/
theorem openConnection_leaves_iff
    (h : openConnection p sockname msec abstime rounds = .ok (result, p')) :
    ((result = 0 → OneConnection p p' sockname) ∧ (result = -1 → SameConnection p p')) ↔
      p.state.connectionIsOpen = true ∨
        ∀ round ∈ failedRounds abstime rounds, round.outcome ≠ .refused := by
  rw [openConnection] at h
  dsimp only at h
  split at h
  · -- the call fails at once
    rename_i hopen
    cases h
    exact iff_of_true ⟨nofun, fun _ => ⟨rfl, rfl, rfl, rfl⟩⟩ (Or.inl hopen)
  · rename_i hclosed
    rw [or_iff_right hclosed, ← refusals_eq_zero]
    constructor
    · -- the open descriptors are counted
      rintro ⟨hone, hsame⟩
      obtain ⟨hresult, hgained⟩ := openLoop_gained h
      have hcard := hgained.descriptors
      rcases hresult with rfl | rfl
      · have hgain := (hone rfl).gained.descriptors
        rw [if_pos rfl] at hcard
        dsimp only at hcard
        omega
      · have hkeep := (hsame rfl).descriptors
        rw [if_neg (by decide), hkeep] at hcard
        dsimp only at hcard
        omega
    · intro hclean
      obtain ⟨hone, hsame⟩ := openLoop_clean h hclean
      have hstart : SameConnection p
          { p with state := { p.state with lastOperation := some .openConnection } } :=
        ⟨rfl, rfl, rfl, rfl⟩
      exact ⟨fun hr => (hone hr).of_same hstart rfl, fun hr => hstart.trans (hsame hr)⟩

/-- The client at its start, with the standard streams. -/
def Process.start : Process where
  state := { connectionIsOpen := false, fd := -1, socketName := none, lastOperation := none }
  errno := .ofCall
  descriptors := {0, 1, 2}
  names := .empty

/-- A second attempt, after one without a socket. -/
theorem openConnection_leaves_retried :
    ∃ p', openConnection .start (bufToStr [115]) 300 0 [⟨0, .noSocket⟩, ⟨1, .connected⟩] =
        .ok (0, p') ∧ OneConnection .start p' (bufToStr [115]) := by
  obtain ⟨p', hx⟩ : ∃ p', openConnection .start (bufToStr [115]) 300 0
      [⟨0, .noSocket⟩, ⟨1, .connected⟩] = .ok (0, p') := ⟨_, rfl⟩
  exact ⟨p', hx, ((openConnection_leaves_iff hx).mpr (Or.inr (by decide))).1 rfl⟩

/-- After a refused attempt the second one leaves two sockets. -/
theorem openConnection_leaks :
    ¬ ∀ (p p' : Process) (sockname : CStr) (msec result : Int32) (abstime : Int)
      (rounds : List Round), openConnection p sockname msec abstime rounds = .ok (result, p') →
        (result = 0 → OneConnection p p' sockname) ∧ (result = -1 → SameConnection p p') := by
  intro hclaim
  have hone := (hclaim .start _ (bufToStr [115]) 300 0 0 [⟨0, .refused⟩, ⟨1, .connected⟩] rfl).1 rfl
  have hcard := hone.gained.descriptors
  revert hcard
  decide

/-- A call returns when an attempt succeeds or the time runs out, unless the name is too long or the
interval negative. -/
theorem openConnection_returns (p : Process) (hname : sockname.strlen < sunPathSize)
    (hmsec : waitMsec msec = .ok ())
    (hlast : ∃ round ∈ rounds, round.late abstime = true ∨ round.outcome = .connected) :
    ∃ x, openConnection p sockname msec abstime rounds = .ok x := by
  have hloop : ∀ p, ∃ x, openLoop p sockname msec abstime rounds = .ok x := by
    induction rounds with
    | nil => simp at hlast
    | cons round rounds ih =>
      intro p
      rw [openLoop]
      by_cases hlate : abstime < round.now ∧ 0 < abstime
      · rw [if_pos hlate]
        exact ⟨_, rfl⟩
      · rw [if_neg hlate]
        have hearly : round.late abstime = false := decide_eq_false hlate
        have hrest : round.outcome ≠ .connected →
            ∀ p, ∃ x, openLoop p sockname msec abstime rounds = .ok x := by
          intro hfails
          refine ih ?_
          obtain ⟨last, hmem, hlast⟩ := hlast
          rcases List.mem_cons.mp hmem with rfl | hmem
          · rw [hearly] at hlast
            exact absurd (hlast.resolve_left nofun) hfails
          · exact ⟨last, hmem, hlast⟩
        unfold attemptConnection
        cases houtcome : round.outcome with
        | noSocket =>
          obtain ⟨x, hx⟩ := hrest (by rw [houtcome]; nofun) { p with errno := .ofCall }
          exact ⟨x, by simp [hmsec, hx]⟩
        | refused =>
          obtain ⟨x, hx⟩ := hrest (by rw [houtcome]; nofun)
            { p.withSocket sockname with errno := .ofCall }
          refine ⟨x, ?_⟩
          simp only [if_neg (Nat.not_le.mpr hname), Exec.ok_bind, if_true]
          rw [if_pos (by decide), hmsec]
          exact hx
        | connected =>
          simp only [if_neg (Nat.not_le.mpr hname)]
          exact ⟨_, rfl⟩
  unfold openConnection
  dsimp only
  split
  · exact ⟨_, rfl⟩
  · exact hloop _

/-! ## 6. Calls one after another -/

inductive Call where
  | openConnection (sockname : CStr) (msec : Int32) (abstime : Int) (rounds : List Round)
  | closeConnection (sockname : CStr)

def Process.call (p : Process) : Call → Exec (Int32 × Process)
  | .openConnection sockname msec abstime rounds =>
      Connection.openConnection p sockname msec abstime rounds
  | .closeConnection sockname => Connection.closeConnection p sockname

/-- How many sockets the call leaves behind. -/
def Call.leaks (p : Process) : Call → Nat
  | .openConnection _ _ abstime rounds =>
      if p.state.connectionIsOpen then 0 else refusals abstime rounds
  | .closeConnection _ => 0

/-- What is read and closed in the end belongs to the process. -/
structure Process.Connected (p : Process) : Prop where
  fd : ∃ fd ∈ p.descriptors, p.state.fd = fd
  socketName : ∃ a name, p.state.socketName = some a ∧ p.names.read a = some name

/-- Whatever is there beyond the start was left behind, `k` times, or is the connection. -/
structure Ledger (p₀ : Process) (k : Nat) (p : Process) : Prop where
  gained : Gained (k + if p.state.connectionIsOpen then 1 else 0) p₀ p
  connected : p.state.connectionIsOpen = true → p.Connected

theorem openLoop_connected (h : openLoop p sockname msec abstime rounds = .ok (result, p')) :
    (result = 0 → p'.state.connectionIsOpen = true ∧ p'.Connected) ∧
      (result ≠ 0 → p'.state.connectionIsOpen = p.state.connectionIsOpen) := by
  induction rounds generalizing p with
  | nil => cases h
  | cons round rounds ih =>
    rcases openLoop_cons h with ⟨-, rfl, rfl⟩ | ⟨-, -, rfl, rfl⟩ | ⟨-, -, hrest⟩ | ⟨-, -, hrest⟩
    · exact ⟨nofun, fun _ => rfl⟩
    · obtain ⟨fd, -, hinsert, hfd⟩ := (connect_oneConnection p sockname).fd
      obtain ⟨a, -, hread, -, hname⟩ := (connect_oneConnection p sockname).socketName
      have hmem : fd ∈ (p.connect sockname).descriptors := by
        rw [hinsert]
        exact Finset.mem_insert_self fd _
      exact ⟨fun _ => ⟨rfl, ⟨fd, hmem, hfd⟩, ⟨a, sockname, hname, hread⟩⟩, fun h => absurd rfl h⟩
    · obtain ⟨hopened, hkept⟩ := ih hrest
      exact ⟨hopened, hkept⟩
    · obtain ⟨hopened, hkept⟩ := ih hrest
      exact ⟨hopened, hkept⟩

theorem Ledger.openConnection {p₀ : Process} {k : Nat} (hledger : Ledger p₀ k p)
    (h : openConnection p sockname msec abstime rounds = .ok (result, p')) :
    Ledger p₀ (k + (Call.openConnection sockname msec abstime rounds).leaks p) p' := by
  rw [Connection.openConnection] at h
  dsimp only at h
  split at h
  · rename_i hopen
    cases h
    rw [Call.leaks, if_pos hopen]
    have hconnected := hledger.connected hopen
    exact ⟨⟨hledger.gained.descriptors, hledger.gained.names⟩, fun _ =>
      ⟨hconnected.fd, hconnected.socketName⟩⟩
  · rename_i hclosed
    rw [Call.leaks, if_neg hclosed]
    obtain ⟨-, hgained⟩ := openLoop_gained h
    obtain ⟨hopened, hkept⟩ := openLoop_connected h
    have hbefore := hledger.gained
    rw [if_neg hclosed] at hbefore
    have hsum : Gained _ p₀ p' := hbefore.trans ⟨hgained.descriptors, hgained.names⟩
    rw [Nat.add_zero, ← Nat.add_assoc] at hsum
    by_cases hzero : result = 0
    · obtain ⟨hopen, hconnected⟩ := hopened hzero
      rw [if_pos hzero] at hsum
      refine ⟨?_, fun _ => hconnected⟩
      rw [if_pos hopen]
      exact hsum
    · have hstill : ¬ p'.state.connectionIsOpen = true := by
        rw [hkept hzero]
        exact hclosed
      rw [if_neg hzero] at hsum
      refine ⟨?_, fun hopen => absurd hopen hstill⟩
      rw [if_neg hstill]
      exact hsum

/-- A connection is closed under its name, and nothing else happens to it. -/
theorem closeConnection_cases (sockname : CStr) (hconnected : p.state.connectionIsOpen = true → p.Connected) :
    (∃ p', closeConnection p sockname = .ok (-1, p') ∧ SameConnection p p' ∧ p'.names = p.names) ∨
    ∃ p' fd a, closeConnection p sockname = .ok (0, p') ∧ p.state.connectionIsOpen = true ∧
      fd ∈ p.descriptors ∧ p.names.read a = some sockname ∧ p.state.fd = fd ∧
      p.state.socketName = some a ∧ p'.descriptors = p.descriptors.erase fd ∧
      p'.names = p.names.free a ∧ p'.state.connectionIsOpen = false := by
  unfold closeConnection
  dsimp only
  split
  · exact Or.inl ⟨_, rfl, ⟨rfl, rfl, rfl, rfl⟩, rfl⟩
  · rename_i hopen
    have hopen : p.state.connectionIsOpen = true := by simpa using hopen
    obtain ⟨fd, hmem, hfd⟩ := (hconnected hopen).fd
    obtain ⟨a, name, hname, hread⟩ := (hconnected hopen).socketName
    rw [hname]
    dsimp only
    rw [Heap.load_of_read hread, Exec.ok_bind]
    by_cases hsame : name = sockname
    · -- the descriptor of an open connection is open
      have hvalid : ¬ (p.state.fd < 0 ∨ p.state.fd.toNat ∉ p.descriptors) := by
        rw [hfd, Int.toNat_natCast]
        exact fun h => h.elim (by omega) fun hnot => hnot hmem
      rw [if_neg (not_not.mpr hsame), if_neg hvalid]
      refine Or.inr ⟨_, fd, a, rfl, hopen, hmem, hsame ▸ hread, hfd, rfl, ?_, rfl, rfl⟩
      rw [hfd, Int.toNat_natCast]
    · rw [if_pos hsame]
      exact Or.inl ⟨_, rfl, ⟨rfl, rfl, hname.symm, rfl⟩, rfl⟩

theorem Ledger.closeConnection {p₀ : Process} {k : Nat} (hledger : Ledger p₀ k p)
    (h : closeConnection p sockname = .ok (result, p')) : Ledger p₀ k p' := by
  rcases closeConnection_cases sockname hledger.connected with
    ⟨p₁, hx, hsame, hnames⟩ | ⟨p₁, fd, a, hx, hopen, hmem, hread, -, -, herase, hfree, hclosed⟩
  · cases hx.symm.trans h
    refine ⟨⟨?_, ?_⟩, fun hopen => ?_⟩
    · rw [hsame.descriptors, hsame.connectionIsOpen]
      exact hledger.gained.descriptors
    · rw [hnames, hsame.connectionIsOpen]
      exact hledger.gained.names
    · obtain ⟨hfd, hname⟩ := hledger.connected (hsame.connectionIsOpen ▸ hopen)
      exact ⟨by rwa [hsame.descriptors, hsame.fd], by rwa [hnames, hsame.socketName]⟩
  · cases hx.symm.trans h
    have hgained := hledger.gained
    rw [if_pos hopen] at hgained
    have hstill : ¬ p'.state.connectionIsOpen = true := by
      rw [hclosed]
      nofun
    have hcard := Finset.card_erase_add_one hmem
    have hlive := Heap.live_free hread
    refine ⟨⟨?_, ?_⟩, fun hopen => absurd hopen hstill⟩
    · rw [if_neg hstill, herase]
      have hbefore := hgained.descriptors
      omega
    · rw [if_neg hstill, hfree]
      have hbefore := hgained.names
      omega

/-- In every run of calls, what the process has beyond its start are the sockets and names of refused
attempts, and those of the connection. -/
theorem ledger_of_run {p₀ : Process} {tr : List (Process × Call)}
    (run : Run (fun p call p' => ∃ result, p.call call = .ok (result, p')) p₀ tr p)
    (hclosed : p₀.state.connectionIsOpen = false) :
    Ledger p₀ (tr.map fun entry => entry.2.leaks entry.1).sum p := by
  induction run with
  | nil =>
    refine ⟨?_, fun hopen => absurd hopen (by rw [hclosed]; nofun)⟩
    rw [hclosed]
    exact ⟨rfl, rfl⟩
  | @snoc tr p p' call run next ih =>
    obtain ⟨result, hx⟩ := next
    rw [List.map_append, List.sum_append, List.map_singleton, List.sum_singleton]
    cases call with
    | openConnection sockname msec abstime rounds => exact ih.openConnection hx
    | closeConnection sockname => exact ih.closeConnection hx

end FileStorage.Client.Connection
