import FileStorage.Server.Receiver

/-!
# MainLoop — the loop of `inner_main`

The loop asks `receiver_is_dead`, calls `receiver_poll` and looks at the two flags that the signal
handlers set.  A connection that a call of `receiver_poll` drops stays in `active_sockets` until the
next call cleans up, so the question in between still counts it.
-/

namespace FileStorage.Server

/-! ## 1. The code -/

/-- Where the loop stands. -/
inductive LoopPoint where
  | test                    -- at `receiver_is_dead`
  | polling                 -- in `receiver_poll`
  | returned (err : Bool)   -- `receiver_poll` has returned
  | left
deriving DecidableEq

structure MainLoop where
  receiver : Receiver
  soft : Bool
  hard : Bool
  point : LoopPoint
deriving DecidableEq

inductive LoopEvent where
  | softSignal
  | hardSignal
  | answer (answer : KernelAnswer)  -- for the next step of `receiver_poll`
  | pollFails                       -- with a signal, for one
  | go                              -- the loop itself goes on
deriving DecidableEq

namespace Receiver

/-- The main socket is not counted here. -/
def isDead (r : Receiver) : Bool := !r.acceptNewConnections && r.activeSockets.isEmpty

/-- The next call starts over, also when `poll` failed in the last one. -/
def disableNewConnections (r : Receiver) : Receiver :=
  { r with acceptNewConnections := false, point := .cleanup 0 }

/-- `receiver_cleanup` drops the other entries. -/
def HasLive (r : Receiver) : Prop := ∃ socket ∈ r.activeSockets, 0 ≤ socket.fd

instance (r : Receiver) : Decidable r.HasLive :=
  inferInstanceAs (Decidable (∃ socket ∈ r.activeSockets, 0 ≤ socket.fd))

end Receiver

namespace MainLoop

def start (files : List (Int × Endpoint)) : MainLoop :=
  ⟨Receiver.start files, false, false, .test⟩

def goTo (s : MainLoop) (point : LoopPoint) : MainLoop := { s with point }

/-- What the loop does outside of `receiver_poll`. -/
def goOn (s : MainLoop) : Option MainLoop :=
  match s.point with
  | .test => some (s.goTo (if s.receiver.isDead then .left else .polling))
  | .returned err =>
      if s.hard then
        some (s.goTo .left)
      else if s.soft then
        some { s with receiver := s.receiver.disableNewConnections, point := .test }
      else
        some (s.goTo (if err then .left else .test))
  | .polling | .left => none

/-- A step of `receiver_poll`.  Only a step that ends the call leads back to its start. -/
def pollStep (sent : Nat → List UInt8) (P : Platform) (s : MainLoop) (answer : KernelAnswer) :
    Exec (Option MainLoop) := do
  let r? ← s.receiver.next sent P answer
  return r?.map fun r =>
    { s with receiver := r, point := if r.point = .cleanup 0 then .returned false else .polling }

def next (sent : Nat → List UInt8) (P : Platform) (s : MainLoop) :
    LoopEvent → Exec (Option MainLoop)
  | .softSignal => .ok (some { s with soft := true })
  | .hardSignal => .ok (some { s with hard := true })
  | .answer answer =>
      -- here the signals are events of their own
      if s.point = .polling ∧ answer ≠ .shutdownSoft then s.pollStep sent P answer else .ok none
  | .pollFails =>
      .ok (if s.point = .polling ∧ s.receiver.point = .poll then some (s.goTo (.returned true))
        else none)
  | .go => .ok s.goOn

def Runs (P : Platform) (sent : Nat → List UInt8) (files : List (Int × Endpoint))
    (tr : List (MainLoop × LoopEvent)) (s : MainLoop) : Prop :=
  (∀ x ∈ files, x.2 = .other) ∧
    Run (fun s event s' => s.next sent P event = .ok (some s')) (start files) tr s

/-- The loop waits in `poll`, and there is no connection left that could wake it. -/
def PollsDead (s : MainLoop) : Prop :=
  s.point = .polling ∧ s.receiver.point = .poll ∧ s.receiver.acceptNewConnections = false ∧
    ¬ s.receiver.HasLive

instance (s : MainLoop) : Decidable s.PollsDead := inferInstanceAs (Decidable (_ ∧ _ ∧ _ ∧ _))

/-- When the loop acts on the soft flag, the last call of `receiver_poll` has not dropped the last
connection. -/
def KeepsLive (s : MainLoop) (event : LoopEvent) : Prop :=
  event = .go → ∀ err, s.point = .returned err → s.hard = false → s.soft = true →
    s.receiver.activeSockets = [] ∨ s.receiver.HasLive

instance (s : MainLoop) (event : LoopEvent) : Decidable (s.KeepsLive event) :=
  inferInstanceAs (Decidable (_ → ∀ _, _ → _ → _ → _ ∨ _))

end MainLoop

/-! ## 2. What a step does -/

namespace Receiver

variable {sent : Nat → List UInt8} {P : Platform} {r r' : Receiver} {i : Nat}

/-- The steps after `receiver_cleanup`: on with the call, or out of it. -/
def Proceeds (r r' : Receiver) : Prop :=
  r'.acceptNewConnections = r.acceptNewConnections ∧
    (r'.point = .cleanup 0 ∨ r'.point.early = false)

theorem proceeds_goTo {point : PollPoint} (h : point = .cleanup 0 ∨ point.early = false) :
    r.Proceeds (r.goTo point) := ⟨rfl, h⟩

theorem proceeds_pollStep {hasNew : Bool} {revents : List Revents}
    (hx : r.pollStep hasNew revents = some r') : r.Proceeds r' := by
  unfold pollStep at hx
  split at hx
  · split at hx
    · cases hx
      exact proceeds_goTo (Or.inl rfl)
    · cases hx
      exact ⟨rfl, Or.inr rfl⟩
  · cases hx

theorem proceeds_addNewConnection {fd : Int} (hx : r.addNewConnection fd = some r') :
    r.Proceeds r' := by
  unfold addNewConnection at hx
  split at hx
  · cases hx
    exact proceeds_goTo (Or.inr rfl)
  · split at hx
    · cases hx
    · cases hx
      exact ⟨rfl, Or.inr rfl⟩

theorem proceeds_validateStep (hx : r.validateStep i = .ok r') : r.Proceeds r' := by
  unfold validateStep at hx
  split at hx
  · cases hx
    exact proceeds_goTo (Or.inr rfl)
  · obtain ⟨isValid, -, hx⟩ := Exec.bind_eq_ok.mp hx
    cases isValid with
    | false =>
      cases hx
      exact ⟨rfl, Or.inl rfl⟩
    | true =>
      obtain ⟨missing, -, hx⟩ := Exec.bind_eq_ok.mp hx
      cases hx
      exact proceeds_goTo (Or.inr rfl)

theorem proceeds_skipStep {socket : ActiveSocket} (hx : r.skipStep i socket = some r') :
    r.Proceeds r' := by
  unfold skipStep at hx
  split at hx
  · cases hx
    exact ⟨rfl, Or.inl rfl⟩
  · cases hx
    exact proceeds_goTo (Or.inr rfl)
  · cases hx

theorem proceeds_readStep {socket : ActiveSocket} {answer : KernelAnswer}
    (hx : r.readStep sent P i socket answer = .ok (some r')) : r.Proceeds r' := by
  obtain ⟨de, -, hx⟩ := Exec.bind_eq_ok.mp hx
  obtain ⟨missing, -, hx⟩ := Exec.bind_eq_ok.mp hx
  split at hx
  · cases hx
  · unfold takeAnswer at hx
    split at hx
    · cases hx
      exact ⟨rfl, Or.inr rfl⟩
    · cases hx
      exact ⟨rfl, Or.inr rfl⟩
    · split at hx
      · obtain ⟨de₂, -, hx⟩ := Exec.bind_eq_ok.mp hx
        obtain ⟨⟨buf, de₃⟩, -, hx⟩ := Exec.bind_eq_ok.mp hx
        cases hx
        exact ⟨rfl, Or.inr rfl⟩
      · cases hx
    · cases hx

/-- Only a signal changes what is accepted, and only `receiver_cleanup` leads to `poll`. -/
theorem next_cases {answer : KernelAnswer} (hx : r.next sent P answer = .ok (some r'))
    (hanswer : answer ≠ .shutdownSoft) :
    (∃ i, r.point = .cleanup i ∧ r' = r.cleanupStep i) ∨
      (∀ i, r.point ≠ .cleanup i) ∧ r.Proceeds r' := by
  unfold next at hx
  split at hx
  · rename_i i hat
    cases hx
    exact Or.inl ⟨i, hat, rfl⟩
  · exact absurd rfl hanswer
  · rename_i hat
    exact Or.inr ⟨by simp [hat], proceeds_pollStep (Except.ok.inj hx)⟩
  · exact absurd rfl hanswer
  · rename_i hat
    refine Or.inr ⟨by simp [hat], ?_⟩
    simp only [Except.ok.injEq] at hx
    split at hx
    · exact proceeds_addNewConnection hx
    · cases hx
  · rename_i hat
    refine Or.inr ⟨by simp [hat], ?_⟩
    simp only [Except.ok.injEq] at hx
    split at hx
    · cases hx
    · cases hx
      exact proceeds_goTo (Or.inr rfl)
  · rename_i hat
    obtain ⟨r₁, hstep, hx⟩ := Exec.bind_eq_ok.mp hx
    cases hx
    exact Or.inr ⟨by simp [hat], proceeds_validateStep hstep⟩
  · rename_i hat
    refine Or.inr ⟨by simp [hat], ?_⟩
    split at hx
    · simp only [Except.ok.injEq] at hx
      split at hx
      · cases hx
        exact proceeds_goTo (Or.inl rfl)
      · cases hx
    · split at hx
      · exact proceeds_readStep hx
      · simp only [Except.ok.injEq] at hx
        split at hx
        · exact proceeds_skipStep hx
        · cases hx
  · cases hx

theorem accept_cleanupStep : (r.cleanupStep i).acceptNewConnections = r.acceptNewConnections := by
  unfold cleanupStep
  split
  · rfl
  · split <;> rfl

theorem mem_removeAt {sockets : List ActiveSocket} {socket x : ActiveSocket}
    (h : sockets[i]? = some socket) (hne : x ≠ socket) : x ∈ removeAt sockets i ↔ x ∈ sockets := by
  rw [(removeAt_perm h).mem_iff, List.mem_eraseIdx_iff_getElem?, List.mem_iff_getElem?]
  constructor
  · rintro ⟨j, -, hj⟩
    exact ⟨j, hj⟩
  · rintro ⟨j, hj⟩
    refine ⟨j, fun hji => hne ?_, hj⟩
    subst hji
    exact Option.some.inj (hj.symm.trans h)

theorem hasLive_cleanupStep : (r.cleanupStep i).HasLive ↔ r.HasLive := by
  unfold cleanupStep
  split
  · exact Iff.rfl
  · rename_i socket hsocket
    split
    · rename_i hdead
      -- the entry that goes is not a live one
      have hmem : ∀ x : ActiveSocket, 0 ≤ x.fd →
          (x ∈ removeAt r.activeSockets i ↔ x ∈ r.activeSockets) := fun x hx =>
        mem_removeAt hsocket fun heq => absurd hdead (Int.not_lt.mpr (heq ▸ hx))
      exact exists_congr fun x => and_congr_left fun hx => hmem x hx
    · exact Iff.rfl

theorem point_cleanupStep : (r.cleanupStep i).point.early = true ∧
    (r.cleanupStep i).point ≠ .cleanup 0 := by
  unfold cleanupStep
  split
  · exact ⟨rfl, nofun⟩
  · split
    · exact ⟨rfl, nofun⟩
    · exact ⟨rfl, nofun⟩

end Receiver

namespace MainLoop

inductive Step (sent : Nat → List UInt8) (P : Platform) (s : MainLoop) : LoopEvent → MainLoop → Prop
  | signalled {event : LoopEvent} {soft hard : Bool} (hgo : event ≠ .go)
      (hsoft : s.soft = true → soft = true) : Step sent P s event { s with soft, hard }
  | polled {answer : KernelAnswer} {r : Receiver} (hat : s.point = .polling)
      (hanswer : answer ≠ .shutdownSoft) (hnext : s.receiver.next sent P answer = .ok (some r)) :
      Step sent P s (.answer answer) { s with
        receiver := r
        point := if r.point = .cleanup 0 then .returned false else .polling }
  | failed (hat : s.point = .polling) (hpoll : s.receiver.point = .poll) :
      Step sent P s .pollFails (s.goTo (.returned true))
  | tested (hat : s.point = .test) (hdead : s.receiver.isDead = false) :
      Step sent P s .go (s.goTo .polling)
  | died (hat : s.point = .test) (hdead : s.receiver.isDead = true) :
      Step sent P s .go (s.goTo .left)
  | broke {err : Bool} (hat : s.point = .returned err) (hwhy : s.hard = true ∨ s.soft = false) :
      Step sent P s .go (s.goTo .left)
  | disabled {err : Bool} (hat : s.point = .returned err) (hhard : s.hard = false)
      (hsoft : s.soft = true) :
      Step sent P s .go { s with receiver := s.receiver.disableNewConnections, point := .test }
  | again (hat : s.point = .returned false) (hsoft : s.soft = false) :
      Step sent P s .go (s.goTo .test)

variable {sent : Nat → List UInt8} {P : Platform} {files : List (Int × Endpoint)}
  {s s' : MainLoop} {event : LoopEvent} {tr : List (MainLoop × LoopEvent)}

theorem step_of_goOn (hx : s.goOn = some s') : Step sent P s .go s' := by
  unfold goOn at hx
  split at hx
  · rename_i hat
    cases hx
    split
    · exact .died hat ‹_›
    · rename_i hdead
      exact .tested hat (by simpa using hdead)
  · rename_i err hat
    split at hx
    · cases hx
      exact .broke hat (Or.inl ‹_›)
    · rename_i hhard
      split at hx
      · cases hx
        exact .disabled hat (by simpa using hhard) ‹_›
      · rename_i hsoft
        have hsoft : s.soft = false := by simpa using hsoft
        cases hx
        cases err with
        | false => exact .again hat hsoft
        | true => exact .broke hat (Or.inr hsoft)
  · cases hx
  · cases hx

/-- Every step of the loop is one of these. -/
theorem step_of_next (hx : s.next sent P event = .ok (some s')) : Step sent P s event s' := by
  unfold next at hx
  split at hx
  · cases hx
    exact .signalled nofun fun _ => rfl
  · cases hx
    exact .signalled nofun id
  · split at hx
    · rename_i hguard
      obtain ⟨r?, hnext, hx⟩ := Exec.bind_eq_ok.mp hx
      cases r? with
      | none => cases hx
      | some r =>
        cases hx
        exact .polled hguard.1 hguard.2 hnext
    · cases hx
  · simp only [Except.ok.injEq] at hx
    split at hx
    · rename_i hguard
      cases hx
      exact .failed hguard.1 hguard.2
    · cases hx
  · exact step_of_goOn (Except.ok.inj hx)

/-! ## 3. A live connection until `poll` -/

structure Inv (s : MainLoop) : Prop where
  asked : s.receiver.acceptNewConnections = false → s.soft = true
  tested : s.point = .test → s.receiver.acceptNewConnections = false →
    s.receiver.activeSockets = [] ∨ s.receiver.HasLive
  polling : s.point = .polling → s.receiver.point.early = true →
    s.receiver.acceptNewConnections = false → s.receiver.HasLive

theorem inv_start : Inv (start files) := ⟨nofun, nofun, nofun⟩

theorem Inv.step (h : Inv s) (hok : s.KeepsLive event) (hstep : Step sent P s event s') :
    Inv s' := by
  cases hstep with
  | signalled hgo hsoft => exact ⟨fun hclosed => hsoft (h.asked hclosed), h.tested, h.polling⟩
  | polled hat hanswer hnext =>
    rename_i answer r
    have htest : (if r.point = .cleanup 0 then LoopPoint.returned false else .polling) ≠ .test := by
      split <;> nofun
    rcases Receiver.next_cases hnext hanswer with ⟨i, hcleanup, rfl⟩ | ⟨-, haccept, hpoint⟩
    · refine ⟨fun hclosed => h.asked ?_, fun h' => absurd h' htest, fun _ _ hclosed => ?_⟩
      · rwa [Receiver.accept_cleanupStep] at hclosed
      · have hearly : s.receiver.point.early = true := by rw [hcleanup]; rfl
        rw [Receiver.accept_cleanupStep] at hclosed
        exact Receiver.hasLive_cleanupStep.mpr (h.polling hat hearly hclosed)
    · refine ⟨fun hclosed => h.asked (haccept ▸ hclosed), fun h' => absurd h' htest,
        fun hpolling hearly => ?_⟩
      rcases hpoint with hcleanup | hlate
      · exact absurd hpolling (by simp [hcleanup])
      · exact absurd hearly (by simp [hlate])
  | failed hat hpoll => exact ⟨h.asked, nofun, nofun⟩
  | tested hat hdead =>
    refine ⟨h.asked, nofun, fun _ _ hclosed => (h.tested hat hclosed).resolve_left fun hnil => ?_⟩
    have hclosed : s.receiver.acceptNewConnections = false := hclosed
    simp [Receiver.isDead, hclosed, hnil] at hdead
  | died hat hdead => exact ⟨h.asked, nofun, nofun⟩
  | broke hat hwhy => exact ⟨h.asked, nofun, nofun⟩
  | disabled hat hhard hsoft => exact ⟨fun _ => hsoft, fun _ _ => hok rfl _ hat hhard hsoft, nofun⟩
  | again hat hsoft =>
    refine ⟨h.asked, fun _ hclosed => ?_, nofun⟩
    rw [h.asked hclosed] at hsoft
    cases hsoft

theorem Inv.not_pollsDead (h : Inv s) : ¬ s.PollsDead := fun ⟨hat, hpoll, hclosed, hdead⟩ =>
  hdead (h.polling hat (by rw [hpoll]; rfl) hclosed)

/-! ## 4. No way out without one -/

/-- New connections are disabled, all entries are dead, and some have to be cleaned up yet. -/
structure Doomed (s : MainLoop) : Prop where
  closed : s.receiver.acceptNewConnections = false
  dead : ¬ s.receiver.HasLive
  early : s.receiver.point.early = true
  counted : s.point = .test ∧ s.receiver.activeSockets ≠ [] ∨ s.point = .polling

/-- Such a state stays one until `poll` waits. -/
theorem Doomed.step (h : Doomed s) (hpolls : ¬ s.PollsDead) (hstep : Step sent P s event s') :
    Doomed s' := by
  have hreturned : ∀ err, s.point ≠ .returned err := fun err hat => by
    rcases h.counted with ⟨htest, -⟩ | hpolling
    · exact absurd (htest.symm.trans hat) nofun
    · exact absurd (hpolling.symm.trans hat) nofun
  cases hstep with
  | signalled hgo hsoft => exact ⟨h.closed, h.dead, h.early, h.counted⟩
  | polled hat hanswer hnext =>
    rename_i answer r
    rcases Receiver.next_cases hnext hanswer with ⟨i, hcleanup, rfl⟩ | ⟨hnot, -⟩
    · obtain ⟨hearly, hcall⟩ := Receiver.point_cleanupStep (r := s.receiver) (i := i)
      refine ⟨Receiver.accept_cleanupStep.trans h.closed, fun hlive => h.dead ?_, hearly, Or.inr ?_⟩
      · exact Receiver.hasLive_cleanupStep.mp hlive
      · exact if_neg hcall
    · -- the call was at `poll` already
      have hpoll : s.receiver.point = .poll := by
        have hearly := h.early
        cases hpoint : s.receiver.point with
        | poll => rfl
        | cleanup i => exact absurd hpoint (hnot i)
        | connect | validate | read => rw [hpoint] at hearly; cases hearly
      exact absurd ⟨hat, hpoll, h.closed, h.dead⟩ hpolls
  | failed hat hpoll => exact absurd ⟨hat, hpoll, h.closed, h.dead⟩ hpolls
  | tested hat hdead => exact ⟨h.closed, h.dead, h.early, Or.inr rfl⟩
  | died hat hdead =>
    rcases h.counted with ⟨-, hne⟩ | hpolling
    · simp [Receiver.isDead, h.closed, hne] at hdead
    · exact absurd (hat.symm.trans hpolling) nofun
  | broke hat hwhy => exact absurd hat (hreturned _)
  | disabled hat hhard hsoft => exact absurd hat (hreturned _)
  | again hat hsoft => exact absurd hat (hreturned _)

/-- Acting on the soft flag after the last connection was dropped leads to such a state. -/
theorem doomed_of_not_keepsLive (hstep : Step sent P s event s') (hnot : ¬ s.KeepsLive event) :
    Doomed s' := by
  simp only [KeepsLive, Classical.not_imp, not_forall, not_or] at hnot
  obtain ⟨rfl, err, hat, hhard, hsoft, hne, hdead⟩ := hnot
  cases hstep with
  | signalled hgo => exact absurd rfl hgo
  | tested hat' | died hat' => exact absurd (hat.symm.trans hat') nofun
  | broke hat' hwhy =>
    rw [hhard, hsoft] at hwhy
    exact absurd hwhy (by decide)
  | disabled hat' => exact ⟨rfl, hdead, rfl, Or.inl ⟨rfl, hne⟩⟩
  | again hat' hsoft' =>
    rw [hsoft] at hsoft'
    cases hsoft'

theorem keepsLive_or_doomed (run : Runs P sent files tr s)
    (hlive : ∀ s' ∈ statesOf tr s, ¬ s'.PollsDead) : (∀ x ∈ tr, x.1.KeepsLive x.2) ∨ Doomed s := by
  obtain ⟨-, run⟩ := run
  induction run with
  | nil => exact Or.inl fun x hx => absurd hx List.not_mem_nil
  | snoc run next ih =>
    rename_i tr s s' event
    have hstates : statesOf (tr ++ [(s, event)]) s' = statesOf tr s ++ [s'] := by simp [statesOf]
    rw [hstates] at hlive
    have hstep := step_of_next next
    rcases ih fun x hx => hlive x (List.mem_append_left _ hx) with hkeeps | hdoomed
    · by_cases hok : s.KeepsLive event
      · left
        intro x hx
        rcases List.mem_append.mp hx with hx | hx
        · exact hkeeps x hx
        · obtain rfl := List.mem_singleton.mp hx
          exact hok
      · exact Or.inr (doomed_of_not_keepsLive hstep hok)
    · have hs : s ∈ statesOf tr s := by simp [statesOf]
      exact Or.inr (hdoomed.step (hlive s (List.mem_append_left _ hs)) hstep)

/-- `poll` never waits without a live connection as long as the soft flag is not acted on after the
last one was dropped; once it is, the next call of `receiver_poll` waits so. -/
theorem waits_on_live_iff (run : Runs P sent files tr s) :
    ((∀ x ∈ tr, x.1.KeepsLive x.2) → ∀ s' ∈ statesOf tr s, ¬ s'.PollsDead) ∧
      ((∃ err, s.point = .returned err) → (∀ s' ∈ statesOf tr s, ¬ s'.PollsDead) →
        ∀ x ∈ tr, x.1.KeepsLive x.2) := by
  constructor
  · intro hkeeps s' hs'
    have hinv := run.2.invariant_states Inv KeepsLive inv_start
      (fun s event s' h hok hx => h.step hok (step_of_next hx)) hkeeps
    exact (hinv s' hs').not_pollsDead
  · rintro ⟨err, hat⟩ hlive
    refine (keepsLive_or_doomed run hlive).resolve_right fun hdoomed => ?_
    rcases hdoomed.counted with ⟨htest, -⟩ | hpolling
    · exact absurd (hat.symm.trans htest) nofun
    · exact absurd (hat.symm.trans hpolling) nofun

/-! ## 5. The receiver under the loop -/

/-- At the end of a call the receiver is where the next one starts, or `poll` has failed. -/
def AtRest (s : MainLoop) : Prop :=
  (s.point = .test → s.receiver.point = .cleanup 0) ∧
    ∀ err, s.point = .returned err → s.receiver.point = if err then .poll else .cleanup 0

theorem atRest_start : AtRest (start files) := ⟨fun _ => rfl, nofun⟩

theorem AtRest.step (h : AtRest s) (hstep : Step sent P s event s') : AtRest s' := by
  cases hstep with
  | signalled hgo hsoft => exact h
  | polled hat hanswer hnext =>
    rename_i answer r
    by_cases hcall : r.point = .cleanup 0
    · refine ⟨fun _ => hcall, fun err herr => ?_⟩
      obtain rfl : false = err := by simpa [hcall] using herr
      exact hcall
    · exact ⟨by simp [hcall], by simp [hcall]⟩
  | failed hat hpoll =>
    refine ⟨nofun, fun err herr => ?_⟩
    obtain rfl : true = err := LoopPoint.returned.inj herr
    exact hpoll
  | tested hat hdead => exact ⟨nofun, nofun⟩
  | died hat hdead => exact ⟨nofun, nofun⟩
  | broke hat hwhy => exact ⟨nofun, nofun⟩
  | disabled hat hhard hsoft => exact ⟨fun _ => rfl, nofun⟩
  | again hat hsoft => exact ⟨fun _ => h.2 false hat, nofun⟩

/-- A step of the loop is one of the receiver, or leaves it alone. -/
theorem receiver_step (h : AtRest s) (hstep : Step sent P s event s') :
    s'.receiver = s.receiver ∨
      ∃ answer, s.receiver.next sent P answer = .ok (some s'.receiver) := by
  cases hstep with
  | polled hat hanswer hnext => exact Or.inr ⟨_, hnext⟩
  | @disabled err hat =>
    refine Or.inr ⟨.shutdownSoft, ?_⟩
    cases err with
    | false =>
      have hpoint : s.receiver.point = .cleanup 0 := h.2 false hat
      have hsame : s.receiver.disableNewConnections =
          { s.receiver with acceptNewConnections := false } := by
        rw [Receiver.disableNewConnections, ← hpoint]
      simp [Receiver.next, hpoint, hsame]
    | true =>
      have hpoint : s.receiver.point = .poll := h.2 true hat
      simp [Receiver.next, hpoint, Receiver.disableNewConnections]
  | signalled | failed | tested | died | broke | again => exact Or.inl rfl

/-- Under the loop the receiver runs as it does on its own. -/
theorem receiver_runs (run : Runs P sent files tr s) :
    ∃ tr', Receiver.Runs P sent files tr' s.receiver := by
  obtain ⟨hfiles, run⟩ := run
  suffices h : AtRest s ∧ ∃ tr', Receiver.Runs P sent files tr' s.receiver from h.2
  induction run with
  | nil => exact ⟨atRest_start, [], hfiles, .nil⟩
  | snoc run next ih =>
    obtain ⟨hrest, tr', -, run'⟩ := ih
    have hstep := step_of_next next
    refine ⟨hrest.step hstep, ?_⟩
    rcases receiver_step hrest hstep with hsame | ⟨answer, hnext⟩
    · exact ⟨tr', hfiles, hsame ▸ run'⟩
    · exact ⟨_, hfiles, .snoc run' hnext⟩

/-! ## 6. The last client leaves -/

theorem runs_of_events (P : Platform) (sent : Nat → List UInt8) (events : List LoopEvent)
    (test : List (MainLoop × LoopEvent) → MainLoop → Bool)
    (hx : (replay (fun s event => (s.next sent P event).toOption.join) (start Receiver.usualFiles)
      events).any (fun x => test x.1 x.2) = true) :
    ∃ tr s, Runs P sent Receiver.usualFiles tr s ∧ test tr s = true := by
  obtain ⟨x, hreplay, htest⟩ := (Option.any_eq_true _ _).mp hx
  have hother : ∀ x ∈ Receiver.usualFiles, x.2 = .other := by decide
  refine ⟨x.1, x.2, ⟨hother, Run.of_replay (fun s event s' hnext => ?_) hreplay⟩, htest⟩
  exact Exec.toOption_eq_some.mp (Option.join_eq_some_iff.mp hnext)

/-- One client connects, the soft signal comes, and the server is back in `poll`. -/
def clientThenSignal : List LoopEvent :=
  [.go, .answer .go, .answer (.events true []), .answer (.accepted 4), .answer .go, .answer .go,
    .answer .go, .answer .go, .go, .go, .answer .go, .answer .go, .softSignal]

theorem waits_on_live_client : ∃ tr s, Runs samplePlatform (fun _ => []) Receiver.usualFiles tr s ∧
    s.receiver.acceptNewConnections = false ∧ (∀ s' ∈ statesOf tr s, ¬ s'.PollsDead) ∧
      ∀ x ∈ tr, x.1.KeepsLive x.2 := by
  obtain ⟨tr, s, run, htest⟩ := runs_of_events samplePlatform (fun _ => [])
    -- the signal makes `poll` fail; the loop comes back to it, and another signal does the same
    (clientThenSignal ++ [.pollFails, .go, .go, .answer .go, .answer .go, .pollFails])
    (fun tr s => !s.receiver.acceptNewConnections && s.point == .returned true &&
      tr.all fun x => decide (x.1.KeepsLive x.2)) (by decide +kernel)
  simp only [Bool.and_eq_true, Bool.not_eq_true', beq_iff_eq, List.all_eq_true,
    decide_eq_true_eq] at htest
  obtain ⟨⟨hclosed, hat⟩, hkeeps⟩ := htest
  have hlive := (waits_on_live_iff run).1 hkeeps
  exact ⟨tr, s, run, hclosed, hlive, (waits_on_live_iff run).2 ⟨true, hat⟩ hlive⟩

/-- The client ends its stream.  Its entry makes `receiver_is_dead` say no, the next call of
`receiver_poll` removes the entry, and then nothing is left that could end the call. -/
theorem waits_on_nobody : ¬∀ (P : Platform) (sent : Nat → List UInt8)
    (files : List (Int × Endpoint)) (tr : List (MainLoop × LoopEvent)) (s : MainLoop),
    Runs P sent files tr s → ∀ s' ∈ statesOf tr s, ¬ s'.PollsDead := by
  intro hclaim
  obtain ⟨tr, s, run, htest⟩ := runs_of_events samplePlatform (fun _ => [])
    (clientThenSignal ++ [.answer (.events false [.pollin]), .answer .go, .answer .go, .answer .go,
      .answer .eof, .answer .go, .go, .go, .answer .go, .answer .go])
    (fun _ s => decide s.PollsDead) (by decide +kernel)
  have hlast : s ∈ statesOf tr s := by simp [statesOf]
  exact hclaim _ _ _ _ _ run s hlast (of_decide_eq_true htest)

end MainLoop

end FileStorage.Server
