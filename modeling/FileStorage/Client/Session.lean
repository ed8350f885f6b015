import FileStorage.Callers
import FileStorage.Client.Calls
import FileStorage.Server.Contents

/-!
# Session — clients that wait for their replies, and the server between them

The requests of a client reach the server in reads of any size, and the reply reaches the client in
chunks of any size.  In between the other clients go on.  The server has one worker: nobody else uses
the table while it handles a request, so a request is handled in one step.
-/

namespace FileStorage.Client

open Server EndOfStream

/-! ## 1. The system -/

/-- Where a call of a client stands. -/
inductive CallPhase where
  | idle
  | asked (call : ApiCall) (raw : List UInt8)         -- the request is on its way
  -- `reply` is a ghost: what was written
  | answered (call : ApiCall) (reply : Option EndOfStream.Reply)

/-- Both ends of a connection. -/
structure Link where
  phase : CallPhase
  deserializer : Deserializer
  inbox : List UInt8  -- written by the server, and not yet read
  files : Files       -- the local files of the client

/-- The server with its one worker, and the clients. -/
structure Session where
  table : HTable
  links : Nat → Link  -- by the descriptor of the server

namespace Session

inductive Event where
  | send (fd : Nat) (call : ApiCall)
  | handle (fd : Nat) (cuts : List Nat) (rands : List Nat)
  | receive (fd : Nat) (chunks : Chunks) (m : EndOfStream.Machine) (dirname : Option CStr)

/-- Every write goes to the connection of its descriptor. -/
def deliver (writes : List Write) (links : Nat → Link) : Nat → Link := fun fd =>
  { links fd with inbox := (links fd).inbox ++ bytesTo fd writes }

/-- A call that fails before it writes is no event, nor are reads that do not bring the last byte of a
request. -/
def next (P : Platform) (s : Session) : Event → Option Session
  | .send fd call => do
      let raw ← call.emitted
      match (s.links fd).phase with
      | .idle =>
          if raw.length < wordSize then
            some { s with
              links := Function.update s.links fd { s.links fd with phase := .asked call raw } }
          else
            none
      | _ => none
  | .handle fd cuts rands =>
      match (s.links fd).phase with
      | .asked call raw =>
          if ∀ cut ∈ cuts, 0 < cut then do
            let (buffers, deserializer) ← (feed P (s.links fd).deserializer raw cuts).toOption
            let buffer ← buffers.head?
            let (writes, table) ← (workerHandleMessage P s.table fd buffer.raw rands).toOption
            let reply ← (call.reply P s.table fd rands).toOption
            let link := { s.links fd with phase := .answered call reply, deserializer }
            some ⟨table, deliver writes (Function.update s.links fd link)⟩
          else
            none
      | _ => none
  | .receive fd chunks m dirname =>
      match (s.links fd).phase with
      | .answered call _ =>
          if chunks.bytes = (s.links fd).inbox then do
            let (result, rest) ← (call.response m dirname (s.links fd).files chunks).toOption
            let link := { s.links fd with
              phase := .idle, inbox := rest.bytes, files := result.files }
            some { s with links := Function.update s.links fd link }
          else
            none
      | _ => none

def start (files : Nat → Files) (table : HTable) : Session :=
  ⟨table, fun fd => ⟨.idle, deserializerCreate, [], files fd⟩⟩

/-- From `htable_create` and the local files `files` the events of `tr` lead to `s`. -/
def Runs (P : Platform) (files : Nat → Files) (buckets : Nat) (config : Config)
    (tr : List (Session × Event)) (s : Session) : Prop :=
  ∃ t₀, htableCreate buckets config = .ok t₀ ∧
    Run (fun s e s' => next P s e = some s') (start files t₀) tr s

/-! ## 2. Histories -/

/-- What an event is for the callers of the store. -/
def observed (P : Platform) :
    Session × Event → Option (Callers.Event Nat ApiCall EndOfStream.Reply EndOfStream.Reply)
  | (_, .send fd call) => some (.ask fd call)
  | (s, .handle fd _ rands) =>
      match (s.links fd).phase with
      | .asked call _ =>
          (call.reply P s.table fd rands).toOption.join.map fun reply => .effect fd call reply
      | _ => none
  | (s, .receive fd _ _ _) =>
      match (s.links fd).phase with
      | .answered call (some reply) => some (.done fd call reply)
      | _ => none

def history (P : Platform) (tr : List (Session × Event)) :
    List (Callers.Event Nat ApiCall EndOfStream.Reply EndOfStream.Reply) :=
  tr.filterMap (observed P)

/-- What the clients are held to: they have read all they were sent before they call again, they do
not call `readNFiles`, whose reply has no status byte, and nobody unlocks a file that another one
waits for. -/
def Calm (P : Platform) (s : Session) : Event → Prop
  | .send fd call => (s.links fd).inbox = [] ∧ ∀ n, call ≠ .readNFiles n
  | .handle fd _ _ => ∀ call raw, (s.links fd).phase = .asked call raw →
      Unawaited (tableMap P s.table) call
  | .receive _ _ _ _ => True

/-! ## 3. What a step keeps -/

/-- The bytes on a connection are those of the call that is under way. -/
def Consistent (link : Link) : Prop :=
  link.deserializer = deserializerCreate ∧
    match link.phase with
    | .idle => True
    | .asked call raw => call.emitted = some raw ∧ raw.length < wordSize ∧
        (∀ n, call ≠ .readNFiles n) ∧ link.inbox = []
    | .answered call reply => ∃ r, reply = some r ∧ r.WellFormed ∧ link.inbox = r.bytes ∧
        ∃ P t fd rands, call.reply P t fd rands = .ok (some r)

structure Inv (P : Platform) (s : Session) : Prop where
  stored : ∃ L, Stored P s.table L
  fits : ∀ key f, tableMap P s.table key = some f → FileFits f
  links : ∀ fd, Consistent (s.links fd)

variable {P : Platform} {s s' : Session} {e : Event} {t : HTable} {L : Contents}

/-- Writes to one descriptor reach one connection. -/
theorem deliver_update {writes : List Write} {fd : Nat} (hown : ∀ w ∈ writes, w.fd = fd)
    (links : Nat → Link) (link : Link) :
    deliver writes (Function.update links fd link) =
      Function.update links fd { link with inbox := link.inbox ++ bytesTo fd writes } := by
  funext fd'
  by_cases hfd : fd' = fd
  · subst hfd
    simp only [deliver, Function.update_self]
  · have hnone : bytesTo fd' writes = [] := by
      have hfilter : writes.filter (fun w => decide (w.fd = (fd' : Int))) = [] := by
        refine List.filter_eq_nil_iff.mpr fun w hw => ?_
        rw [decide_eq_true_eq, hown w hw]
        exact fun heq => hfd (Int.ofNat_inj.mp heq).symm
      rw [bytesTo, hfilter]
      rfl
    simp only [deliver, Function.update_of_ne hfd, hnone, List.append_nil]

/-- The phase without the bytes. -/
def bare : CallPhase → Callers.Phase ApiCall EndOfStream.Reply
  | .idle | .answered _ none => .idle
  | .asked call _ => .asked call []
  | .answered call (some reply) => .asked call [reply]

/-- The session as callers of the store. -/
def callers (P : Platform) (s : Session) : Callers.State FileMap Nat ApiCall EndOfStream.Reply :=
  ⟨tableMap P s.table, fun fd => bare (s.links fd).phase⟩

theorem bare_update (links : Nat → Link) (fd : Nat) (link : Link) :
    (fun i => bare (Function.update links fd link i).phase) =
      Function.update (fun i => bare (links i).phase) fd (bare link.phase) := by
  funext i
  by_cases hi : i = fd
  · subst hi
    simp only [Function.update_self]
  · simp only [Function.update_of_ne hi]

theorem consistent_update {links : Nat → Link} (h : ∀ fd, Consistent (links fd)) {fd : Nat}
    {link : Link} (hlink : Consistent link) (i : Nat) :
    Consistent (Function.update links fd link i) := by
  by_cases hi : i = fd
  · subst hi
    rwa [Function.update_self]
  · rw [Function.update_of_ne hi]
    exact h i

theorem send_callers (hinv : Inv P s) {fd : Nat} {call : ApiCall} (hcalm : Calm P s (.send fd call))
    (hx : next P s (.send fd call) = some s') :
    Inv P s' ∧
      Callers.Step StoreStep Callers.Once (callers P s) (.ask fd call) (callers P s') := by
  obtain ⟨raw, hraw, hx⟩ := Option.bind_eq_some_iff.mp hx
  split at hx
  · rename_i hphase
    split at hx
    · rename_i hfits
      cases hx
      have hlink : Consistent { s.links fd with phase := .asked call raw } :=
        ⟨(hinv.links fd).1, hraw, hfits, hcalm.2, hcalm.1⟩
      refine ⟨⟨hinv.stored, hinv.fits, consistent_update hinv.links hlink⟩, ?_⟩
      have hidle : (callers P s).phase fd = .idle := by
        simp only [callers, hphase, bare]
      simp only [callers, bare_update]
      exact .ask hidle
    · cases hx
  · cases hx

/-- The one step of the three that changes the table. -/
theorem handle_callers (hinv : Inv P s) {fd : Nat} {cuts : List Nat} {rands : List Nat}
    (hcalm : Calm P s (.handle fd cuts rands)) (hx : next P s (.handle fd cuts rands) = some s') :
    Inv P s' ∧ ∃ event, observed P (s, .handle fd cuts rands) = some event ∧
      Callers.Step StoreStep Callers.Once (callers P s) event (callers P s') := by
  simp only [next] at hx
  split at hx
  · rename_i call raw hphase
    split at hx
    · rename_i hcuts
      obtain ⟨⟨buffers, deserializer⟩, hfeed, hx⟩ := Option.bind_eq_some_iff.mp hx
      obtain ⟨buffer, hhead, hx⟩ := Option.bind_eq_some_iff.mp hx
      obtain ⟨⟨writes, table⟩, hhandle, hx⟩ := Option.bind_eq_some_iff.mp hx
      obtain ⟨reply, hreply, hx⟩ := Option.bind_eq_some_iff.mp hx
      cases hx
      -- the deserializer hands over the bytes that were sent
      obtain ⟨hfresh, hlink⟩ := hinv.links fd
      rw [hphase] at hlink
      obtain ⟨hraw, hfits, hread, hempty⟩ := hlink
      rw [hfresh, Exec.toOption_eq_some] at hfeed
      rcases feed_request hraw hfits hcuts hfeed with rfl | ⟨rfl, rfl⟩
      · cases hhead
      cases hhead
      rw [Exec.toOption_eq_some, handleMessage_asked hraw hfits] at hhandle
      obtain ⟨L, hs⟩ := hinv.stored
      have hmap := tableMap_eq hs
      have hstored : ∀ key f, fileAt L key = some f → FileFits f := by
        rw [← hmap]
        exact hinv.fits
      have hquiet : Unawaited (fileAt L) call := by
        rw [← hmap]
        exact hcalm call raw hphase
      obtain ⟨r, L', hr, hs', hstep, hfiles, hwf, hown, hbytes⟩ :=
        handle_call hs hraw hfits hread hstored hquiet hhandle
      rw [Exec.toOption_eq_some, hr, Except.ok.injEq] at hreply
      subst hreply
      have hmap' := tableMap_eq hs'
      rw [deliver_update hown]
      have hlink : Consistent ⟨.answered call (some r), deserializerCreate,
          (s.links fd).inbox ++ bytesTo fd writes, (s.links fd).files⟩ :=
        ⟨rfl, r, rfl, hwf, by rw [hempty, List.nil_append, hbytes], P, s.table, fd, rands, hr⟩
      refine ⟨⟨⟨L', hs'⟩, ?_, consistent_update hinv.links hlink⟩, .effect fd call r, ?_, ?_⟩
      · rw [hmap']
        exact hfiles
      · simp only [observed, hphase, hr]
        rfl
      · have hasked : (callers P s).phase fd = .asked call [] := by
          simp only [callers, hphase, bare]
        have hstore : StoreStep (callers P s).object (fd, call, r) (fileAt L') := by
          simp only [callers, hmap]
          exact hstep
        have hgoes : Callers.Step StoreStep Callers.Once (callers P s) (.effect fd call r) _ :=
          .effect hasked hstore
        simp only [callers, bare_update, hmap']
        exact hgoes
    · cases hx
  · cases hx

theorem receive_callers (hinv : Inv P s) {fd : Nat} {chunks : Chunks} {m : EndOfStream.Machine}
    {dirname : Option CStr} (hx : next P s (.receive fd chunks m dirname) = some s') :
    Inv P s' ∧ ∃ event, observed P (s, .receive fd chunks m dirname) = some event ∧
      Callers.Step StoreStep Callers.Once (callers P s) event (callers P s') := by
  simp only [next] at hx
  split at hx
  · rename_i call reply hphase
    split at hx
    · obtain ⟨⟨result, rest⟩, hresponse, hx⟩ := Option.bind_eq_some_iff.mp hx
      cases hx
      obtain ⟨hfresh, hlink⟩ := hinv.links fd
      rw [hphase] at hlink
      obtain ⟨r, rfl, -⟩ := hlink
      have hlink : Consistent ⟨.idle, (s.links fd).deserializer, rest.bytes, result.files⟩ :=
        ⟨hfresh, trivial⟩
      refine ⟨⟨hinv.stored, hinv.fits, consistent_update hinv.links hlink⟩,
        .done fd call r, ?_, ?_⟩
      · simp only [observed, hphase]
      · have hanswered : (callers P s).phase fd = .asked call [r] := by
          simp only [callers, hphase, bare]
        simp only [callers, bare_update] at hanswered ⊢
        exact .done hanswered rfl
    · cases hx
  · cases hx

/-- Every event is one of the callers. -/
theorem step_callers (hinv : Inv P s) (hcalm : Calm P s e) (hx : next P s e = some s') :
    Inv P s' ∧ ∃ event, observed P (s, e) = some event ∧
      Callers.Step StoreStep Callers.Once (callers P s) event (callers P s') := by
  cases e with
  | send fd call =>
    obtain ⟨hinv', hstep⟩ := send_callers hinv hcalm hx
    exact ⟨hinv', _, rfl, hstep⟩
  | handle fd cuts rands => exact handle_callers hinv hcalm hx
  | receive fd chunks m dirname => exact receive_callers hinv hx

/-! ## 4. Whole sessions -/

variable {files : Nat → Files} {buckets : Nat} {config : Config} {tr : List (Session × Event)}

theorem inv_start (hcreate : htableCreate buckets config = .ok t) : Inv P (start files t) := by
  refine ⟨⟨_, stored_create hcreate⟩, fun key f hf => ?_, fun fd => ⟨rfl, trivial⟩⟩
  rw [start, tableMap_create hcreate] at hf
  cases hf

theorem Runs.inv (run : Runs P files buckets config tr s) (hcalm : ∀ x ∈ tr, Calm P x.1 x.2) :
    ∀ s' ∈ statesOf tr s, Inv P s' := by
  obtain ⟨t₀, hcreate, run⟩ := run
  exact run.invariant_states (Inv P) (Calm P) (inv_start hcreate)
    (fun s e s' hinv hcalm hx => (step_callers hinv hcalm hx).1) hcalm

/-- Every event of a session is one of the callers, after a state that fits. -/
theorem Runs.event (run : Runs P files buckets config tr s) (hcalm : ∀ x ∈ tr, Calm P x.1 x.2)
    {x : Session × Event} (hx : x ∈ tr) :
    Inv P x.1 ∧ (∃ s', next P x.1 x.2 = some s') ∧ ∃ event, observed P x = some event := by
  have hinv : Inv P x.1 := run.inv hcalm x.1 (by
    rw [statesOf]
    exact List.mem_append_left _ (List.mem_map_of_mem hx))
  obtain ⟨t₀, hcreate, run⟩ := run
  obtain ⟨s', -, hnext⟩ := run.next_mem x hx
  obtain ⟨event, hevent, -⟩ := (step_callers hinv (hcalm x hx) hnext).2
  exact ⟨hinv, ⟨s', hnext⟩, event, hevent⟩

/-- Events from a state that fits are a run of callers of the map. -/
theorem callers_run {s₀ : Session} (hinv : Inv P s₀)
    (run : Run (fun s e s' => next P s e = some s') s₀ tr s) (hcalm : ∀ x ∈ tr, Calm P x.1 x.2) :
    ∃ atr, Run (Callers.Step StoreStep Callers.Once) (Session.callers P s₀) atr
        (Session.callers P s) ∧ atr.map Prod.snd = history P tr := by
  refine ⟨_, run.refines (Session.callers P) (observed P) (Inv P) (Calm P) hinv ?_ ?_ hcalm, ?_⟩
  · exact fun s e s' hinv hcalm hx => (step_callers hinv hcalm hx).1
  · intro s e s' hinv hcalm hx
    obtain ⟨event, hevent, hstep⟩ := (step_callers hinv hcalm hx).2
    rw [hevent]
    exact hstep
  · rw [List.map_filterMap, history]
    congr 1
    funext x
    cases observed P x <;> rfl

/-- The session is a run of callers of the map. -/
theorem Runs.callers (run : Runs P files buckets config tr s) (hcalm : ∀ x ∈ tr, Calm P x.1 x.2) :
    ∃ atr, Run (Callers.Step StoreStep Callers.Once) (Callers.start fun _ => none) atr
        (Session.callers P s) ∧ atr.map Prod.snd = history P tr := by
  obtain ⟨t₀, hcreate, run⟩ := run
  have hstart : Session.callers P (start files t₀) = Callers.start fun _ => none := by
    simp only [Session.callers, start, tableMap_create hcreate, bare, Callers.start]
  rw [← hstart]
  exact callers_run (inv_start hcreate) run hcalm

/-! ### Sessions by their events -/

def calm (P : Platform) (x : Session × Event) : Bool :=
  match x.2 with
  | .send fd call => (x.1.links fd).inbox.isEmpty &&
      match call with
      | .readNFiles _ => false
      | _ => true
  | .handle fd _ _ =>
      match (x.1.links fd).phase with
      | .asked (.unlockFile path) _ => (tableMap P x.1.table path).all fun f => f.subs.isEmpty
      | _ => true
  | .receive _ _ _ _ => true

theorem calm_of_test {x : Session × Event} (h : calm P x = true) : Calm P x.1 x.2 := by
  obtain ⟨s, e⟩ := x
  cases e with
  | send fd call =>
    rw [calm, Bool.and_eq_true, List.isEmpty_iff] at h
    refine ⟨h.1, ?_⟩
    rintro n rfl
    cases h.2
  | handle fd cuts rands =>
    rintro call raw hphase path f rfl hf
    change (s.links fd).phase = _ at hphase
    change tableMap P s.table path = some f at hf
    simp only [calm, hphase, hf, Option.all_some, List.isEmpty_iff] at h
    exact h
  | receive fd chunks m dirname => exact trivial

theorem Runs.of_events (P : Platform) (files : Nat → Files) (buckets : Nat) (config : Config)
    (events : List Event) (test : List (Session × Event) → Session → Bool)
    (hx : ((htableCreate buckets config).toOption.bind fun t =>
      replay (next P) (start files t) events).any
        (fun x => x.1.all (calm P) && test x.1 x.2) = true) :
    ∃ tr s, Runs P files buckets config tr s ∧ (∀ x ∈ tr, Calm P x.1 x.2) ∧ test tr s = true := by
  obtain ⟨x, hreplay, htest⟩ := (Option.any_eq_true _ _).mp hx
  obtain ⟨t₀, hcreate, hreplay⟩ := Option.bind_eq_some_iff.mp hreplay
  rw [Bool.and_eq_true, List.all_eq_true] at htest
  exact ⟨x.1, x.2, ⟨t₀, Exec.toOption_eq_some.mp hcreate,
    Run.of_replay (fun _ _ _ h => h) hreplay⟩, fun y hy => calm_of_test (htest.1 y hy), htest.2⟩

/-- A client that receives has what its reply stands for. -/
theorem received_of_next {fd : Nat} {chunks : Chunks} {m : EndOfStream.Machine}
    {dirname : Option CStr} (hinv : Inv P s)
    (hx : next P s (.receive fd chunks m dirname) = some s') :
    ∃ call reply rest, (s.links fd).phase = .answered call (some reply) ∧
      call.response m dirname (s.links fd).files chunks =
        .ok (reply.result m dirname (s.links fd).files, rest) := by
  have hlink := (hinv.links fd).2
  simp only [next] at hx
  split at hx
  · rename_i call reply hphase
    split at hx
    · rename_i hbytes
      obtain ⟨⟨result, rest⟩, hresponse, -⟩ := Option.bind_eq_some_iff.mp hx
      rw [Exec.toOption_eq_some] at hresponse
      rw [hphase] at hlink
      obtain ⟨r, rfl, hwf, hinbox, P', t', fd', rands', hr⟩ := hlink
      obtain rfl := response_of_reply hr hwf (hbytes.trans hinbox) hresponse
      exact ⟨call, r, rest, hphase, hresponse⟩
    · cases hx
  · cases hx

theorem Runs.received (run : Runs P files buckets config tr s) (hcalm : ∀ x ∈ tr, Calm P x.1 x.2)
    {s₁ : Session} {fd : Nat} {chunks : Chunks} {m : EndOfStream.Machine} {dirname : Option CStr}
    (hx : (s₁, .receive fd chunks m dirname) ∈ tr) :
    ∃ call reply rest, (s₁.links fd).phase = .answered call (some reply) ∧
      call.response m dirname (s₁.links fd).files chunks =
        .ok (reply.result m dirname (s₁.links fd).files, rest) := by
  obtain ⟨hinv, ⟨s₂, hnext⟩, -⟩ := run.event hcalm hx
  exact received_of_next hinv hnext

/-- The calls of a session are linear over the map from paths to files. -/
theorem Runs.linear (run : Runs P files buckets config tr s) (hcalm : ∀ x ∈ tr, Calm P x.1 x.2) :
    Callers.Linear StoreStep Callers.Once (fun _ => none) (history P tr) (tableMap P s.table) := by
  obtain ⟨atr, hrun, hhistory⟩ := run.callers hcalm
  rw [← hhistory]
  exact Callers.linear_of_run hrun

/-- With one worker every event of a session counts, its calls are linear, and each client has what its
reply stands for. -/
theorem session_linearizable (run : Runs P files buckets config tr s)
    (hcalm : ∀ x ∈ tr, Calm P x.1 x.2) :
    (history P tr).length = tr.length ∧
      Callers.Linear StoreStep Callers.Once (fun _ => none) (history P tr) (tableMap P s.table) ∧
      ∀ x ∈ tr, ∀ fd chunks m dirname, x.2 = .receive fd chunks m dirname →
        ∃ call reply rest, (x.1.links fd).phase = .answered call (some reply) ∧
          call.response m dirname (x.1.links fd).files chunks =
            .ok (reply.result m dirname (x.1.links fd).files, rest) := by
  refine ⟨?_, run.linear hcalm, ?_⟩
  · refine List.filterMap_length_eq_length.mpr fun x hx => ?_
    obtain ⟨-, -, event, hevent⟩ := run.event hcalm hx
    rw [hevent]
    rfl
  · rintro ⟨s₁, e⟩ hx fd chunks m dirname rfl
    exact run.received hcalm hx

/-- 4 creates `a` and writes two bytes to it; 5 asks for them before they are written, and the server
handles the read after the write. -/
theorem session_linearizable_two :
    ∃ tr s, Runs samplePlatform (fun _ _ => none) 1 ⟨10, 10, .fifo⟩ tr s ∧
      Callers.Linear StoreStep Callers.Once (fun _ => none) (history samplePlatform tr)
        (tableMap samplePlatform s.table) ∧
      (history samplePlatform tr).length = 9 := by
  let a : CStr := ⟨[97], by decide⟩
  obtain ⟨tr, s, run, hcalm, hlength⟩ := Runs.of_events samplePlatform (fun _ _ => none) 1
    ⟨10, 10, .fifo⟩
    [.send 4 (.openFile a 3), .handle 4 [16, 1, 1] [], .receive 4 (oneByOne [0]) sampleMachine none,
      .send 5 (.readFile a), .send 4 (.writeFile a [7, 8]), .handle 4 [9, 8, 30] [],
      .handle 5 [16, 2] [], .receive 5 (oneByOne ([0, 0, 0, 0, 0, 0, 0, 0, 2, 7, 8])) sampleMachine none,
      .receive 4 (oneByOne (List.replicate 9 0)) sampleMachine none]
    (fun tr _ => tr.length == 9) (by decide +kernel)
  have h := session_linearizable run hcalm
  exact ⟨tr, s, run, h.2.1, h.1.trans (beq_iff_eq.mp hlength)⟩

end Session

end FileStorage.Client
