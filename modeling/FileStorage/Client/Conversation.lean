import FileStorage.Client.Durability
import FileStorage.Client.RunAction
import Mathlib.Data.Set.Insert

/-!
# Conversation — a program of the client on a server that others use

The calls of the program are those of one client of a session.  What it is shown to achieve on
contents with others that keep to some rule, it achieves in every session in which they do.
-/

namespace FileStorage.Client

open Server EndOfStream

/-! ## 1. Answers -/

def ApiCall.pathname : ApiCall → Option CStr
  | .readNFiles _ => none
  | .openFile pathname _ | .readFile pathname | .writeFile pathname _ | .lockFile pathname
  | .unlockFile pathname | .closeFile pathname | .removeFile pathname => some pathname

/-- The call makes no file under these paths. -/
def MakesNone (paths : Set CStr) (call : ApiCall) : Prop :=
  ∀ path ∈ paths, ∀ flags, call = .openFile path flags → ¬Creates flags

/-- The call neither makes nor writes a file under these paths. -/
def Spares (paths : Set CStr) (call : ApiCall) : Prop :=
  MakesNone paths call ∧ ∀ path ∈ paths, ∀ contents, call ≠ .writeFile path contents

/-- What is not stored under these paths stays away. -/
def StaysAway (paths : Set CStr) (c c' : ContentsMap) : Prop :=
  ∀ path ∈ paths, c path = none → c' path = none

/-- Files under these paths stay as they are or go. -/
def Stays (paths : Set CStr) (c c' : ContentsMap) : Prop :=
  ∀ path ∈ paths, c' path = c path ∨ c' path = none

variable {c c' : ContentsMap} {fd : Nat} {call : ApiCall} {reply : EndOfStream.Reply}
  {paths : Set CStr} {path : CStr}

theorem ContentsStep.staysAway (h : ContentsStep c (fd, call, reply) c')
    (hnone : MakesNone paths call) : StaysAway paths c c' := by
  intro path hpath hfree
  cases h with
  | read | absent | quiet => exact hfree
  | created hflags hfree' =>
    rename_i key flags
    have hne : path ≠ key := by
      rintro rfl
      exact hnone _ hpath flags rfl hflags
    rwa [Function.update_of_ne hne]
  | written hold hevicted =>
    rename_i key contents old evicted
    have hne : path ≠ key := by
      rintro rfl
      rw [hfree] at hold
      cases hold
    rw [ContentsMap.written]
    split
    · rfl
    · rwa [Function.update_of_ne hne]
  | removed =>
    rename_i key
    by_cases hne : path = key
    · rw [hne, Function.update_self]
    · rwa [Function.update_of_ne hne]

theorem ContentsStep.stays (h : ContentsStep c (fd, call, reply) c') (hspares : Spares paths call) :
    Stays paths c c' := by
  intro path hpath
  cases h with
  | read | absent | quiet => exact Or.inl rfl
  | created hflags hfree =>
    rename_i key flags
    have hne : path ≠ key := by
      rintro rfl
      exact hspares.1 _ hpath flags rfl hflags
    exact Or.inl (Function.update_of_ne hne _ _)
  | written hold hevicted =>
    rename_i key contents old evicted
    have hne : path ≠ key := by
      rintro rfl
      exact hspares.2 _ hpath contents rfl
    rw [ContentsMap.written]
    split
    · exact Or.inr rfl
    · exact Or.inl (Function.update_of_ne hne _ _)
  | removed =>
    rename_i key
    by_cases hne : path = key
    · rw [hne, Function.update_self]
      exact Or.inr rfl
    · exact Or.inl (Function.update_of_ne hne _ _)

theorem spares_of_pathname (hpath : call.pathname ≠ some path) : Spares {path} call := by
  refine ⟨fun p hp flags hcall => ?_, fun p hp contents hcall => ?_⟩
  · rw [hcall, Set.mem_singleton_iff.mp hp] at hpath
    exact absurd rfl hpath
  · rw [hcall, Set.mem_singleton_iff.mp hp] at hpath
    exact absurd rfl hpath

/-- A call on another path can only evict a file. -/
theorem ContentsStep.apart (h : ContentsStep c (fd, call, reply) c')
    (hpath : call.pathname ≠ some path) : c' path = c path ∨ c' path = none :=
  h.stays (spares_of_pathname hpath) path rfl

namespace RunAction

open Session

/-- What the client finds under a name, and in a file. -/
structure Local where
  realpath : CStr → Option CStr
  contents : CStr → Option (List UInt8)

def Local.Agrees (loc : Local) : Exchange → Prop
  | ⟨.realpath path, r⟩ => r = loc.realpath path
  | ⟨.fileContents filepath, r⟩ => r = loc.contents filepath
  | _ => True

/-- What was called, with its destination, code and `*buf`. -/
abbrev Heard := ApiCall × Option CStr × Int32 × List UInt8

def callOf : Exchange → Option Heard
  | ⟨.call call dirname, r⟩ => some (call, dirname, r)
  | _ => none

/-- The store with contents `c` and the machine may answer so. -/
def Answers (loc : Local) (fd : Nat) (c : ContentsMap) (e : Exchange) (c' : ContentsMap) : Prop :=
  match e with
  | ⟨.call call dirname, r⟩ => ∃ reply m files, ContentsStep c (fd, call, reply) c' ∧
      r = ((reply.result m dirname files).code, (reply.result m dirname files).buf)
  | e => loc.Agrees e ∧ c' = c

/-! ## 2. What a client hears -/

/-- What `fd` has in its hands after the event. -/
def heardBy (fd : Nat) : Session × Event → Option Heard
  | (s, .receive fd' chunks m dirname) =>
      match (s.links fd').phase with
      | .answered call _ =>
          if fd' = fd then
            (call.response m dirname (s.links fd').files chunks).toOption.map
              fun x => (call, dirname, x.1.code, x.1.buf)
          else
            none
      | _ => none
  | _ => none

/-- The call that the server handles in the event. -/
def handledCall : Session × Event → Option (Nat × ApiCall)
  | (s, .handle fd _ _) =>
      match (s.links fd).phase with
      | .asked call _ => some (fd, call)
      | _ => none
  | _ => none

/-- In the events from `s` to `s'` the client behind `fd` makes the calls of `h`, and the server
handles only such calls of the others as are `allowed`. -/
structure Conversation (P : Platform) (loc : Local) (fd : Nat) (allowed : ApiCall → Prop)
    (h : List Exchange) (s : Session) (tr : List (Session × Event)) (s' : Session) : Prop where
  run : Run (fun s e s' => next P s e = some s') s tr s'
  calm : ∀ x ∈ tr, Calm P x.1 x.2
  idle : (s.links fd).phase = .idle
  finished : (s'.links fd).phase = .idle
  heard : h.filterMap callOf = tr.filterMap (heardBy fd)
  agrees : ∀ e ∈ h, loc.Agrees e
  others : ∀ x ∈ tr, ∀ fd' call, handledCall x = some (fd', call) → fd' ≠ fd → allowed call

variable {P : Platform} {s s' : Session} {tr : List (Session × Event)} {fd : Nat}

/-- An effect is that of a call which was handled. -/
theorem handled_of_effect {x : Session × Event} {call : ApiCall} {reply : EndOfStream.Reply}
    (h : observed P x = some (.effect fd call reply)) : handledCall x = some (fd, call) := by
  obtain ⟨s, e⟩ := x
  cases e with
  | send fd' call' => cases h
  | receive fd' chunks m dirname =>
    simp only [observed] at h
    split at h <;> cases h
  | handle fd' cuts rands =>
    simp only [observed] at h
    split at h
    · rename_i call' raw hphase
      obtain ⟨r, -, hr⟩ := Option.map_eq_some_iff.mp h
      cases hr
      simp only [handledCall, hphase]
    · cases h

theorem handled_of_mem {x : ContentsMap × (Nat × ApiCall × EndOfStream.Reply)}
    {ops : List (ContentsMap × (Nat × ApiCall × EndOfStream.Reply))}
    (hops : ops.map Prod.snd = handled P tr) (hx : x ∈ ops) :
    ∃ y ∈ tr, handledCall y = some (x.2.1, x.2.2.1) := by
  have hmem : x.2 ∈ handled P tr := hops ▸ List.mem_map_of_mem hx
  obtain ⟨event, hevent, hx⟩ := List.mem_filterMap.mp hmem
  obtain ⟨y, hy, hobserved⟩ := List.mem_filterMap.mp hevent
  cases event with
  | ask | done => cases hx
  | effect j call reply =>
    have heq : (j, call, reply) = x.2 := Option.some.inj hx
    rw [← heq]
    exact ⟨y, hy, handled_of_effect hobserved⟩

/-- What the client has in its hands stands for the reply. -/
def StandsFor (heard : Heard) (answer : ApiCall × EndOfStream.Reply) : Prop :=
  heard.1 = answer.1 ∧ ∃ m files,
    heard.2.2 = ((answer.2.result m heard.2.1 files).code, (answer.2.result m heard.2.1 files).buf)

theorem heard_answers (hinv : Inv P s) (run : Run (fun s e s' => next P s e = some s') s tr s')
    (hcalm : ∀ x ∈ tr, Calm P x.1 x.2) :
    List.Forall₂ StandsFor (tr.filterMap (heardBy fd)) (Callers.answers fd (history P tr)) := by
  induction run with
  | nil => exact .nil
  | snoc run next ih =>
    rename_i tr s₁ s₂ e
    have hbefore : ∀ x ∈ tr, Calm P x.1 x.2 := fun x hx => hcalm x (List.mem_append_left _ hx)
    have hinv₁ : Inv P s₁ := run.invariant (Inv P) (Calm P) hinv
      (fun s e s' hinv hcalm hx => (step_callers hinv hcalm hx).1) hbefore
    rw [history, List.filterMap_append, List.filterMap_append, Callers.answers_append]
    refine List.rel_append (ih hbefore) ?_
    cases e with
    | send fd' call => exact .nil
    | handle fd' cuts rands =>
      have hnone : ∀ event, observed P (s₁, .handle fd' cuts rands) = some event →
          Callers.answers fd [event] = [] := by
        intro event hevent
        simp only [observed] at hevent
        split at hevent
        · obtain ⟨r, -, rfl⟩ := Option.map_eq_some_iff.mp hevent
          rfl
        · cases hevent
      cases hobserved : observed P (s₁, .handle fd' cuts rands) with
      | none =>
        rw [List.filterMap_cons_none hobserved]
        exact .nil
      | some event =>
        rw [List.filterMap_cons_some hobserved, List.filterMap_nil, hnone event hobserved]
        exact .nil
    | receive fd' chunks m dirname =>
      obtain ⟨call, reply, rest, hphase, hresponse⟩ := received_of_next hinv₁ next
      have hobserved : observed P (s₁, .receive fd' chunks m dirname) =
          some (.done fd' call reply) := by
        simp only [observed, hphase]
      rw [List.filterMap_cons_some hobserved, List.filterMap_nil]
      by_cases hfd : fd' = fd
      · subst hfd
        have hheard : heardBy fd' (s₁, .receive fd' chunks m dirname) =
            some (call, dirname, (reply.result m dirname (s₁.links fd').files).code,
              (reply.result m dirname (s₁.links fd').files).buf) := by
          simp only [heardBy, hphase, if_true, hresponse]
          rfl
        rw [List.filterMap_cons_some hheard, List.filterMap_nil]
        have hanswer : Callers.answers fd' [(.done fd' call reply :
            Callers.Event Nat ApiCall EndOfStream.Reply EndOfStream.Reply)] = [(call, reply)] :=
          List.filterMap_cons_some (if_pos rfl)
        rw [hanswer]
        exact .cons ⟨rfl, m, _, rfl⟩ .nil
      · have hheard : heardBy fd (s₁, .receive fd' chunks m dirname) = none := by
          simp only [heardBy, hphase, if_neg hfd]
        have hanswer : Callers.answers fd [(.done fd' call reply :
            Callers.Event Nat ApiCall EndOfStream.Reply EndOfStream.Reply)] = [] :=
          List.filterMap_cons_none (if_neg hfd)
        rw [List.filterMap_cons_none hheard, hanswer]
        exact .nil

/-! ## 3. What a program achieves in a session -/

/-- The exchanges that are calls are what they say, one after the other. -/
theorem calls_heard (h : List Exchange) :
    List.Forall₂ (fun e heard => callOf e = some heard) (h.filter fun e => (callOf e).isSome)
      (h.filterMap callOf) := by
  induction h with
  | nil => exact .nil
  | cons e h ih =>
    cases he : callOf e with
    | none =>
      rw [List.filter_cons_of_neg (by simp [he]), List.filterMap_cons_none he]
      exact ih
    | some heard =>
      rw [List.filter_cons_of_pos (by simp [he]), List.filterMap_cons_some he]
      exact .cons he ih

theorem forall₂_comp {α β γ : Type} {R : α → β → Prop} {S : β → γ → Prop} {as : List α}
    {bs : List β} {cs : List γ} (hR : List.Forall₂ R as bs) (hS : List.Forall₂ S bs cs) :
    List.Forall₂ (fun a c => ∃ b, R a b ∧ S b c) as cs := by
  induction hR generalizing cs with
  | nil =>
    cases hS
    exact .nil
  | cons hab _ ih =>
    cases hS with
    | cons hbc hrest => exact .cons ⟨_, hab, hbc⟩ (ih hrest)

/-- An exchange that is a call asks the store, every other one is answered by the machine. -/
theorem answers_of_call {loc : Local} {e : Exchange} {call : ApiCall} {reply : EndOfStream.Reply}
    {heard : Heard} (he : callOf e = some heard) (hstands : StandsFor heard (call, reply))
    {c c' : ContentsMap} (hstep : ContentsStep c (fd, call, reply) c') : Answers loc fd c e c' := by
  obtain ⟨q, r⟩ := e
  cases q with
  | call call' dirname =>
    obtain rfl := Option.some.inj he
    obtain ⟨rfl, m, files, hr⟩ := hstands
    exact ⟨reply, m, files, hstep, hr⟩
  | clockGettime | realpath | getcwd | opendir | fileContents | saveFile | openConnection
  | closeConnection => cases he

theorem answers_of_local {loc : Local} {e : Exchange} (he : (callOf e).isSome = false)
    (hagrees : loc.Agrees e) (c : ContentsMap) : Answers loc fd c e c := by
  obtain ⟨q, r⟩ := e
  cases q with
  | call call' dirname => cases he
  | clockGettime | realpath | getcwd | opendir | fileContents | saveFile | openConnection
  | closeConnection => exact ⟨hagrees, rfl⟩

/-- What a program of the client achieves on contents, when the allowed calls of the others are steps
that it relies on, it achieves in a session. -/
theorem Conversation.achieves {loc : Local} {allowed : ApiCall → Prop}
    {rely : ContentsMap → ContentsMap → Prop} {h : List Exchange} {α : Type}
    {x : Command α} {a : α} {A : Dialogue.Claim Query.Reply ContentsMap}
    {post : α → Dialogue.Claim Query.Reply ContentsMap}
    (hconv : Conversation P loc fd allowed h s tr s') (hinv : Inv P s)
    (hrely : ∀ {c fd call reply c'}, ContentsStep c (fd, call, reply) c' → allowed call → rely c c')
    (hmeets : Dialogue.Meets (Answers loc fd) rely A x post)
    (hstable : Dialogue.Stable rely A) (hreturns : x.Returns h a)
    (hA : A [] (stored P s)) : post a h (stored P s') := by
  obtain ⟨ops, hops, heffects⟩ := contents_run hinv hconv.run hconv.calm
  -- between the two idle states the effects of `fd` are its replies
  obtain ⟨atr, hrun, hhistory⟩ := callers_run hinv hconv.run hconv.calm
  have hidle : (callers P s).phase fd = .idle := by
    simp only [callers, hconv.idle, bare]
  have hfinished : (callers P s').phase fd = .idle := by
    simp only [callers, hconv.finished, bare]
  have hown := Callers.answers_of_run hrun hidle
  rw [hfinished, Callers.Phase.open, List.append_nil, hhistory, ← handled, ← heffects,
    List.filter_map] at hown
  have hheard : List.Forall₂ StandsFor (tr.filterMap (heardBy fd))
      (Callers.answers fd (history P tr)) := heard_answers hinv hconv.run hconv.calm
  rw [← hconv.heard] at hheard
  have hpairs := forall₂_comp (calls_heard h) hheard
  refine hmeets.of_run (fun e => (callOf e).isSome) (fun y => y.2.1 = fd) hstable hreturns hops
    hA ?_ (fun e he hlocal => answers_of_local hlocal (hconv.agrees e he)) ?_
  · have hlabels : List.Forall₂ (fun e z => z.1 = fd ∧ ∃ heard, callOf e = some heard ∧
        StandsFor heard z.2) (h.filter fun e => (callOf e).isSome)
        ((Callers.answers fd (history P tr)).map (fd, ·)) :=
      List.forall₂_map_right_iff.mpr (hpairs.imp fun _ _ hpair => ⟨rfl, hpair⟩)
    rw [← hown] at hlabels
    refine (List.forall₂_map_right_iff.mp hlabels).imp fun e y hy c' hstep => ?_
    obtain ⟨c, fd', call, reply⟩ := y
    obtain ⟨rfl, heard, he, hstands⟩ := hy
    exact answers_of_call he hstands hstep
  · intro y hy hother c' hstep
    obtain ⟨z, hz, hcall⟩ := handled_of_mem heffects hy
    have hne : y.2.1 ≠ fd := of_decide_eq_false hother
    exact hrely hstep (hconv.others z hz _ _ hcall hne)

/-! ### Conversations by their events -/

deriving instance DecidableEq for ApiCall

def CallPhase.isIdle : CallPhase → Bool
  | .idle => true
  | _ => false

theorem CallPhase.idle_of_test {phase : CallPhase} (h : isIdle phase = true) : phase = .idle := by
  cases phase with
  | idle => rfl
  | asked | answered => cases h

/-- The call names none of these paths. -/
def names (paths : List CStr) (call : ApiCall) : Bool :=
  paths.any fun path => call.pathname == some path

theorem spares_of_names {paths : List CStr} {call : ApiCall} (h : names paths call = false) :
    Spares {path | path ∈ paths} call := by
  have hnot : ∀ path ∈ paths, call.pathname ≠ some path := fun path hpath heq => by
    rw [names, List.any_eq_false] at h
    exact h path hpath (beq_iff_eq.mpr heq)
  refine ⟨fun path hpath flags hcall => ?_, fun path hpath contents hcall => ?_⟩
  · exact absurd (by rw [hcall]; rfl) (hnot path hpath)
  · exact absurd (by rw [hcall]; rfl) (hnot path hpath)

/-- What makes a conversation in which the others name none of these paths. -/
def conversed (P : Platform) (fd : Nat) (paths : List CStr) (h : List Exchange) (s : Session)
    (tr : List (Session × Event)) (s' : Session) : Bool :=
  tr.all (calm P) && CallPhase.isIdle (s.links fd).phase && CallPhase.isIdle (s'.links fd).phase &&
    h.filterMap callOf == tr.filterMap (heardBy fd) &&
    tr.all fun x => (handledCall x).all fun y => y.1 == fd || !names paths y.2

theorem Conversation.of_test {loc : Local} {paths : List CStr} {h : List Exchange}
    (run : Run (fun s e s' => next P s e = some s') s tr s')
    (htest : conversed P fd paths h s tr s' = true) (hagrees : ∀ e ∈ h, loc.Agrees e) :
    Conversation P loc fd (Spares {path | path ∈ paths}) h s tr s' := by
  simp only [conversed, Bool.and_eq_true, List.all_eq_true, beq_iff_eq] at htest
  obtain ⟨⟨⟨⟨hcalm, hidle⟩, hfinished⟩, hheard⟩, hothers⟩ := htest
  refine ⟨run, fun x hx => calm_of_test (hcalm x hx), CallPhase.idle_of_test hidle,
    CallPhase.idle_of_test hfinished, hheard, hagrees, ?_⟩
  intro x hx fd' call hcall hfd
  have hother := hothers x hx
  rw [hcall, Option.all_some, Bool.or_eq_true, beq_iff_eq, Bool.not_eq_true'] at hother
  exact spares_of_names (hother.resolve_left hfd)

/-- A conversation stays one when more is allowed. -/
theorem Conversation.mono {loc : Local} {allowed allowed' : ApiCall → Prop} {h : List Exchange}
    (hconv : Conversation P loc fd allowed h s tr s') (hmore : ∀ call, allowed call → allowed' call) :
    Conversation P loc fd allowed' h s tr s' :=
  { hconv with
    others := fun x hx fd' call hcall hfd => hmore call (hconv.others x hx fd' call hcall hfd) }

end RunAction

end FileStorage.Client
