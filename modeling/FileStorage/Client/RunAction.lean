import FileStorage.Client.Calls
import FileStorage.Client.WriteDir
import FileStorage.Dialogue

/-!
# RunAction — what the client does for its options

The client as a program that asks the system, the file system and the server.  The answers come from
outside, so nothing here depends on who else uses the server.
-/

namespace FileStorage.Client.RunAction

open Cli Memory
open WriteDir (Calls Issued Listing PATH_MAX fullpath isDot startDir)

/-! ## 1. The code -/

inductive Query where
  | clockGettime
  | realpath (path : CStr)
  | getcwd
  | opendir (path : CStr)
  | fileContents (filepath : CStr)
  | saveFile (filepath buffer : List UInt8)  -- `fopen`, `fwrite` and `fclose`
  | openConnection (sockname : CStr) (msec : Int32) (abstime : Int)
  | closeConnection (sockname : CStr)
  | call (call : ApiCall) (dirname : Option CStr)

/-- The seconds of the clock, and of a call its code and the `*buf` of `readFile`. -/
abbrev Query.Reply : Query → Type
  | .clockGettime => Int
  | .realpath _ | .getcwd => Option CStr
  | .opendir _ | .saveFile _ _ => Bool
  | .fileContents _ => Option (List UInt8)
  | .openConnection _ _ _ | .closeConnection _ => Int32
  | .call _ _ => Int32 × List UInt8

abbrev Command := Dialogue Query.Reply

abbrev Exchange := Sigma Query.Reply

def clockGettime : Command Int := Dialogue.query Query.clockGettime

def realpath (path : CStr) : Command (Option CStr) := Dialogue.query (Query.realpath path)

def getcwd : Command (Option CStr) := Dialogue.query Query.getcwd

def opendir (path : CStr) : Command Bool := Dialogue.query (Query.opendir path)

def fileContents (filepath : CStr) : Command (Option (List UInt8)) :=
  Dialogue.query (Query.fileContents filepath)

def saveFile (filepath buffer : List UInt8) : Command Bool :=
  Dialogue.query (Query.saveFile filepath buffer)

def openConnection (sockname : CStr) (msec : Int32) (abstime : Int) : Command Int32 :=
  Dialogue.query (Query.openConnection sockname msec abstime)

def closeConnection (sockname : CStr) : Command Int32 :=
  Dialogue.query (Query.closeConnection sockname)

def waitMsec (msec : Int32) : Command Unit := Dialogue.ofExec (FileStorage.waitMsec msec)

/-- The string from `rest` on up to the next `delim`, and what is behind it. -/
def strtokNext (rest : List UInt8) (delim : UInt8) : Option (CStr × List UInt8) :=
  let tokens := rest.dropWhile (· = delim)
  if tokens = [] then
    none
  else
    some (bufToStr (tokens.takeWhile (· ≠ delim)), (tokens.dropWhile (· ≠ delim)).drop 1)

/-- What the calls of `strtok` give until there is no token, each after the one before. -/
def strtokAll (delim : UInt8) : Nat → List UInt8 → List CStr
  | 0, _ => []
  | fuel + 1, rest =>
      match strtokNext rest delim with
      | none => []
      | some (token, rest) => token :: strtokAll delim fuel rest

/-- A token takes a byte at least. -/
def tokens (s : CStr) : List CStr := strtokAll 44 s.strlen s.bytes

/-- A call that fails before it writes gives -1. -/
def makeCall (call : ApiCall) (dirname : Option CStr) : Command (Int32 × List UInt8) :=
  match call.emitted with
  | none => return (-1, [])
  | some _ => Dialogue.query (Query.call call dirname)

def writeFile (filepath : CStr) (dirname : Option CStr) : Command Int32 := do
  match ← fileContents filepath with
  | none => return -1
  | some buffer => do
      let (err, _) ← makeCall (.writeFile filepath buffer) dirname
      return err

/-- `assert(dirname)` comes first. -/
def readNFiles (n : Int32) : Option CStr → Command Int32
  | none => .stop .assertion
  | some dirname => do
      let (err, _) ← makeCall (.readNFiles n) (some dirname)
      return err

/-- A failure of the function of the API is only logged. -/
def runSomeActionOverListOfFiles (apiF : CStr → ApiCall) : List CStr → Command Int32
  | [] => return 0
  | path :: paths => do
      let _ ← makeCall (apiF path) none
      runSomeActionOverListOfFiles apiF paths

def runActionWriteFile (relativeFilepath : CStr) (dirname : Option CStr) : Command Int32 := do
  match ← realpath relativeFilepath with
  | none => return -1
  | some filepath => do
      let (err, _) ← makeCall (.openFile filepath (oCreate ||| oLock)) none
      if err < 0 then
        return err
      let err ← writeFile filepath dirname
      if err < 0 then
        return err
      let (err, _) ← makeCall (.closeFile filepath) none
      if err < 0 then
        return err
      return 0

def runActionWriteListOfFiles (dirname : Option CStr) : List CStr → Command Int32
  | [] => return 0
  | path :: paths => do
      let err ← runActionWriteFile path dirname
      if err ≠ 0 then
        return err
      runActionWriteListOfFiles dirname paths

/-- `opendir`, and the loop over the entries if it succeeds. -/
def withDir (absdir : CStr) (limit : Option Int32)
    (loop : Option Int32 → Command (Int32 × Option Int32)) : Command (Int32 × Option Int32) := do
  if ← opendir absdir then
    loop limit
  else
    return (-1, limit)

/-- The loop of `write_dir`, with `*limit`. -/
def writeEntries (absdir : CStr) : Listing → Option Int32 → Command (Int32 × Option Int32)
  | .nil, limit => return (0, limit)
  | .entry dName dType sub rest, limit =>
      if limit.any (· ≤ 0) then
        return (0, limit)
      else if isDot dName then
        writeEntries absdir rest limit
      else
        match dType with
        | .dir => do
            -- the result of the inner call is not looked at
            let (_, limit) ← withDir (fullpath absdir dName) limit fun limit =>
              writeEntries (fullpath absdir dName) sub limit
            writeEntries absdir rest limit
        | .reg => do
            let err ← writeFile (fullpath absdir dName) none
            if err ≠ 0 then
              return (-1, limit)
            writeEntries absdir rest (limit.map (· - 1))
        | .other => return (-1, limit)

def writeDir (absdir : CStr) (listing : Listing) (limit : Option Int32) :
    Command (Int32 × Option Int32) :=
  withDir absdir limit (writeEntries absdir listing)

/-- The directory that the action names; `none` when `getcwd` fails. -/
def startDirname (action : Action) : Command (Option CStr) :=
  match action.argS1 with
  | none => .stop .fault
  | some argS1 =>
      if argS1.bytes.head? = some 47 then
        match strtok argS1 44 with
        | none => .stop .fault
        | some dirname => return some dirname
      else do
        match ← getcwd with
        | none => return none
        | some cwd =>
            if PATH_MAX ≤ cwd.strlen then
              return none
            -- `strcat` does not look at the size of the buffer
            else if PATH_MAX ≤ (fullpath cwd argS1).strlen then
              .stop .fault
            else
              return some (fullpath cwd argS1)

/-- `contents` are the directories. -/
def runActionWriteFilesInDir (contents : CStr → Listing) (action : Action) : Command Int32 := do
  match ← startDirname action with
  | none => return -1
  | some dirname => do
      let limit := if 0 < action.argI then some action.argI else none
      let (result, _) ← writeDir dirname (contents dirname) limit
      return result

/-- `strlen(dir)` comes before any test, and its caller does not look at the result. -/
def writeFileToDir (buffer : List UInt8) (dir : Option CStr) (originalFilepath : CStr) :
    Command Int32 :=
  match dir with
  | none => .stop .fault
  | some dir => do
      if ← saveFile (EndOfStream.localPath dir originalFilepath.bytes) buffer then
        return 0
      else
        return -1

def readListOfFiles (dirName : Option CStr) : List CStr → Command Int32
  | [] => return 0
  | relFilepath :: paths => do
      match ← realpath relFilepath with
      | none => return 0  -- the loop ends, and this is no failure
      | some filepath => do
          let (err, buffer) ← makeCall (.readFile filepath) none
          if err ≠ 0 then
            return err
          let _ ← writeFileToDir buffer dirName filepath
          readListOfFiles dirName paths

def runActionReadListOfFiles (dirName : Option CStr) (paths : List CStr) : Command Int32 := do
  if let some dir := dirName then
    let _ ← opendir dir
  readListOfFiles dirName paths

def runActionReadRandomFiles (action : Action) : Command Int32 :=
  match action.argS2 with
  | none => readNFiles action.argI none
  | some dir => do
      match ← realpath dir with
      | none => return -1
      | some destinationDir => readNFiles action.argI (some destinationDir)

/-- The loops over a list of files begin with `strtok(action->arg_s1, ",")`. -/
def overPaths (action : Action) (loop : List CStr → Command Int32) : Command Int32 :=
  match action.argS1 with
  | none => .stop .fault
  | some argS1 => loop (tokens argS1)

def runAction (contents : CStr → Listing) (action : Action) : Command Int32 :=
  match action.type with
  | 'w' => runActionWriteFilesInDir contents action
  | 'W' => overPaths action (runActionWriteListOfFiles action.argS2)
  | 'r' => overPaths action (runActionReadListOfFiles action.argS2)
  | 'R' => runActionReadRandomFiles action
  | 'l' => overPaths action (runSomeActionOverListOfFiles .lockFile)
  | 'u' => overPaths action (runSomeActionOverListOfFiles .unlockFile)
  | 'c' => overPaths action (runSomeActionOverListOfFiles .removeFile)
  | 't' => do
      waitMsec action.argI
      return 0
  | _ => .stop .assertion

inductive ExitStatus where
  | success
  | failure
deriving DecidableEq

/-- The loop of `main` from an action on. -/
def mainLoop (contents : CStr → Listing) (msec : Int32) (actions : Heap Action) :
    Nat → Ptr → Command Unit
  | 0, _ => .stop .diverge
  | _ + 1, none => return ()
  | fuel + 1, some a => do
      let action ← Dialogue.ofExec (actions.load a)
      let err ← runAction contents action
      if err ≠ 0 then
        return ()
      waitMsec msec
      mainLoop contents msec actions fuel action.next

/-- Without `-t` the pause between the actions is whatever `indeterminate` stood in the memory. -/
def main (contents : CStr → Listing) (indeterminate : UInt32) (options : List Opt) :
    Command ExitStatus := do
  let s ← Dialogue.ofExec (cliArgsParse options)
  if s.cliArgs.err ≠ .ok then
    return .failure
  if s.cliArgs.helpMessage then
    return .success
  match s.cliArgs.socketName with
  | none => return .failure
  | some socketName => do
      let now ← clockGettime
      let connectionDue : Int :=
        if s.cliArgs.secMaxAttemptTime ≠ 0 then
          now + s.cliArgs.secMaxAttemptTime.toNat
        else
          now + 10000
      let err ← openConnection socketName
        s.cliArgs.msecBetweenConnectionAttempts.toInt32 connectionDue
      if err ≠ 0 then
        return .failure
      mainLoop contents (s.cliArgs.msecBetweenActions.getD indeterminate).toInt32 s.actions
        (s.actions.fresh + 1) s.cliArgs.head
      let err ← closeConnection socketName
      if err ≠ 0 then
        return .failure
      return .success

/-! ## 2. Calls -/

section

variable {call : ApiCall} {dirname : Option CStr} {h : List Exchange} {α : Type}
  {f : Int32 × List UInt8 → Command α} {a : α}

/-- A call is one question, or none when it fails before it writes. -/
theorem returns_makeCall : (makeCall call dirname >>= f).Returns h a ↔
    (call.emitted = none ∧ (f (-1, [])).Returns h a) ∨
      ∃ r h', call.emitted.isSome ∧ h = ⟨.call call dirname, r⟩ :: h' ∧ (f r).Returns h' a := by
  cases hraw : call.emitted with
  | none =>
    simp only [makeCall, hraw, Option.isSome_none, Bool.false_eq_true, false_and, exists_false,
      or_false, true_and]
    rfl
  | some raw =>
    simp only [makeCall, hraw, Option.isSome_some, true_and, reduceCtorEq, false_and, false_or]
    exact Dialogue.returns_query

end

/-- The loops of `-l`, `-u` and `-c` never fail. -/
theorem runSomeAction_zero {apiF : CStr → ApiCall} {paths : List CStr} {h : List Exchange}
    {code : Int32} (hreturns : (runSomeActionOverListOfFiles apiF paths).Returns h code) :
    code = 0 := by
  induction paths generalizing h with
  | nil => exact (Dialogue.returns_done.mp hreturns).2.symm
  | cons path paths ih =>
    rcases returns_makeCall.mp hreturns with ⟨-, hrest⟩ | ⟨r, h', -, -, hrest⟩
    · exact ih hrest
    · exact ih hrest

/-- An action that fails is one of four. -/
theorem runAction_failed {contents : CStr → Listing} {action : Action} {h : List Exchange}
    {code : Int32} (hreturns : (runAction contents action).Returns h code) (hcode : code ≠ 0) :
    action.type ∈ ['w', 'W', 'r', 'R'] := by
  have hover : ∀ apiF, ¬(overPaths action (runSomeActionOverListOfFiles apiF)).Returns h code := by
    intro apiF hx
    unfold overPaths at hx
    split at hx
    · cases hx
    · exact hcode (runSomeAction_zero hx)
  unfold runAction at hreturns
  split at hreturns
  · simp [*]
  · simp [*]
  · simp [*]
  · simp [*]
  · exact absurd hreturns (hover _)
  · exact absurd hreturns (hover _)
  · exact absurd hreturns (hover _)
  · unfold waitMsec at hreturns
    obtain ⟨h₁, b, h₂, -, hdone, -⟩ := Dialogue.returns_bind.mp hreturns
    exact absurd (Dialogue.returns_done.mp hdone).2.symm hcode
  · cases hreturns

/-! ## 3. The walk of `-w`

With answers that do not change, it is the walk over the calls that always succeed or always fail. -/

/-- What was asked is a call of the walk. -/
def issued : Exchange → Option Issued
  | ⟨.opendir path, _⟩ => some (.opendir path)
  | ⟨.fileContents filepath, _⟩ => some (.writeFile filepath)
  | _ => none

def AgreesWith (calls : Calls) : Exchange → Prop
  | ⟨.opendir path, r⟩ => r = calls.opendir path
  | ⟨.fileContents filepath, r⟩ => r = none → calls.writeFile filepath = -1
  | ⟨.call (.writeFile filepath _) _, r⟩ => r.1 = calls.writeFile filepath
  | _ => True

section

variable {calls : Calls} {h : List Exchange}

theorem writeFile_agrees {filepath : CStr} {code : Int32}
    (hreturns : (writeFile filepath none).Returns h code) (hagrees : ∀ e ∈ h, AgreesWith calls e) :
    code = calls.writeFile filepath ∧ h.filterMap issued = [.writeFile filepath] := by
  obtain ⟨contents, h', rfl, hrest⟩ := Dialogue.returns_query.mp hreturns
  cases contents with
  | none =>
    obtain ⟨rfl, rfl⟩ := Dialogue.returns_done.mp hrest
    exact ⟨(hagrees _ List.mem_cons_self rfl).symm, rfl⟩
  | some contents =>
    rcases returns_makeCall.mp hrest with ⟨hnone, -⟩ | ⟨r, h'', -, rfl, hdone⟩
    · cases hnone
    · obtain ⟨rfl, rfl⟩ := Dialogue.returns_done.mp hdone
      exact ⟨hagrees _ (List.mem_cons_of_mem _ List.mem_cons_self), rfl⟩

theorem withDir_agrees {absdir : CStr} {limit : Option Int32} {r : Int32 × Option Int32}
    {loop : Option Int32 → Command (Int32 × Option Int32)}
    {loop' : Option Int32 → Int32 × Option Int32 × List Issued}
    (hreturns : (withDir absdir limit loop).Returns h r) (hagrees : ∀ e ∈ h, AgreesWith calls e)
    (hloop : ∀ h', (loop limit).Returns h' r → (∀ e ∈ h', AgreesWith calls e) →
      loop' limit = (r.1, r.2, h'.filterMap issued)) :
    WriteDir.withDir calls absdir limit loop' = (r.1, r.2, h.filterMap issued) := by
  obtain ⟨opened, h', rfl, hrest⟩ := Dialogue.returns_query.mp hreturns
  have hopened : opened = calls.opendir absdir := hagrees _ List.mem_cons_self
  subst hopened
  rw [WriteDir.withDir]
  split at hrest
  · rename_i hopen
    rw [if_pos hopen, hloop h' hrest fun e he => hagrees e (List.mem_cons_of_mem _ he)]
    rfl
  · rename_i hopen
    obtain ⟨rfl, rfl⟩ := Dialogue.returns_done.mp hrest
    rw [if_neg hopen]
    rfl

theorem writeEntries_agrees {listing : Listing} {absdir : CStr} {limit : Option Int32}
    {r : Int32 × Option Int32} (hreturns : (writeEntries absdir listing limit).Returns h r)
    (hagrees : ∀ e ∈ h, AgreesWith calls e) :
    WriteDir.writeEntries calls absdir listing limit = (r.1, r.2, h.filterMap issued) := by
  induction listing generalizing absdir limit r h with
  | nil =>
    obtain ⟨rfl, rfl⟩ := Dialogue.returns_done.mp hreturns
    rfl
  | entry dName dType sub rest ihsub ihrest =>
    unfold writeEntries at hreturns
    unfold WriteDir.writeEntries
    split at hreturns
    · rename_i hlimit
      obtain ⟨rfl, rfl⟩ := Dialogue.returns_done.mp hreturns
      rw [if_pos hlimit]
      rfl
    · rename_i hlimit
      rw [if_neg hlimit]
      split at hreturns
      · rename_i hdot
        rw [if_pos hdot]
        exact ihrest hreturns hagrees
      · rename_i hdot
        rw [if_neg hdot]
        cases dType with
        | dir =>
          obtain ⟨h₁, inner, h₂, hinner, hlater, rfl⟩ := Dialogue.returns_bind.mp hreturns
          have hdir := withDir_agrees hinner
            (fun e he => hagrees e (List.mem_append_left _ he)) fun h' => ihsub
          have hrest := ihrest hlater fun e he => hagrees e (List.mem_append_right _ he)
          simp only [hdir, hrest, List.filterMap_append]
        | reg =>
          obtain ⟨h₁, err, h₂, hwrite, hlater, rfl⟩ := Dialogue.returns_bind.mp hreturns
          obtain ⟨rfl, hissued⟩ := writeFile_agrees hwrite fun e he =>
            hagrees e (List.mem_append_left _ he)
          rw [List.filterMap_append, hissued]
          split at hlater
          · rename_i herr
            obtain ⟨rfl, rfl⟩ := Dialogue.returns_done.mp hlater
            simp only [if_pos herr]
            rfl
          · rename_i herr
            have hrest := ihrest hlater fun e he => hagrees e (List.mem_append_right _ he)
            simp only [if_neg herr, hrest]
            rfl
        | other =>
          obtain ⟨rfl, rfl⟩ := Dialogue.returns_done.mp hreturns
          rfl

theorem writeDir_agrees {listing : Listing} {absdir : CStr} {limit : Option Int32}
    {r : Int32 × Option Int32} (hreturns : (writeDir absdir listing limit).Returns h r)
    (hagrees : ∀ e ∈ h, AgreesWith calls e) :
    WriteDir.writeDir calls absdir listing limit = (r.1, r.2, h.filterMap issued) :=
  withDir_agrees hreturns hagrees fun _ => writeEntries_agrees

end

/-! ## 4. The list of actions -/

/-- What `main` does with its actions, on a list. -/
def perform (contents : CStr → Listing) (msec : Int32) : List Action → Command Unit
  | [] => return ()
  | action :: actions => do
      let err ← runAction contents action
      if err ≠ 0 then
        return ()
      waitMsec msec
      perform contents msec actions

/-- The place of an action in the list makes no difference to it. -/
theorem runAction_detached (contents : CStr → Listing) (action : Action) :
    runAction contents action.detached = runAction contents action := rfl

variable {contents : CStr → Listing} {msec : Int32}

/-- The loop of `main` goes over the list that its pointers make. -/
theorem mainLoop_eq {actions : Heap Action} {p : Ptr} {as : List Addr} {L : List Action}
    {fuel : Nat} (hpath : Path (actions.field Action.next) p as none)
    (hmap : as.map (actions.field Action.detached) = L.map some) (hfuel : as.length < fuel) :
    mainLoop contents msec actions fuel p = perform contents msec L := by
  induction as generalizing p L fuel with
  | nil =>
    obtain rfl : p = none := hpath
    obtain rfl : L = [] := List.map_eq_nil_iff.mp hmap.symm
    cases fuel with
    | zero => exact absurd hfuel (Nat.not_lt_zero _)
    | succ fuel => rfl
  | cons a as ih =>
    obtain ⟨rfl, next, hnext, hpath⟩ := hpath
    obtain ⟨action, L, rfl, haction, hmap⟩ := List.map_eq_cons_iff.mp hmap.symm
    obtain ⟨x, hread, hdetached⟩ := Heap.field_eq_some haction.symm
    obtain ⟨y, hread', rfl⟩ := Heap.field_eq_some hnext
    obtain rfl : x = y := Option.some.inj (hread.symm.trans hread')
    cases fuel with
    | zero => exact absurd hfuel (Nat.not_lt_zero _)
    | succ fuel =>
      have hrest : mainLoop contents msec actions fuel x.next = perform contents msec L :=
        ih hpath hmap.symm (Nat.lt_of_succ_lt_succ hfuel)
      rw [mainLoop, Heap.load_of_read hread, perform, ← hdetached, runAction_detached, ← hrest]
      rfl

/-- The actions up to the first that fails, with what was asked for each. -/
inductive Performs (contents : CStr → Listing) : List Action → List Exchange → Prop
  | nil : Performs contents [] []
  | goOn {action : Action} {actions : List Action} {h h' : List Exchange}
      (hfirst : (runAction contents action).Returns h 0) (hrest : Performs contents actions h') :
      Performs contents (action :: actions) (h ++ h')
  | failed {action : Action} {actions : List Action} {h : List Exchange} {code : Int32}
      (hfirst : (runAction contents action).Returns h code) (hcode : code ≠ 0)
      (htype : action.type ∈ ['w', 'W', 'r', 'R']) : Performs contents (action :: actions) h

theorem performs_of_returns {actions : List Action} {h : List Exchange}
    (hreturns : (perform contents msec actions).Returns h ()) : Performs contents actions h := by
  induction actions generalizing h with
  | nil =>
    obtain ⟨rfl, -⟩ := Dialogue.returns_done.mp hreturns
    exact .nil
  | cons action actions ih =>
    obtain ⟨h₁, err, h₂, hfirst, hrest, rfl⟩ := Dialogue.returns_bind.mp hreturns
    by_cases herr : err = 0
    · subst herr
      rw [if_neg (by decide)] at hrest
      obtain ⟨h₃, u, h₄, hwait, hlater, rfl⟩ := Dialogue.returns_bind.mp hrest
      have hnone : h₃ = [] := by
        unfold waitMsec at hwait
        cases hx : FileStorage.waitMsec msec with
        | ok u =>
          rw [hx] at hwait
          exact (Dialogue.returns_done.mp hwait).1
        | error e =>
          rw [hx] at hwait
          cases hwait
      rw [hnone, List.nil_append]
      exact .goOn hfirst (ih hlater)
    · rw [if_pos herr] at hrest
      obtain ⟨rfl, -⟩ := Dialogue.returns_done.mp hrest
      rw [List.append_nil]
      exact .failed hfirst herr (runAction_failed hfirst herr)

/-! ## 5. The client -/

/-- For every command line that is accepted, the client connects, performs the actions of the
options in their order up to the first that fails, and closes the connection.  The exit status says
whether it connected and closed, and nothing about the actions. -/
theorem main_performs {indeterminate : UInt32} {options : List Opt} {s : State} {sockname : CStr}
    {h : List Exchange} {status : ExitStatus} (hdeliver : ∀ opt ∈ options, Deliverable opt)
    (hparse : cliArgsParse options = .ok s) (herr : s.cliArgs.err = .ok)
    (hhelp : s.cliArgs.helpMessage = false) (hname : s.cliArgs.socketName = some sockname)
    (hreturns : (main contents indeterminate options).Returns h status) :
    ∃ now attempts due err h',
      h = ⟨.clockGettime, now⟩ :: ⟨.openConnection sockname attempts due, err⟩ :: h' ∧
        ((err ≠ (0 : Int32) ∧ h' = [] ∧ status = .failure) ∨
          err = (0 : Int32) ∧ ∃ h'' closed, h' = h'' ++ [⟨.closeConnection sockname, closed⟩] ∧
            Performs contents (recipe options) h'' ∧
              (status = .success ↔ closed = (0 : Int32))) := by
  have hstart : Between cliArgsDefault (Char.ofNat 0) [] none :=
    ⟨lists_default, nofun, fun d hd => by simp [takesDir] at hd⟩
  obtain ⟨s', hx, hlists⟩ := hstart.run hdeliver
  obtain rfl : s' = s := Except.ok.inj (hx.symm.trans hparse)
  obtain ⟨as, hlist, hmap⟩ := hlists herr
  have hfuel : as.length < s'.actions.fresh + 1 := by
    refine Nat.lt_succ_of_le (Heap.length_le_fresh _ _ hlist.nodup fun a ha => ?_)
    have hsome : s'.actions.field Action.detached a ∈ (recipe options).map some := by
      have hmem := List.mem_map_of_mem (f := s'.actions.field Action.detached) ha
      rwa [hmap] at hmem
    obtain ⟨action, -, haction⟩ := List.mem_map.mp hsome
    obtain ⟨x, hread, -⟩ := Heap.field_eq_some haction.symm
    rw [hread]
    rfl
  have hloop : mainLoop contents (s'.cliArgs.msecBetweenActions.getD indeterminate).toInt32
      s'.actions (s'.actions.fresh + 1) s'.cliArgs.head = perform contents _ (recipe options) :=
    mainLoop_eq hlist.fwd hmap hfuel
  rw [main, hparse, Dialogue.ofExec_ok_bind, if_neg (not_not.mpr herr), hhelp,
    if_neg Bool.false_ne_true] at hreturns
  simp only [hname, hloop] at hreturns
  obtain ⟨now, h₁, rfl, hnow⟩ := Dialogue.returns_query.mp hreturns
  obtain ⟨opened, h₂, rfl, hopen⟩ := Dialogue.returns_query.mp hnow
  refine ⟨now, _, _, opened, h₂, rfl, ?_⟩
  by_cases hopened : opened = (0 : Int32)
  · rw [if_neg (not_not.mpr hopened)] at hopen
    obtain ⟨h₃, u, h₄, hperform, hclose, rfl⟩ := Dialogue.returns_bind.mp hopen
    obtain ⟨closed, h₅, rfl, hlast⟩ := Dialogue.returns_query.mp hclose
    refine Or.inr ⟨hopened, h₃, closed, ?_, performs_of_returns hperform, ?_⟩
    · split at hlast
      · rw [(Dialogue.returns_done.mp hlast).1]
      · rw [(Dialogue.returns_done.mp hlast).1]
    · split at hlast
      · rename_i hclosed
        rw [← (Dialogue.returns_done.mp hlast).2]
        exact iff_of_false (by decide) hclosed
      · rename_i hclosed
        rw [← (Dialogue.returns_done.mp hlast).2]
        exact iff_of_true rfl (not_not.mp hclosed)
  · rw [if_pos hopened] at hopen
    obtain ⟨rfl, rfl⟩ := Dialogue.returns_done.mp hopen
    exact Or.inl ⟨hopened, rfl, rfl⟩

/-- `-f s -l a`. -/
def sampleLocking : List Opt :=
  [('f', some (bufToStr [115])), ('l', some (bufToStr [97]))]

/-- The lock is refused, and the client ends well. -/
theorem main_performs_locking :
    ∃ h, Performs (fun _ => .nil) (recipe sampleLocking) h ∧
      h = [⟨.call (.lockFile (bufToStr [97])) none, ((-1 : Int32), [])⟩] := by
  obtain ⟨s, hparse, htest⟩ : ∃ s, cliArgsParse sampleLocking = .ok s ∧
      s.cliArgs.err = .ok ∧ s.cliArgs.helpMessage = false ∧
        s.cliArgs.socketName = some (bufToStr [115]) := ⟨_, rfl, rfl, rfl, rfl⟩
  have hreturns : (main (fun _ => .nil) 0 sampleLocking).Returns
      [⟨.clockGettime, (0 : Int)⟩, ⟨.openConnection (bufToStr [115]) 300 5, (0 : Int32)⟩,
        ⟨.call (.lockFile (bufToStr [97])) none, ((-1 : Int32), [])⟩,
        ⟨.closeConnection (bufToStr [115]), (0 : Int32)⟩] .success := by
    refine .ask ?_
    refine .ask ?_
    refine .ask ?_
    refine .ask ?_
    exact .done
  obtain ⟨now, attempts, due, err, h', hh, hcases⟩ := main_performs (by decide) hparse htest.1
    htest.2.1 htest.2.2 hreturns
  obtain ⟨-, hh⟩ := List.cons.inj hh
  obtain ⟨-, rfl⟩ := List.cons.inj hh
  rcases hcases with ⟨-, hnone, -⟩ | ⟨-, h'', closed, heq, hperforms, -⟩
  · cases hnone
  · obtain ⟨rfl, -⟩ := List.append_inj' (show [_] ++ [_] = _ from heq) rfl
    exact ⟨_, hperforms, rfl⟩

end FileStorage.Client.RunAction
