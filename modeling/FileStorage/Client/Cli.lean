import FileStorage.Memory.SinglyLinked
import FileStorage.Strings

/-!
# Cli — the command line as a list of actions

Every action option appends an action; `-D` and `-d` write to the action that is last.
-/

namespace FileStorage.Client.Cli

open Memory

/-! ## 1. The data -/

inductive ClientErr where
  | ok
  | alloc
  | badOptionCapD
  | badOptionCapR
  | badOptionD
  | badOptionP
  | unknownOption
  | repeatedP
  | repeatedH
  | repeatedF
  | missingArg
deriving DecidableEq, Repr

/-- The log levels by name: their numbers are those of the logging library.  1000 is above all. -/
inductive LogLevel where
  | info
  | error
  | warn
  | debug
  | trace
  | above1000
deriving DecidableEq, Repr

structure Action where
  type : Char
  argS1 : Option CStr
  argS2 : Option CStr
  argI : Int32
  next : Ptr
deriving DecidableEq

/-- The action without its place in the list. -/
def Action.detached (action : Action) : Action := { action with next := none }

structure CliArgs where
  err : ClientErr
  msecBetweenConnectionAttempts : UInt32
  /-- Not set by `cli_args_default`. -/
  msecBetweenActions : Option UInt32
  secMaxAttemptTime : UInt32
  socketName : Option CStr
  helpMessage : Bool
  logLevel : LogLevel
  head : Ptr
  last : Ptr
deriving DecidableEq

/-- The arguments and the actions they point to. -/
structure State where
  cliArgs : CliArgs
  actions : Heap Action
deriving DecidableEq

def State.fail (s : State) (err : ClientErr) : State :=
  { s with cliArgs := { s.cliArgs with err := err } }

/-! ## 2. The code -/

/-- `xmalloc` gives a block; without memory it ends the client. -/
def cliArgsAddAction (s : State) (action : Action) : Exec State :=
  let next := s.actions.fresh
  let actions := s.actions.alloc { action with next := none }
  match s.cliArgs.last with
  | some last => do
      let actions ← actions.store last fun action => { action with next := some next }
      return { cliArgs := { s.cliArgs with last := some next }, actions }
  | none =>
      .ok { cliArgs := { s.cliArgs with head := some next, last := some next }, actions }

def cliArgsSetSocketName (s : State) (arg : Option CStr) : State :=
  if s.cliArgs.socketName.isSome then
    s.fail .repeatedF
  else
    { s with cliArgs := { s.cliArgs with socketName := arg } }

/-- The action that `cli_args_add_action_write_dir` builds. -/
def writeDirAction (arg : CStr) : Action :=
  let action : Action :=
    { type := 'w', argS1 := some arg, argS2 := none, argI := 0, next := none }
  match strrchr arg.bytes 44, strrchr arg.bytes 61 with
  | some comma, some equalSign =>
      -- `strncmp(comma + 1, "n", 1)` is zero when an `n` stands there
      if equalSign = comma + 2 ∧ arg.bytes[comma + 1]? ≠ some 110 then
        { action with
          argS1 := some (bufToStr (arg.bytes.take comma))
          argI := atoi (arg.bytes.drop (equalSign + 1)) }
      else
        action
  | _, _ => action

def cliArgsAddActionWriteDir (s : State) : Option CStr → Exec State
  | none => .error .fault
  | some arg => cliArgsAddAction s (writeDirAction arg)

/-- What `cli_args_set_evicted_dir` and `cli_args_set_read_dir` both do. -/
def setDir (s : State) : Option CStr → Exec State
  | none => .ok (s.fail .missingArg)
  | some arg =>
      match s.cliArgs.last with
      | none => .error .fault
      | some last => do
          let actions ← s.actions.store last fun action => { action with argS2 := some arg }
          return { s with actions }

/-- What the options with a list of files do. -/
def addFilesAction (type : Char) (s : State) : Option CStr → Exec State
  | none => .ok (s.fail .missingArg)
  | some arg => cliArgsAddAction s
      { type, argS1 := some arg, argS2 := none, argI := 0, next := none }

def cliArgsSetEvictedDir := setDir

def cliArgsAddActionWriteFiles := addFilesAction 'W'

def cliArgsAddActionRead := addFilesAction 'r'

def cliArgsAddActionReadRandom (s : State) (arg : Option CStr) : Exec State :=
  let action : Action := { type := 'R', argS1 := none, argS2 := none, argI := 0, next := none }
  match arg with
  | none => cliArgsAddAction s action
  | some arg =>
      -- "n="
      if arg.bytes.take 2 = [110, 61] then
        cliArgsAddAction s { action with argI := atoi (arg.bytes.drop 2) }
      else
        cliArgsAddAction (s.fail .badOptionCapR) action

def cliArgsSetReadDir := setDir

def cliArgsSetWait (s : State) : Option CStr → Exec State
  | none => .error .fault
  | some arg => .ok { s with
      cliArgs := { s.cliArgs with msecBetweenActions := some (atoi arg.bytes).toUInt32 } }

def cliArgsAddActionLock := addFilesAction 'l'

def cliArgsAddActionUnlock := addFilesAction 'u'

def cliArgsAddActionRemove := addFilesAction 'c'

def cliArgsEnableLog (s : State) (arg : Option CStr) : State :=
  let level (level : LogLevel) : State :=
    { s with cliArgs := { s.cliArgs with logLevel := level } }
  if arg = none ∨ arg = some (.literal "info") then
    level .info
  else if arg = some (.literal "error") then
    level .error
  else if arg = some (.literal "warn") then
    level .warn
  else if arg = some (.literal "debug") then
    level .debug
  else if arg = some (.literal "trace") then
    level .trace
  else
    s.fail .badOptionP

def cliArgsEnableHelpMessage (s : State) : State :=
  if s.cliArgs.helpMessage then
    s.fail .repeatedH
  else
    { s with cliArgs := { s.cliArgs with helpMessage := true } }

def cliArgsSetMsecBetweenConnectionAttempts (s : State) : Option CStr → Exec State
  | none => .error .fault
  | some arg => .ok { s with
      cliArgs := { s.cliArgs with msecBetweenConnectionAttempts := (atoi arg.bytes).toUInt32 } }

def cliArgsSetMaxAttemptTime (s : State) : Option CStr → Exec State
  | none => .error .fault
  | some arg => .ok { s with
      cliArgs := { s.cliArgs with secMaxAttemptTime := (atoi arg.bytes).toUInt32 } }

def cliArgsDefault : State where
  cliArgs :=
    { err := .ok, socketName := none, logLevel := .above1000, helpMessage := false
      msecBetweenConnectionAttempts := 300, secMaxAttemptTime := 5, msecBetweenActions := none
      head := none, last := none }
  actions := .empty

/-- An option as `getopt` returns it, with `optarg`. -/
abbrev Opt := Char × Option CStr

/-- The `switch` of `cli_args_parse`. -/
def parseOption (s : State) (lastOption : Char) : Opt → Exec State
  | ('Z', optarg) => cliArgsSetMsecBetweenConnectionAttempts s optarg
  | ('z', optarg) => cliArgsSetMaxAttemptTime s optarg
  | ('h', _) => .ok (cliArgsEnableHelpMessage s)
  | ('f', optarg) => .ok (cliArgsSetSocketName s optarg)
  | ('w', optarg) => cliArgsAddActionWriteDir s optarg
  | ('W', optarg) => cliArgsAddActionWriteFiles s optarg
  | ('D', optarg) =>
      if lastOption = 'w' ∨ lastOption = 'W' then
        cliArgsSetEvictedDir s optarg
      else
        .ok (s.fail .badOptionCapD)
  | ('r', optarg) => cliArgsAddActionRead s optarg
  | ('R', optarg) => cliArgsAddActionReadRandom s optarg
  | ('d', optarg) =>
      if lastOption = 'r' ∨ lastOption = 'R' then
        cliArgsSetReadDir s optarg
      else
        .ok (s.fail .badOptionD)
  | ('t', optarg) => cliArgsSetWait s optarg
  | ('l', optarg) => cliArgsAddActionLock s optarg
  | ('u', optarg) => cliArgsAddActionUnlock s optarg
  | ('c', optarg) => cliArgsAddActionRemove s optarg
  | ('p', optarg) => .ok (cliArgsEnableLog s optarg)
  | (_, _) => .ok (s.fail .unknownOption)

/-- The loop of `cli_args_parse`, over the options that `getopt` has left. -/
def parseOptions (s : State) (lastOption : Char) : List Opt → Exec State
  | [] => .ok s
  | opt :: options => do
      let s ← parseOption s lastOption opt
      -- the first error ends the loop
      if s.cliArgs.err ≠ .ok then
        return s
      parseOptions s opt.1 options

def cliArgsParse (options : List Opt) : Exec State :=
  parseOptions cliArgsDefault (Char.ofNat 0) options

/-! ## 3. What `getopt` delivers -/

def OPTSTRING : List Char :=
  ['h', 'f', ':', 'w', ':', 'n', ':', 'W', ':', 'D', ':', 'r', ':', 'R', 'd', ':', 't', ':',
    'l', ':', 'u', ':', 'c', ':', 'p', ':', 'Z', ':', 'z', ':']

/-- The options of an option string, each with whether a colon follows it. -/
def declared : List Char → List (Char × Bool)
  | c :: ':' :: cs => (c, true) :: declared cs
  | c :: cs => (c, false) :: declared cs
  | [] => []

/-- An option with an argument exactly if it is declared with a colon, or `?`. -/
def Deliverable (opt : Opt) : Prop :=
  (opt.1, opt.2.isSome) ∈ declared OPTSTRING ∨ opt = ('?', none)

instance (opt : Opt) : Decidable (Deliverable opt) := inferInstanceAs (Decidable (_ ∨ _))

/-! ## 4. What the command line asks for -/

def isAction (c : Char) : Bool := c ∈ ['w', 'W', 'r', 'R', 'l', 'u', 'c']

/-- `-D` gives a directory to `-w` and `-W`, `-d` gives one to `-r` and `-R`. -/
def takesDir (c d : Char) : Bool :=
  (d = 'D' ∧ (c = 'w' ∨ c = 'W')) ∨ (d = 'd' ∧ (c = 'r' ∨ c = 'R'))

/-- The action of an option alone. -/
def actionOf : Opt → Option Action
  | ('w', some arg) => some (writeDirAction arg)
  | ('R', none) =>
      some { type := 'R', argS1 := none, argS2 := none, argI := 0, next := none }
  | (c, some arg) =>
      if c ∈ ['W', 'r', 'l', 'u', 'c'] then
        some { type := c, argS1 := some arg, argS2 := none, argI := 0, next := none }
      else
        none
  | (_, none) => none

/-- The directory that the options behind the action option `c` give it. -/
def dirOf (c : Char) : List Opt → Option CStr
  | [] => none
  | (d, arg) :: _ => if takesDir c d then arg else none

/-- One action for each action option, with the directory of the option right behind it. -/
def recipe : List Opt → List Action
  | [] => []
  | opt :: options =>
      match actionOf opt with
      | some action => { action with argS2 := dirOf opt.1 options } :: recipe options
      | none => recipe options

/-- The list from `head` to `last` holds these actions. -/
def State.Lists (s : State) (L : List Action) : Prop :=
  ∃ as, SList (s.actions.field Action.next) s.cliArgs.head s.cliArgs.last as ∧
    as.map (s.actions.field Action.detached) = L.map some

/-! ## 5. The list -/

variable {s : State} {L : List Action} {action : Action}

theorem lists_default : cliArgsDefault.Lists [] := ⟨[], .empty, rfl⟩

/-- The blocks of the list are there, and stay what they are when another one is allocated. -/
theorem read_of_mem {as : List Addr}
    (hmap : as.map (s.actions.field Action.detached) = L.map some) {a : Addr} (ha : a ∈ as) :
    a ≠ s.actions.fresh ∧ ∃ x, ∀ action, (s.actions.alloc action).read a = some x := by
  have hmem : s.actions.field Action.detached a ∈ L.map some :=
    hmap ▸ List.mem_map_of_mem ha
  obtain ⟨l, -, hl⟩ := List.mem_map.mp hmem
  obtain ⟨x, hx, -⟩ := Heap.field_eq_some hl.symm
  have hne : a ≠ s.actions.fresh := Nat.ne_of_lt (Heap.lt_fresh_of_read hx)
  exact ⟨hne, x, fun action => by rw [Heap.read_alloc, if_neg hne, hx]⟩

theorem cliArgsAddAction_eq {as : List Addr}
    (hlist : SList (s.actions.field Action.next) s.cliArgs.head s.cliArgs.last as)
    (hmap : as.map (s.actions.field Action.detached) = L.map some) (action : Action) :
    cliArgsAddAction s action = .ok
      { cliArgs := { s.cliArgs with
          head := s.cliArgs.head.or (some s.actions.fresh), last := some s.actions.fresh }
        actions := (s.actions.alloc action.detached).modifyAt s.cliArgs.last
          fun action => { action with next := some s.actions.fresh } } := by
  unfold cliArgsAddAction
  cases hend : s.cliArgs.last with
  | none =>
    rw [hlist.head_of_last_none hend]
    rfl
  | some b =>
    obtain ⟨-, x, hb⟩ := read_of_mem hmap (hlist.mem_of_last hend)
    rw [hlist.head_or_of_last hend]
    show ((s.actions.alloc action.detached).store b _ >>= _) = _
    rw [Heap.store_of_read (hb _)]
    rfl

/-- The new action goes behind the last one. -/
theorem cliArgsAddAction_lists (h : s.Lists L) (action : Action) :
    ∃ s', cliArgsAddAction s action = .ok s' ∧ s'.Lists (L ++ [action.detached]) ∧
      s'.cliArgs.err = s.cliArgs.err := by
  obtain ⟨as, hlist, hmap⟩ := h
  have hfresh : s.actions.fresh ∉ as := fun hmem => (read_of_mem hmap hmem).1 rfl
  refine ⟨_, cliArgsAddAction_eq hlist hmap action,
    ⟨as ++ [s.actions.fresh], hlist.pushBack hfresh ?_ ?_ ?_, ?_⟩, rfl⟩
  · -- the new block has no successor
    have hne : s.cliArgs.last ≠ some s.actions.fresh :=
      fun hend => hfresh (hlist.mem_of_last hend)
    rw [Heap.field_congr (Heap.read_modifyAt_of_ne _ _ hne), Heap.field_alloc, if_pos rfl]
    rfl
  · intro b hb
    obtain ⟨-, x, hread⟩ := read_of_mem hmap (hlist.mem_of_last hb)
    rw [hb]
    exact Heap.field_modifyAt_self (hread _) _ _
  · intro c hc hne
    rw [Heap.field_congr (Heap.read_modifyAt_of_ne _ _ hne), Heap.field_alloc, if_neg hc]
  · -- the write to `next` changes no action apart from its place
    have hframe : ((s.actions.alloc action.detached).modifyAt s.cliArgs.last
        fun action => { action with next := some s.actions.fresh }).field Action.detached =
          (s.actions.alloc action.detached).field Action.detached :=
      Heap.field_modifyAt_frame _ _ _ _ fun _ => rfl
    rw [hframe, List.map_append, List.map_append, ← hmap, List.map_singleton, List.map_singleton,
      Heap.field_alloc, if_pos rfl]
    refine congrArg (· ++ _) (List.map_congr_left fun a ha => ?_)
    rw [Heap.field_alloc, if_neg (read_of_mem hmap ha).1]

/-- The directory goes to the last action. -/
theorem setDir_lists (h : s.Lists (L ++ [action])) (arg : CStr) :
    ∃ s', setDir s (some arg) = .ok s' ∧ s'.Lists (L ++ [{ action with argS2 := some arg }]) ∧
      s'.cliArgs.err = s.cliArgs.err := by
  obtain ⟨as, hlist, hmap⟩ := h
  rw [List.map_append, List.map_singleton] at hmap
  obtain ⟨bs, ends, rfl, hbs, hends⟩ := List.map_eq_append_iff.mp hmap
  obtain ⟨b, rfl, hb⟩ := List.map_eq_singleton_iff.mp hends
  obtain ⟨x, hread, rfl⟩ := Heap.field_eq_some hb
  have hlast : s.cliArgs.last = some b := by rw [hlist.last_eq, List.getLast?_concat]
  have hdisj := (List.nodup_append.mp hlist.nodup).2.2
  refine ⟨{ s with actions := s.actions.modify b fun action =>
      { action with argS2 := some arg } }, ?_, ⟨bs ++ [b], ⟨?_, hlist.last_eq⟩, ?_⟩, rfl⟩
  · simp only [setDir, hlast]
    rw [Heap.store_of_read hread]
    rfl
  · refine hlist.fwd.congr fun a _ => ?_
    rw [Heap.field_modify_frame]
    exact fun _ => rfl
  · rw [List.map_append, List.map_append, ← hbs, List.map_singleton, List.map_singleton,
      Heap.field_modify, if_pos rfl, Heap.field_eq_of_read hread]
    refine congrArg (· ++ _) (List.map_congr_left fun a ha => ?_)
    rw [Heap.field_modify_of_ne]
    exact fun he => hdisj a ha b List.mem_cons_self he.symm

/-! ## 6. One option -/

variable {opt : Opt} {options : List Opt} {c d : Char}

theorem deliverable_none : Deliverable (c, none) ↔ c ∈ ['h', 'R', '?'] := by
  simp [Deliverable, OPTSTRING, declared, or_assoc]

theorem deliverable_some {arg : CStr} : Deliverable (c, some arg) ↔
    c ∈ ['f', 'w', 'n', 'W', 'D', 'r', 'd', 't', 'l', 'u', 'c', 'p', 'Z', 'z'] := by
  simp [Deliverable, OPTSTRING, declared]

theorem actionOf_spec (h : actionOf opt = some action) :
    action.type = opt.1 ∧ action.argS2 = none ∧ action.next = none ∧ isAction opt.1 = true := by
  unfold actionOf at h
  split at h
  · cases h
    unfold writeDirAction
    split
    · split <;> exact ⟨rfl, rfl, rfl, rfl⟩
    · exact ⟨rfl, rfl, rfl, rfl⟩
  · cases h
    exact ⟨rfl, rfl, rfl, rfl⟩
  · split at h
    · rename_i hmem
      cases h
      exact ⟨rfl, rfl, rfl, by
        revert hmem
        simp [isAction]
        tauto⟩
    · cases h
  · cases h

theorem actionOf_isSome (hdeliver : Deliverable opt) (haction : isAction opt.1 = true) :
    ∃ action, actionOf opt = some action := by
  obtain ⟨c, arg⟩ := opt
  simp only [isAction, List.mem_cons, List.not_mem_nil, or_false, decide_eq_true_eq] at haction
  cases arg with
  | none =>
    simp only [deliverable_none, List.mem_cons, List.not_mem_nil, or_false] at hdeliver
    rcases hdeliver with rfl | rfl | rfl
    · simp at haction
    · exact ⟨_, rfl⟩
    · simp at haction
  | some arg =>
    simp only [deliverable_some, List.mem_cons, List.not_mem_nil, or_false] at hdeliver
    rcases haction with rfl | rfl | rfl | rfl | rfl | rfl | rfl
    -- `-R` takes no argument
    on_goal 4 => simp at hdeliver
    all_goals exact ⟨_, rfl⟩

theorem parseOption_action (h : actionOf opt = some action) :
    parseOption s c opt = cliArgsAddAction s action := by
  unfold actionOf at h
  split at h
  · cases h
    rfl
  · cases h
    rfl
  · split at h
    · rename_i hmem
      cases h
      simp only [List.mem_cons, List.not_mem_nil, or_false] at hmem
      rcases hmem with rfl | rfl | rfl | rfl | rfl <;> rfl
    · cases h
  · cases h

theorem parseOption_dir (h : takesDir c opt.1 = true) : parseOption s c opt = setDir s opt.2 := by
  obtain ⟨d, arg⟩ := opt
  simp only [takesDir, decide_eq_true_eq] at h
  rcases h with ⟨rfl, hc⟩ | ⟨rfl, hc⟩
  · exact if_pos hc
  · exact if_pos hc

/-- Any other option leaves the list alone. -/
theorem parseOption_other (hdeliver : Deliverable opt) (haction : actionOf opt = none)
    (hdir : takesDir c opt.1 = false) (h : s.Lists L) :
    ∃ s', parseOption s c opt = .ok s' ∧ s'.Lists L := by
  obtain ⟨d, arg⟩ := opt
  cases arg with
  | none =>
    simp only [deliverable_none, List.mem_cons, List.not_mem_nil, or_false] at hdeliver
    rcases hdeliver with rfl | rfl | rfl
    · refine ⟨_, rfl, ?_⟩
      unfold cliArgsEnableHelpMessage
      split <;> exact h
    · cases haction
    · exact ⟨_, rfl, h⟩
  | some arg =>
    simp only [deliverable_some, List.mem_cons, List.not_mem_nil, or_false] at hdeliver
    rcases hdeliver with rfl | rfl | rfl | rfl | rfl | rfl | rfl | rfl | rfl | rfl | rfl | rfl |
      rfl | rfl
    · refine ⟨_, rfl, ?_⟩
      unfold cliArgsSetSocketName
      split <;> exact h
    · cases haction
    · exact ⟨_, rfl, h⟩
    · cases haction
    · refine ⟨_, if_neg ?_, h⟩
      simpa [takesDir] using hdir
    · cases haction
    · refine ⟨_, if_neg ?_, h⟩
      simpa [takesDir] using hdir
    · exact ⟨_, rfl, h⟩
    · cases haction
    · cases haction
    · cases haction
    · refine ⟨_, rfl, ?_⟩
      unfold cliArgsEnableLog
      repeat' split
      all_goals exact h
    · exact ⟨_, rfl, h⟩
    · exact ⟨_, rfl, h⟩

/-! ## 7. The loop -/

/-- The action that the last option added, if it did, once the next option is known. -/
def settled (dir : Option CStr) (opened : Option Action) : List Action :=
  (opened.map fun action => { action with argS2 := dir }).toList

theorem settled_none {opened : Option Action} (h : ∀ action ∈ opened, action.argS2 = none) :
    settled none opened = opened.toList := by
  cases opened with
  | none => rfl
  | some action =>
    have hbare : action.argS2 = none := h action rfl
    obtain ⟨type, argS1, argS2, argI, next⟩ := action
    obtain rfl : argS2 = none := hbare
    rfl

theorem recipe_cons (opt : Opt) (options : List Opt) :
    recipe (opt :: options) = settled (dirOf opt.1 options) (actionOf opt) ++ recipe options := by
  rw [recipe]
  cases actionOf opt <;> rfl

theorem takesDir_right (h : takesDir c d = true) : isAction d = false ∧ ∀ e, takesDir d e = false := by
  simp only [takesDir, decide_eq_true_eq] at h
  rcases h with ⟨rfl, -⟩ | ⟨rfl, -⟩ <;> exact ⟨rfl, fun e => by simp [takesDir]⟩

theorem takesDir_arg (hdeliver : Deliverable opt) (h : takesDir c opt.1 = true) :
    ∃ arg, opt.2 = some arg := by
  obtain ⟨d, arg⟩ := opt
  cases arg with
  | some arg => exact ⟨arg, rfl⟩
  | none =>
    simp only [deliverable_none, List.mem_cons, List.not_mem_nil, or_false] at hdeliver
    rcases hdeliver with rfl | rfl | rfl <;> simp [takesDir] at h

theorem takesDir_left (h : takesDir c d = true) : isAction c = true := by
  simp only [takesDir, decide_eq_true_eq] at h
  rcases h with ⟨-, rfl | rfl⟩ | ⟨-, rfl | rfl⟩ <;> rfl

/-- Between two options, with `opened` added by the last one, which was `c`.  A `c` that takes a
directory has added an action. -/
structure Between (s : State) (c : Char) (L : List Action) (opened : Option Action) : Prop where
  lists : s.Lists (L ++ opened.toList)
  bare : ∀ action ∈ opened, action.argS2 = none
  pending : ∀ d, takesDir c d = true → opened.isSome

theorem Between.step {opened : Option Action} (h : Between s c L opened)
    (hdeliver : Deliverable opt) (options : List Opt) :
    ∃ s', parseOption s c opt = .ok s' ∧
      Between s' opt.1 (L ++ settled (dirOf c (opt :: options)) opened) (actionOf opt) := by
  cases haction : actionOf opt with
  | some action =>
    -- the option adds an action, and the one before it stays without a directory
    obtain ⟨-, hbare, hnext, hacts⟩ := actionOf_spec haction
    obtain ⟨s', hx, hlists, -⟩ := cliArgsAddAction_lists h.lists action
    have hdir : takesDir c opt.1 = false := by
      by_contra hdir
      rw [Bool.not_eq_false] at hdir
      rw [(takesDir_right hdir).1] at hacts
      cases hacts
    have hdetached : action.detached = action := by
      rw [Action.detached, ← hnext]
    rw [hdetached] at hlists
    refine ⟨s', (parseOption_action haction).trans hx, ?_, ?_, fun _ _ => rfl⟩
    · rw [dirOf, if_neg (by simp [hdir]), settled_none h.bare]
      exact hlists
    · rintro _ ⟨⟩
      exact hbare
  | none =>
    by_cases hdir : takesDir c opt.1 = true
    · -- the directory goes to the action that `c` added
      obtain ⟨action, rfl⟩ := Option.isSome_iff_exists.mp (h.pending _ hdir)
      obtain ⟨arg, harg⟩ := takesDir_arg hdeliver hdir
      obtain ⟨s', hx, hlists, -⟩ := setDir_lists h.lists arg
      refine ⟨s', (parseOption_dir hdir).trans (harg ▸ hx), ?_, nofun, ?_⟩
      · rw [dirOf, if_pos hdir, harg, Option.toList_none, List.append_nil]
        exact hlists
      · intro e he
        rw [(takesDir_right hdir).2 e] at he
        cases he
    · -- the option has nothing to do with the list
      obtain ⟨s', hx, hlists⟩ :=
        parseOption_other hdeliver haction (Bool.not_eq_true _ ▸ hdir) h.lists
      refine ⟨s', hx, ?_, nofun, ?_⟩
      · rw [dirOf, if_neg hdir, settled_none h.bare, Option.toList_none, List.append_nil]
        exact hlists
      · intro e he
        obtain ⟨action, hsome⟩ := actionOf_isSome hdeliver (takesDir_left he)
        rw [haction] at hsome
        cases hsome

theorem Between.run {opened : Option Action} (h : Between s c L opened)
    (hdeliver : ∀ opt ∈ options, Deliverable opt) :
    ∃ s', parseOptions s c options = .ok s' ∧ (s'.cliArgs.err = .ok →
      s'.Lists (L ++ settled (dirOf c options) opened ++ recipe options)) := by
  induction options generalizing s c L opened with
  | nil =>
    refine ⟨s, rfl, fun _ => ?_⟩
    rw [dirOf, settled_none h.bare, recipe, List.append_nil]
    exact h.lists
  | cons opt options ih =>
    obtain ⟨s₁, hx, hbetween⟩ := h.step (hdeliver opt List.mem_cons_self) options
    by_cases herr : s₁.cliArgs.err = .ok
    · obtain ⟨s', hrest, hlists⟩ := ih hbetween fun o ho => hdeliver o (List.mem_cons_of_mem _ ho)
      refine ⟨s', ?_, fun hok => ?_⟩
      · rw [parseOptions, hx, Exec.ok_bind, if_neg (not_not.mpr herr)]
        exact hrest
      · rw [recipe_cons, ← List.append_assoc]
        exact hlists hok
    · -- the loop ends here with an error, and nothing is claimed about the list
      refine ⟨s₁, ?_, fun hok => absurd hok herr⟩
      rw [parseOptions, hx, Exec.ok_bind, if_pos herr]
      rfl

theorem recipe_types (hdeliver : ∀ opt ∈ options, Deliverable opt) :
    (recipe options).map Action.type = (options.map Prod.fst).filter isAction := by
  induction options with
  | nil => rfl
  | cons opt options ih =>
    rw [recipe_cons, List.map_append, ih fun o ho => hdeliver o (List.mem_cons_of_mem _ ho),
      List.map_cons, List.filter_cons]
    cases haction : actionOf opt with
    | some action =>
      obtain ⟨htype, -, -, hacts⟩ := actionOf_spec haction
      rw [if_pos hacts, ← htype]
      rfl
    | none =>
      rw [if_neg]
      · rfl
      · intro hacts
        obtain ⟨action, hsome⟩ := actionOf_isSome (hdeliver opt List.mem_cons_self) hacts
        rw [haction] at hsome
        cases hsome

/-- No option dereferences a `NULL` last action.  When the options are all accepted, the list holds
one action for each action option, in order, with the directory of the option right behind it. -/
theorem cliArgsParse_lists (hdeliver : ∀ opt ∈ options, Deliverable opt) :
    ∃ s, cliArgsParse options = .ok s ∧ (s.cliArgs.err = .ok → s.Lists (recipe options) ∧
      (recipe options).map Action.type = (options.map Prod.fst).filter isAction) := by
  have hstart : Between cliArgsDefault (Char.ofNat 0) [] none :=
    ⟨lists_default, nofun, fun d hd => by simp [takesDir] at hd⟩
  obtain ⟨s, hx, hlists⟩ := hstart.run hdeliver
  exact ⟨s, hx, fun hok => ⟨hlists hok, recipe_types hdeliver⟩⟩

/-- `-h -w d -D e -W a -D e -r a -d d -R -l a -u a -c a`. -/
def sampleLine : List Opt :=
  [('h', none), ('w', some ⟨[100], by decide⟩), ('D', some ⟨[101], by decide⟩),
    ('W', some ⟨[97], by decide⟩), ('D', some ⟨[101], by decide⟩), ('r', some ⟨[97], by decide⟩),
    ('d', some ⟨[100], by decide⟩), ('R', none), ('l', some ⟨[97], by decide⟩),
    ('u', some ⟨[97], by decide⟩), ('c', some ⟨[97], by decide⟩)]

theorem cliArgsParse_lists_seven : ∃ s, cliArgsParse sampleLine = .ok s ∧ s.cliArgs.err = .ok ∧
    s.Lists [
      { type := 'w', argS1 := some ⟨[100], by decide⟩, argS2 := some ⟨[101], by decide⟩, argI := 0,
        next := none },
      { type := 'W', argS1 := some ⟨[97], by decide⟩, argS2 := some ⟨[101], by decide⟩, argI := 0,
        next := none },
      { type := 'r', argS1 := some ⟨[97], by decide⟩, argS2 := some ⟨[100], by decide⟩, argI := 0,
        next := none },
      { type := 'R', argS1 := none, argS2 := none, argI := 0, next := none },
      { type := 'l', argS1 := some ⟨[97], by decide⟩, argS2 := none, argI := 0, next := none },
      { type := 'u', argS1 := some ⟨[97], by decide⟩, argS2 := none, argI := 0, next := none },
      { type := 'c', argS1 := some ⟨[97], by decide⟩, argS2 := none, argI := 0, next := none }] := by
  obtain ⟨s, hx, hlists⟩ :=
    cliArgsParse_lists (show ∀ opt ∈ sampleLine, Deliverable opt by decide)
  have hok : s.cliArgs.err = .ok := by
    have hany : (cliArgsParse sampleLine).any (fun s => s.cliArgs.err = .ok) = true := by decide
    rw [hx] at hany
    simpa [Exec.any] using hany
  exact ⟨s, hx, hok, (hlists hok).1⟩

end FileStorage.Client.Cli
