import FileStorage.Client.Cli

/-!
# WriteDirOption — the number behind the directory of `-w`

The help message and the tests write `dirname,n=3`.  `strncmp` gives zero on the `n`, so this is
the one letter with which the suffix is not cut off.
-/

namespace FileStorage.Client.Cli

open Memory

variable {s : State} {L : List Action} {arg : CStr}

/-! ## 1. What the option produces -/

/-- The code appended a `w` action with these arguments. -/
def Produces (x : Exec State) (argS1 : CStr) (argI : Int32) : Prop :=
  ∃ s last action, x = .ok s ∧ s.cliArgs.last = some last ∧
    s.actions.read last = some action ∧ action.type = 'w' ∧ action.argS1 = some argS1 ∧
    action.argI = argI

theorem writeDirAction_type : (writeDirAction arg).type = 'w' := by
  unfold writeDirAction
  split
  · split <;> rfl
  · rfl

theorem produces_iff (h : s.Lists L) {argS1 : CStr} {argI : Int32} :
    Produces (cliArgsAddActionWriteDir s (some arg)) argS1 argI ↔
      (writeDirAction arg).argS1 = some argS1 ∧ (writeDirAction arg).argI = argI := by
  obtain ⟨s', hx, ⟨as, hlist, hmap⟩, -⟩ := cliArgsAddAction_lists h (writeDirAction arg)
  rw [List.map_append, List.map_singleton] at hmap
  obtain ⟨bs, ends, rfl, -, hends⟩ := List.map_eq_append_iff.mp hmap
  obtain ⟨b, rfl, hb⟩ := List.map_eq_singleton_iff.mp hends
  obtain ⟨action, hread, haction⟩ := Heap.field_eq_some hb
  have hlast : s'.cliArgs.last = some b := by rw [hlist.last_eq, List.getLast?_concat]
  have hargS1 : action.detached.argS1 = (writeDirAction arg).detached.argS1 := by rw [haction]
  have hargI : action.detached.argI = (writeDirAction arg).detached.argI := by rw [haction]
  have htype : action.detached.type = (writeDirAction arg).detached.type := by rw [haction]
  constructor
  · rintro ⟨s₁, last, action₁, hx₁, hlast₁, hread₁, -, hS1, hI⟩
    obtain rfl : s' = s₁ := Except.ok.inj (hx.symm.trans hx₁)
    obtain rfl : b = last := Option.some.inj (hlast.symm.trans hlast₁)
    obtain rfl : action = action₁ := Option.some.inj (hread.symm.trans hread₁)
    exact ⟨hargS1.symm.trans hS1, hargI.symm.trans hI⟩
  · rintro ⟨hS1, hI⟩
    exact ⟨s', b, action, hx, hlast, hread, htype.trans writeDirAction_type, hargS1.trans hS1,
      hargI.trans hI⟩

/-! ## 2. What is documented -/

def IsDecimal (digits : List UInt8) : Prop := digits ≠ [] ∧ ∀ b ∈ digits, isDigit b = true

/-- The argument is `dirname`, `,n=` and a decimal number that is an `int`. -/
def HasLimit (arg dirname : CStr) (digits : List UInt8) : Prop :=
  arg.bytes = dirname.bytes ++ [44, 110, 61] ++ digits ∧ 44 ∉ dirname.bytes ∧
    61 ∉ dirname.bytes ∧ IsDecimal digits ∧ digitsValue digits < 2 ^ 31

/-- The argument ends in `,n=` and a decimal number. -/
def EndsInLimit (arg : CStr) : Prop :=
  ∃ front digits, arg.bytes = front ++ [44, 110, 61] ++ digits ∧ IsDecimal digits

/-- A number behind the directory name is the limit, and any other argument is a directory name. -/
def AsDocumented (s : State) (arg : CStr) : Prop :=
  (∀ dirname digits, HasLimit arg dirname digits →
    Produces (cliArgsAddActionWriteDir s (some arg)) dirname
      (Int32.ofNat (digitsValue digits))) ∧
  (¬ EndsInLimit arg → Produces (cliArgsAddActionWriteDir s (some arg)) arg 0)

/-! ## 3. What is cut off -/

/-- The last comma and the last equal sign stand around one byte that is no `n`. -/
def IsCut (arg : CStr) : Prop :=
  ∃ front x behind, arg.bytes = front ++ [44, x, 61] ++ behind ∧ x ≠ 110 ∧ x ≠ 44 ∧
    44 ∉ behind ∧ 61 ∉ behind

theorem not_mem_of_isDecimal {digits : List UInt8} (h : IsDecimal digits) {b : UInt8}
    (hb : isDigit b = false) : b ∉ digits := by
  intro hmem
  rw [h.2 b hmem] at hb
  cases hb

theorem strrchr_comma {front behind : List UInt8} {x : UInt8}
    (heq : arg.bytes = front ++ [44, x, 61] ++ behind) (hx : x ≠ 44) (hnot : 44 ∉ behind) :
    strrchr arg.bytes 44 = some front.length := by
  refine strrchr_eq_some.mpr ⟨front, x :: 61 :: behind, ?_, rfl, ?_⟩
  · rw [heq, List.append_assoc]
    rfl
  · simp [hx.symm, hnot]

theorem strrchr_equalSign {front behind : List UInt8} {x : UInt8}
    (heq : arg.bytes = front ++ [44, x, 61] ++ behind) (hnot : 61 ∉ behind) :
    strrchr arg.bytes 61 = some (front.length + 2) := by
  refine strrchr_eq_some.mpr ⟨front ++ [44, x], behind, ?_, ?_, hnot⟩
  · rw [heq]
    simp
  · rw [List.length_append]
    rfl

/-- A suffix `,n=` and digits is none that is cut off. -/
theorem not_isCut {front digits : List UInt8}
    (heq : arg.bytes = front ++ [44, 110, 61] ++ digits) (hdigits : IsDecimal digits) :
    ¬ IsCut arg := by
  rintro ⟨front', x, behind, heq', hx, hcomma, hnot, -⟩
  -- there is one last comma
  have hlen : some front.length = some front'.length := by
    rw [← strrchr_comma heq (by decide) (not_mem_of_isDecimal hdigits rfl),
      strrchr_comma heq' hcomma hnot]
  have hsame : front ++ [44, 110, 61] ++ digits = front' ++ [44, x, 61] ++ behind :=
    heq.symm.trans heq'
  rw [List.append_assoc, List.append_assoc] at hsame
  obtain ⟨-, hsuffix⟩ := List.append_inj hsame (Option.some.inj hlen)
  simp only [List.cons_append, List.cons.injEq] at hsuffix
  exact hx hsuffix.2.1.symm

theorem writeDirAction_cut (h : IsCut arg) :
    ∃ front, (writeDirAction arg).argS1 = some front ∧ front ≠ arg := by
  obtain ⟨front, x, behind, heq, hx, hcomma, hnot, hnot'⟩ := h
  have hbyte : arg.bytes[front.length + 1]? = some x := by
    rw [heq]
    simp
  have htake : (bufToStr (arg.bytes.take front.length)).strlen ≤ front.length :=
    Nat.le_trans (List.takeWhile_sublist _).length_le (List.length_take_le _ _)
  refine ⟨bufToStr (arg.bytes.take front.length), ?_, fun hsame => ?_⟩
  · unfold writeDirAction
    rw [strrchr_comma heq hcomma hnot, strrchr_equalSign heq hnot']
    dsimp only
    rw [hbyte, if_pos ⟨rfl, fun hn => hx (Option.some.inj hn)⟩]
  · rw [hsame, CStr.strlen, heq, List.length_append, List.length_append, List.length_cons] at htake
    omega

/-- The two searches find what is cut off. -/
theorem isCut_of_strrchr {comma equalSign : Nat} (hcomma : strrchr arg.bytes 44 = some comma)
    (hequal : strrchr arg.bytes 61 = some equalSign) (hdist : equalSign = comma + 2)
    (hbyte : arg.bytes[comma + 1]? ≠ some 110) : IsCut arg := by
  obtain ⟨front, tail, heq, rfl, hnot⟩ := strrchr_eq_some.mp hcomma
  obtain ⟨front', behind, heq', hlen, hnot'⟩ := strrchr_eq_some.mp hequal
  rcases List.append_eq_append_iff.mp (heq.symm.trans heq') with ⟨mid, rfl, hmid⟩ | ⟨mid, rfl, -⟩
  · have htwo : mid.length = 2 := by
      rw [List.length_append] at hlen
      omega
    obtain ⟨y, x, rfl⟩ := List.length_eq_two.mp htwo
    obtain ⟨rfl, rfl⟩ := List.cons.inj hmid
    have hx : arg.bytes[front.length + 1]? = some x := by
      rw [heq]
      simp
    refine ⟨front, x, behind, ?_, fun hn => hbyte (hn ▸ hx), ?_, ?_, hnot'⟩
    · rw [heq, List.append_assoc]
      rfl
    · exact fun hc => hnot (hc ▸ List.mem_cons_self)
    · exact fun hmem => hnot (by simp [hmem])
  · rw [List.length_append] at hdist
    omega

theorem writeDirAction_whole (h : ¬ IsCut arg) :
    (writeDirAction arg).argS1 = some arg ∧ (writeDirAction arg).argI = 0 := by
  unfold writeDirAction
  split
  · rename_i comma equalSign hcomma hequal
    split
    · rename_i hcut
      exact absurd (isCut_of_strrchr hcomma hequal hcut.1 hcut.2) h
    · exact ⟨rfl, rfl⟩
  · exact ⟨rfl, rfl⟩

/-! ## 4. When the option is read as documented -/

/-- Exactly the arguments without a limit that have no other suffix to cut off. -/
theorem writeDir_documented_iff (h : s.Lists L) :
    AsDocumented s arg ↔ (¬ ∃ dirname digits, HasLimit arg dirname digits) ∧ ¬ IsCut arg := by
  unfold AsDocumented
  simp only [produces_iff h]
  by_cases hcut : IsCut arg
  · -- a suffix that is cut off is no limit, and the argument should have stayed whole
    obtain ⟨front, hfront, hne⟩ := writeDirAction_cut hcut
    refine iff_of_false (fun hdoc => ?_) fun hcond => hcond.2 hcut
    have hends : ¬ EndsInLimit arg :=
      fun ⟨front, digits, heq, hdigits⟩ => not_isCut heq hdigits hcut
    have hwhole := (hdoc.2 hends).1
    rw [hfront] at hwhole
    exact hne (Option.some.inj hwhole)
  · -- any other argument stays whole, also with a limit
    obtain ⟨hargS1, hargI⟩ := writeDirAction_whole hcut
    rw [and_iff_left hcut]
    constructor
    · rintro ⟨hlimit, -⟩ ⟨dirname, digits, hform⟩
      have hdirname := (hlimit dirname digits hform).1
      rw [hargS1] at hdirname
      have hlen := congrArg List.length hform.1
      rw [← Option.some.inj hdirname, List.length_append, List.length_append,
        List.length_cons] at hlen
      omega
    · intro hform
      exact ⟨fun dirname digits hlimit => absurd ⟨dirname, digits, hlimit⟩ hform,
        fun _ => ⟨hargS1, hargI⟩⟩

theorem writeDir_documented_plain : AsDocumented cliArgsDefault ⟨[100], by decide⟩ := by
  refine (writeDir_documented_iff lists_default).mpr ⟨?_, ?_⟩
  · rintro ⟨dirname, digits, heq, -⟩
    have hlen := congrArg List.length heq
    simp only [List.length_append, List.length_cons, List.length_nil] at hlen
    omega
  · rintro ⟨front, x, behind, heq, -⟩
    have hlen := congrArg List.length heq
    simp only [List.length_append, List.length_cons, List.length_nil] at hlen
    omega

/-- `-w d,n=3` gives no limit and the directory name `d,n=3`. -/
theorem writeDir_ignores_limit :
    (∃ dirname digits, HasLimit ⟨[100, 44, 110, 61, 51], by decide⟩ dirname digits) ∧
      ¬ AsDocumented cliArgsDefault ⟨[100, 44, 110, 61, 51], by decide⟩ := by
  have hdecimal : IsDecimal [51] := by
    refine ⟨List.cons_ne_nil _ _, fun b hb => ?_⟩
    rw [List.mem_singleton.mp hb]
    rfl
  have hlimit : HasLimit ⟨[100, 44, 110, 61, 51], by decide⟩ ⟨[100], by decide⟩ [51] :=
    ⟨rfl, by decide, by decide, hdecimal, by decide⟩
  refine ⟨⟨_, _, hlimit⟩, fun hdoc => ?_⟩
  have hdirname := ((produces_iff lists_default).mp (hdoc.1 _ _ hlimit)).1
  revert hdirname
  decide

end FileStorage.Client.Cli
