import FileStorage.Server.Ownership
import FileStorage.Server.System

/-!
# Routing — whose bytes go where

A handler answers on the descriptor that its message came in on.  As long as `accept` gives no
number that is still in use somewhere, the bytes reach the connection that sent the message; only the
byte that hands a lock over goes to another connection, one that asked for the lock.
-/

namespace FileStorage.Server

/-! ## 1. Waiters and new owners -/

/-- Only a lock request adds a waiter. -/
theorem Op.verdict_subs {o : Op} {m : Option File} {code : HTableError} {newOwner : Int} {g : File}
    (h : o.verdict m = .put code newOwner g) {fd : Int} (hfd : fd ∈ g.subs) :
    (∃ f, m = some f ∧ fd ∈ f.subs) ∨ o = .lock o.key fd := by
  cases m with
  | none =>
    cases o <;> simp only [Op.verdict, Verdict.put.injEq, reduceCtorEq] at h
    rw [← h.2.2] at hfd
    exact absurd hfd List.not_mem_nil
  | some f =>
    cases o <;> simp only [Op.verdict] at h <;> grind [File.withBytes, Op.key]

/-- The new owner of a lock is a waiter. -/
theorem Op.verdict_newOwner {o : Op} {m : Option File} {code : HTableError} {newOwner : Int}
    {g : File} (h : o.verdict m = .put code newOwner g) (hne : newOwner ≠ -1) :
    ∃ f, m = some f ∧ newOwner ∈ f.subs := by
  cases m with
  | none =>
    cases o <;> simp only [Op.verdict, Verdict.put.injEq, reduceCtorEq] at h
    exact absurd h.2.1.symm hne
  | some f =>
    cases o <;> simp only [Op.verdict] at h <;> grind

theorem Op.mem_grants {o : Op} {out : Outcome} {w : Write} (hw : w ∈ o.grants out) :
    w.kind = .granted ∧ w.fd = out.newOwner ∧ out.newOwner ≠ -1 ∧ ∃ fd, o = .unlock o.key fd := by
  cases o with
  | unlock key fd =>
    simp only [Op.grants] at hw
    split at hw
    · obtain rfl := List.mem_singleton.mp hw
      exact ⟨rfl, rfl, ‹_›, fd, rfl⟩
    · exact absurd hw List.not_mem_nil
  | create | «open» | close | lock | remove | replace | append => exact absurd hw List.not_mem_nil

theorem MapStep.newOwner_waits {m m' : FileMap} {o : Op} {out : Outcome} (h : MapStep m o out m')
    (hne : out.newOwner ≠ -1) : ∃ f, m o.key = some f ∧ out.newOwner ∈ f.subs := by
  cases h with
  | refuse | drop => exact absurd rfl hne
  | put h hev hquiet => exact Op.verdict_newOwner h hne

theorem messageOp_issuedBy {fd : Int} {raw : List UInt8} {o : Op} (h : messageOp fd raw = some o) :
    o.issuedBy fd := by
  obtain ⟨request, -, h⟩ := Option.bind_eq_some_iff.mp h
  cases request with
  | readFile | readNFiles => cases h
  | openFile path create lock =>
    cases create <;> cases h <;> rfl
  | writeFile =>
    cases h
    trivial
  | unlockFile | lockFile | closeFile | removeFile =>
    cases h
    rfl

/-! ## 2. The invariant -/

namespace System

variable {P : Platform} {sent : Nat → List UInt8} {s s' : System} {e : Event} {L : Contents}

/-- A worker has taken a message with which `c` asked for the lock of `key`. -/
def Asked (s : System) (key : CStr) (fd : Int) (c : Nat) : Prop :=
  ∃ id ∈ s.taken, ∃ h, s.receiver.handed[id]? = some h ∧ h.conn = c ∧
    messageOp h.fd h.buffer.raw = some (.lock key fd)

/-- The connection `c` sent the message, or the message is an unlock and `c` asked for the lock. -/
def MayReach (s : System) (id : Nat) (kind : WriteKind) (c : Nat) : Prop :=
  ∃ h, s.receiver.handed[id]? = some h ∧ (h.conn = c ∨ kind = .granted ∧
    ∃ key fd, messageOp h.fd h.buffer.raw = some (.unlock key h.fd) ∧ s.Asked key fd c)

/-- Nobody carries the number `fd` any more: no entry that may be read from, no message, no byte that
is yet to be written, no waiter. -/
structure Unused (P : Platform) (s : System) (fd : Int) : Prop where
  entries : s.receiver.AcceptsFresh (.accepted fd)
  messages : ∀ id h, s.receiver.handed[id]? = some h → id ∉ s.taken → h.fd ≠ fd
  writes : ∀ reply ∈ s.replies, ∀ w ∈ reply.writes, w.fd ≠ fd
  waiters : ∀ key f, htableFetchFile P s.table key = .ok (some f) → fd ∉ f.subs

def AcceptsUnused (P : Platform) (s : System) (e : Event) : Prop :=
  ∀ fd, e = .receive (.accepted fd) → s.Unused P fd

structure Routed (P : Platform) (s : System) (L : Contents) : Prop where
  guarded : s.receiver.Guarded
  owned : s.receiver.Owned
  stored : Stored P s.table L
  messages : ∀ id h, s.receiver.handed[id]? = some h → id ∉ s.taken →
    s.receiver.kernel.Gave h.fd h.conn
  waiters : ∀ key f, fileAt L key = some f → ∀ fd ∈ f.subs,
    ∃ c, s.receiver.kernel.Gave fd c ∧ s.Asked key fd c
  writes : ∀ reply ∈ s.replies, ∀ w ∈ reply.writes,
    ∃ c, s.receiver.kernel.Gave w.fd c ∧ s.MayReach reply.message w.kind c
  outputs : ∀ o ∈ s.outputs, ∀ c, o.dest = some (.connection c) → s.MayReach o.message o.kind c

theorem getElem?_of_prefix {α : Type} {l l' : List α} (h : l <+: l') {i : Nat} {a : α}
    (ha : l[i]? = some a) : l'[i]? = some a := by
  obtain ⟨more, rfl⟩ := h
  rw [List.getElem?_append_left (List.getElem?_eq_some_iff.mp ha).1]
  exact ha

theorem Asked.mono {key : CStr} {fd : Int} {c : Nat} (h : s.Asked key fd c)
    (hhanded : s.receiver.handed <+: s'.receiver.handed) (htaken : s.taken ⊆ s'.taken) :
    s'.Asked key fd c := by
  obtain ⟨id, hid, h, hmessage, hrest⟩ := h
  exact ⟨id, htaken hid, h, getElem?_of_prefix hhanded hmessage, hrest⟩

theorem MayReach.mono {id : Nat} {kind : WriteKind} {c : Nat} (h : s.MayReach id kind c)
    (hhanded : s.receiver.handed <+: s'.receiver.handed) (htaken : s.taken ⊆ s'.taken) :
    s'.MayReach id kind c := by
  obtain ⟨h, hmessage, hconn | ⟨hkind, key, fd, hop, hasked⟩⟩ := h
  · exact ⟨h, getElem?_of_prefix hhanded hmessage, Or.inl hconn⟩
  · exact ⟨h, getElem?_of_prefix hhanded hmessage,
      Or.inr ⟨hkind, key, fd, hop, hasked.mono hhanded htaken⟩⟩

/-- Nothing but the receiver's part changes. -/
theorem Routed.receive (h : Routed P s L) {answer : KernelAnswer} {r : Receiver}
    (hunused : s.AcceptsUnused P (.receive answer))
    (hstep : Receiver.Step sent P s.receiver answer r) : Routed P { s with receiver := r } L := by
  have hfresh : s.receiver.AcceptsFresh answer := by
    rintro fd rfl
    exact (hunused fd rfl).entries fd rfl
  have hgave : ∀ {fd : Int} {c : Nat}, s.receiver.kernel.Gave fd c →
      (∀ fd', answer = .accepted fd' → fd ≠ fd') → r.kernel.Gave fd c := fun hgave => hstep.gave hgave
  obtain ⟨new, hhanded, hnew⟩ := h.owned.handed_step hstep
  have hprefix : s.receiver.handed <+: r.handed := ⟨new, hhanded.symm⟩
  refine ⟨h.guarded.step hstep, h.owned.step h.guarded hfresh hstep, h.stored,
    fun id x hmessage hid => ?_, fun key f hf fd hfd => ?_, fun reply hreply w hw => ?_,
    fun o ho c hc => (h.outputs o ho c hc).mono hprefix (List.Subset.refl _)⟩
  -- an old message, or one that is handed over in this step
  · change r.handed[id]? = some x at hmessage
    rw [hhanded] at hmessage
    rcases Nat.lt_or_ge id s.receiver.handed.length with hold | hlate
    · rw [List.getElem?_append_left hold] at hmessage
      refine hgave (h.messages id x hmessage hid) fun fd' heq => ?_
      exact (hunused fd' (heq ▸ rfl)).messages id x hmessage hid
    · rw [List.getElem?_append_right hlate] at hmessage
      exact (hnew x (List.mem_of_getElem? hmessage)).1
  · obtain ⟨c, hwaits, hasked⟩ := h.waiters key f hf fd hfd
    refine ⟨c, hgave hwaits fun fd' heq hsame => ?_, hasked.mono hprefix (List.Subset.refl _)⟩
    subst hsame
    exact (hunused fd (heq ▸ rfl)).waiters key f (by rw [h.stored.fetchFile, hf]) hfd
  · obtain ⟨c, hdue, hreach⟩ := h.writes reply hreply w hw
    refine ⟨c, hgave hdue fun fd' heq => ?_, hreach.mono hprefix (List.Subset.refl _)⟩
    exact (hunused fd' (heq ▸ rfl)).writes reply hreply w hw

/-- The reply to a message goes to its connection, and the lock to one that asked for it. -/
theorem Routed.take (h : Routed P s L) {id : Nat} {rands : List Nat} {x : HandedOver}
    {writes : List Write} {t : HTable} (hmessage : s.receiver.handed[id]? = some x)
    (hfresh : id ∉ s.taken)
    (hx : workerHandleMessage P s.table x.fd x.buffer.raw rands = .ok (writes, t))
    {tickets : CStr → Tickets} :
    ∃ L', Routed P { s with
      table := t
      taken := s.taken ++ [id]
      replies := s.replies ++ [⟨id, writes⟩]
      tickets } L' := by
  have hgave := h.messages id x hmessage hfresh
  have hsub : s.taken ⊆ s.taken ++ [id] := List.subset_append_left _ _
  have hmessages : ∀ id' y, s.receiver.handed[id']? = some y → id' ∉ s.taken ++ [id] →
      s.receiver.kernel.Gave y.fd y.conn := fun id' y hy hid' =>
    h.messages id' y hy fun hmem => hid' (hsub hmem)
  -- the parts that no table operation touches
  have hbuild : ∀ {L' : Contents}, Stored P t L' →
      (∀ key f, fileAt L' key = some f → ∀ fd ∈ f.subs, (∃ f, fileAt L key = some f ∧ fd ∈ f.subs) ∨
        messageOp x.fd x.buffer.raw = some (.lock key fd) ∧ fd = x.fd) →
      (∀ w ∈ writes, w.fd = x.fd ∨ ∃ c, s.receiver.kernel.Gave w.fd c ∧ s.MayReach id w.kind c) →
      Routed P { s with
        table := t
        taken := s.taken ++ [id]
        replies := s.replies ++ [⟨id, writes⟩]
        tickets } L' := by
    intro L' hstored hsubs hwrites
    refine ⟨h.guarded, h.owned, hstored, hmessages, fun key f hf fd hfd => ?_,
      fun reply hreply w hw => ?_,
      fun o ho c hc => (h.outputs o ho c hc).mono List.prefix_rfl hsub⟩
    -- an old waiter, or the one that this message adds
    · rcases hsubs key f hf fd hfd with ⟨g, hg, hfd⟩ | ⟨hop, rfl⟩
      · obtain ⟨c, hwaits, hasked⟩ := h.waiters key g hg fd hfd
        exact ⟨c, hwaits, hasked.mono List.prefix_rfl hsub⟩
      · refine ⟨x.conn, hgave, id, ?_, x, hmessage, rfl, hop⟩
        exact List.mem_append_right _ (List.mem_singleton.mpr rfl)
    · rcases List.mem_append.mp hreply with hreply | hreply
      · obtain ⟨c, hdue, hreach⟩ := h.writes reply hreply w hw
        exact ⟨c, hdue, hreach.mono List.prefix_rfl hsub⟩
      · obtain rfl := List.mem_singleton.mp hreply
        rcases hwrites w hw with hfd | ⟨c, hdue, hreach⟩
        · exact ⟨x.conn, hfd ▸ hgave, x, hmessage, Or.inl rfl⟩
        · exact ⟨c, hdue, hreach.mono List.prefix_rfl hsub⟩
  rcases workerHandleMessage_cases hx with ⟨-, rfl, hwrites⟩ | ⟨o, out, hop, hexec, hwrites⟩
  · exact ⟨L, hbuild h.stored (fun key f hf fd hfd => Or.inl ⟨f, hf, hfd⟩)
      fun w hw => Or.inl (hwrites w hw)⟩
  · obtain ⟨L', heffect⟩ := effect_of_exec h.stored hexec
    have hstep := heffect.mapStep h.stored
    refine ⟨L', hbuild (heffect.stored h.stored) (fun key f hf fd hfd => ?_) fun w hw => ?_⟩
    · rcases hstep.stored_before hf with hold | ⟨rfl, code, newOwner, hverdict⟩
      · exact Or.inl ⟨f, hold, hfd⟩
      · refine (Op.verdict_subs hverdict hfd).imp_right fun heq => ?_
        have hissued := messageOp_issuedBy hop
        rw [heq] at hissued
        exact ⟨by rw [hop, ← heq], hissued⟩
    · refine (hwrites w hw).imp_right fun hgrant => ?_
      obtain ⟨hkind, hfd, hne, fd, heq⟩ := Op.mem_grants hgrant
      obtain ⟨f, hf, hwaits⟩ := hstep.newOwner_waits hne
      obtain ⟨c, hgave', hasked⟩ := h.waiters _ f hf _ hwaits
      refine ⟨c, hfd ▸ hgave', x, hmessage, Or.inr ⟨hkind, o.key, out.newOwner, ?_, hasked⟩⟩
      have hissued := messageOp_issuedBy hop
      rw [heq] at hissued
      rw [hop, heq]
      exact congrArg (fun fd => some (Op.unlock o.key fd)) hissued

theorem Routed.step (h : Routed P s L) (hunused : s.AcceptsUnused P e) (hstep : Step P sent s e s') :
    ∃ L', Routed P s' L' := by
  cases hstep with
  | receive hstep => exact ⟨L, h.receive hunused hstep⟩
  | take hmessage hfresh hx => exact h.take hmessage hfresh hx
  | write hreply =>
    rename_i i n id w rest
    refine ⟨L, h.guarded, h.owned, h.stored, h.messages, h.waiters, fun reply hmem x hx => ?_,
      fun o ho c hc => ?_⟩
    · obtain ⟨before, hbefore, hid, y, hy, hfd, hkind⟩ :=
        due_of_set hreply (fun x => of_mem_restOf) hmem hx
      rw [← hid, ← hfd, ← hkind]
      exact h.writes before hbefore y hy
    · rcases List.mem_append.mp ho with ho | ho
      · exact h.outputs o ho c hc
      · obtain rfl := List.mem_singleton.mp ho
        -- what is on the descriptor is the connection that it was given to
        obtain ⟨c', hdue, hreach⟩ :=
          h.writes _ (List.mem_of_getElem? hreply) w List.mem_cons_self
        cases hdue.leads _ hc
        exact hreach
  | fail hreply =>
    rename_i i skipped id w rest
    refine ⟨L, h.guarded, h.owned, h.stored, h.messages, h.waiters, fun reply hmem x hx => ?_,
      h.outputs⟩
    obtain ⟨before, hbefore, hid, y, hy, hfd, hkind⟩ :=
      due_of_set hreply (fun x hx => Or.inl (List.mem_of_mem_drop hx)) hmem hx
    rw [← hid, ← hfd, ← hkind]
    exact h.writes before hbefore y hy

theorem routed_start {files : List (Int × Endpoint)} {buckets : Nat} {config : Config} {t : HTable}
    (hcreate : htableCreate buckets config = .ok t) :
    Routed P (start files t) (List.replicate buckets []) := by
  refine ⟨Receiver.guarded_start files, Receiver.owned_start files, stored_create hcreate, nofun,
    fun key f hf => ?_, nofun, nofun⟩
  simp [fileAt, lookup] at hf

/-! ## 3. The runs -/

/-- In every run in which `accept` gives no number that is still in use, a byte that a handler writes
goes to the connection that sent the message or to none; the byte for the new owner of a lock goes to
a connection that asked for this lock, or to none. -/
theorem outputs_routed {files : List (Int × Endpoint)} {buckets : Nat} {config : Config}
    {tr : List (System × Event)} (hrun : Runs P sent files buckets config tr s)
    (hunused : ∀ x ∈ tr, x.1.AcceptsUnused P x.2) :
    ∀ o ∈ s.outputs, ∀ c, o.dest = some (.connection c) → s.MayReach o.message o.kind c := by
  obtain ⟨-, t₀, hcreate, run⟩ := hrun
  obtain ⟨L, h⟩ := run.invariant (fun s => ∃ L, Routed P s L) (AcceptsUnused P)
    ⟨_, routed_start hcreate⟩ (fun _ _ _ ⟨_, h⟩ hok hnext => h.step hok (step_of_next hnext)) hunused
  exact h.outputs

/-- Two connections, on the descriptors 4 and 5. -/
def twoConnections : List KernelAnswer :=
  [.go, .events true [], .accepted 4, .go, .go, .go, .go,
    .go, .go, .events true [.none], .accepted 5, .go, .go, .go, .go, .go, .go]

/-- A call of `receiver_poll` that reads `chunk` from the first of two connections, or the second. -/
def pollTwo (first : Bool) (chunk : List UInt8) : List KernelAnswer :=
  [.go, .go, .go, .events false (if first then [.pollin, .none] else [.none, .pollin]),
    .go, .go, .go, .go] ++ if first then [.data chunk, .go, .go] else [.go, .data chunk, .go]

/-- Two calls that read the message with this payload. -/
def readTwo (first : Bool) (payload : List UInt8) : List Event :=
  (pollTwo first ((frame payload).take 16) ++ pollTwo first payload).map .receive

/-- 0 creates `a` and locks it, 1 asks for the lock, and 0 unlocks the file. -/
def handOver : List Event :=
  twoConnections.map .receive ++ readTwo true [5, 97] ++ [.take 0 [], .write 0 1] ++
    readTwo false [10, 97] ++ [.take 1 [], .write 1 1] ++
    readTwo true [11, 97] ++ [.take 2 [], .write 2 1, .write 2 1]

def handOverSent (c : Nat) : List UInt8 :=
  if c = 0 then frame [5, 97] ++ frame [11, 97] else frame [10, 97]

/-- There is no file, no message and nothing to write, and no entry has the number. -/
def idle (s : System) : Event → Bool
  | .receive (.accepted fd) =>
      s.receiver.activeSockets.all (fun x => x.fd ≠ fd ∧ x.fd ≠ -fd) && s.receiver.handed.isEmpty &&
        s.replies.isEmpty && s.table.buckets.all (·.head.isNone)
  | _ => true

theorem fetchFile_of_empty {t : HTable} (hempty : t.buckets.all (·.head.isNone)) {key : CStr}
    {f : File} : htableFetchFile P t key ≠ .ok (some f) := by
  intro hx
  obtain ⟨node, hnode, hx⟩ := Exec.bind_eq_ok.mp hx
  obtain ⟨bucket, hbucket, hnode⟩ := Exec.bind_eq_ok.mp hnode
  unfold HTable.bucket at hbucket
  split at hbucket
  · rename_i hsome
    obtain rfl := Except.ok.inj hbucket
    have hnone := List.all_eq_true.mp hempty _ (List.mem_of_getElem? hsome)
    rw [Option.isNone_iff_eq_none.mp hnone, fetchLoop] at hnode
    obtain rfl := Except.ok.inj hnode
    cases hx
  · cases hbucket

theorem acceptsUnused_of_idle (h : s.idle e = true) : s.AcceptsUnused P e := by
  rintro fd rfl
  simp only [idle, Bool.and_eq_true, List.isEmpty_iff] at h
  obtain ⟨⟨⟨hentries, hhanded⟩, hreplies⟩, hbuckets⟩ := h
  refine ⟨fun fd' heq socket hsocket => ?_, fun id x hx => ?_, fun reply hreply => ?_,
    fun key f hf => absurd hf (fetchFile_of_empty hbuckets)⟩
  · cases heq
    obtain ⟨hne, hback⟩ := of_decide_eq_true (List.all_eq_true.mp hentries socket hsocket)
    exact ⟨hne, fun hsame => absurd hsame hback⟩
  · rw [hhanded] at hx
    cases hx
  · rw [hreplies] at hreply
    exact absurd hreply List.not_mem_nil

theorem outputs_routed_hand_over :
    ∃ tr s, Runs samplePlatform handOverSent Receiver.usualFiles 1 ⟨10, 10, .fifo⟩ tr s ∧
      s.outputs.length = 4 ∧ ∀ o ∈ s.outputs, ∀ c, o.dest = some (.connection c) →
        s.MayReach o.message o.kind c := by
  obtain ⟨tr, s, hrun, htest⟩ := runs_of_events samplePlatform handOverSent 1 ⟨10, 10, .fifo⟩ handOver
    (fun tr s => s.outputs.length == 4 && tr.all fun x => x.1.idle x.2) (by decide +kernel)
  rw [Bool.and_eq_true, beq_iff_eq, List.all_eq_true] at htest
  exact ⟨tr, s, hrun, htest.1,
    outputs_routed hrun fun x hx => acceptsUnused_of_idle (htest.2 x hx)⟩

/-- 0 sends a message on descriptor 4 and hangs up before a worker has taken it; 1 is accepted on the
same descriptor, and the answer goes there. -/
example : ((htableCreate 1 ⟨10, 10, .fifo⟩).toOption.bind fun t =>
    replay (next samplePlatform fun _ => frame [5, 97]) (start Receiver.usualFiles t)
      (List.map Event.receive ([.go, .events true [], .accepted 4, .go, .go, .go, .go] ++
        Receiver.pollOne ((frame [5, 97]).take 16) ++ Receiver.pollOne [5, 97] ++
        [.go, .go, .events false [.other], .go, .go, .go, .go,
          .go, .go, .events true [], .accepted 4]) ++ [.take 0 [], .write 0 1])).any
    (fun x => x.2.outputs.any fun o => o.dest == some (.connection 1) &&
      x.2.receiver.handed[o.message]?.any (·.conn == 0)) = true := by decide +kernel

/-- When 0 unlocks the file, 1 is sent a byte. -/
theorem grant_reaches_waiter :
    ¬∀ (P : Platform) (sent : Nat → List UInt8) (files : List (Int × Endpoint)) (buckets : Nat)
      (config : Config) (tr : List (System × Event)) (s : System),
      Runs P sent files buckets config tr s → ∀ o ∈ s.outputs, ∀ c, o.dest = some (.connection c) →
        ∃ h, s.receiver.handed[o.message]? = some h ∧ h.conn = c := by
  intro hclaim
  obtain ⟨tr, s, hrun, htest⟩ := runs_of_events samplePlatform handOverSent 1 ⟨10, 10, .fifo⟩ handOver
    (fun _ s => s.outputs.any fun o => o.dest == some (.connection 1) &&
      s.receiver.handed[o.message]?.all (·.conn == 0)) (by decide +kernel)
  obtain ⟨o, ho, htest⟩ := List.any_eq_true.mp htest
  rw [Bool.and_eq_true, beq_iff_eq] at htest
  obtain ⟨h, hmessage, hconn⟩ := hclaim _ _ _ _ _ _ _ hrun o ho 1 htest.1
  have hzero := htest.2
  rw [hmessage, Option.all_some, beq_iff_eq, hconn] at hzero
  cases hzero

end System

end FileStorage.Server
