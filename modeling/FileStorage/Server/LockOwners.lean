import FileStorage.Server.Routing
import Mathlib.Data.List.Forall2

/-!
# LockOwners — on whose strength a file is locked

The table knows an owner and a waiter by a descriptor number.  The tickets say which message asked
for the lock, so that it can be stated whether the number still stands for the connection that sent
it.  Nothing takes a lock away from a connection that is gone: this is left to the clients.
-/

namespace FileStorage.Server

/-! ## 1. Tickets -/

/-- The operations by which a lock is asked for. -/
def Op.asksForLock : Op → Prop
  | .create _ _ withLock | .open _ _ withLock => withLock = true
  | .lock _ _ => True
  | _ => False

/-- The owner of the file and every waiter has a ticket, and `B` holds between the two. -/
structure Tickets.Match (B : Nat → Int → Prop) (k : Tickets) (f : File) : Prop where
  owner : f.isLocked → ∃ id, k.owner = some id ∧ B id f.fdOwner
  waiters : List.Forall₂ B k.waiters f.subs

section

variable {B : Nat → Int → Prop} {k : Tickets} {f g : File} {o : Op} {id : Nat} {fd : Int}
  {code : HTableError} {newOwner : Int} {evicted : List File}

theorem Tickets.Match.imp {B' : Nat → Int → Prop} (h : k.Match B f)
    (howner : f.isLocked → ∀ id, B id f.fdOwner → B' id f.fdOwner)
    (hwaiters : ∀ fd ∈ f.subs, ∀ id, B id fd → B' id fd) : k.Match B' f := by
  refine ⟨fun hlocked => ?_, ?_⟩
  · obtain ⟨id, hid, hb⟩ := h.owner hlocked
    exact ⟨id, hid, howner hlocked id hb⟩
  · obtain ⟨hlength, hall⟩ := List.forall₂_iff_zip.mp h.waiters
    refine List.forall₂_iff_zip.mpr ⟨hlength, fun hmem => ?_⟩
    exact hwaiters _ (List.of_mem_zip hmem).2 _ (hall hmem)

/-- An operation that is refused leaves the tickets as they are. -/
theorem Op.tickets_of_refuse (h : o.verdict (some f) = .refuse code) :
    o.tickets id ⟨code, newOwner, evicted⟩ k = k := by
  cases o <;> simp only [Op.verdict] at h <;> grind [Op.tickets]

/-- A new file is locked for who created it. -/
theorem Tickets.match_create (h : o.verdict none = .put code newOwner g) (hissued : o.issuedBy fd)
    (hasks : o.asksForLock → B id fd) : (o.tickets id ⟨code, newOwner, evicted⟩ k).Match B g := by
  cases o with
  | create key fd' withLock =>
    cases h
    obtain rfl : fd' = fd := hissued
    refine ⟨fun hlocked => ⟨id, ?_, hasks hlocked⟩, .nil⟩
    show (if withLock then some id else none) = some id
    rw [if_pos (show withLock = true from hlocked)]
  | «open» | close | lock | unlock | remove | replace | append => cases h

/-- The tickets follow the file. -/
theorem Tickets.Match.verdict (hk : k.Match B f) (h : o.verdict (some f) = .put code newOwner g)
    (hissued : o.issuedBy fd) (hasks : o.asksForLock → B id fd) :
    (o.tickets id ⟨code, newOwner, evicted⟩ k).Match B g := by
  cases o with
  | create | remove =>
    simp only [Op.verdict] at h
    first | cases h | (split at h <;> cases h)
  | «open» key fd' withLock =>
    obtain rfl : fd' = fd := hissued
    simp only [Op.verdict] at h
    split at h
    · cases h
    · split at h
      · cases h
      · cases h
        refine ⟨fun hlocked => ⟨id, ?_, hasks hlocked⟩, hk.waiters⟩
        show (if withLock then some id else none) = some id
        rw [if_pos (show withLock = true from hlocked)]
  | close key fd' =>
    simp only [Op.verdict] at h
    split at h
    · cases h
    · split at h
      · cases h
      · cases h
        exact ⟨hk.owner, hk.waiters⟩
  | lock key fd' =>
    obtain rfl : fd' = fd := hissued
    simp only [Op.verdict] at h
    split at h
    · -- one more waiter
      cases h
      exact ⟨hk.owner, .cons (hasks trivial) hk.waiters⟩
    · split at h
      · cases h
      · cases h
        exact ⟨fun _ => ⟨id, rfl, hasks trivial⟩, hk.waiters⟩
  | unlock key fd' =>
    have hwaiters := hk.waiters
    simp only [Op.verdict] at h
    split at h
    · cases h
    · split at h
      · cases h
      · split at h
        · rename_i hsubs
          cases h
          rw [hsubs, List.forall₂_nil_right_iff] at hwaiters
          refine ⟨fun hlocked => Bool.noConfusion hlocked, ?_⟩
          show List.Forall₂ B k.waiters.tail f.subs
          rw [hsubs, hwaiters]
          exact .nil
        · -- the first waiter is the new owner
          rename_i sub rest hsubs
          cases h
          rw [hsubs] at hwaiters
          obtain ⟨w, ws, hb, hrest, hcons⟩ := List.forall₂_cons_right_iff.mp hwaiters
          refine ⟨fun _ => ⟨w, ?_, hb⟩, ?_⟩
          · show k.waiters.head? = some w
            rw [hcons]
            rfl
          · show List.Forall₂ B k.waiters.tail rest
            rw [hcons]
            exact hrest
  | replace | append =>
    cases h
    exact ⟨hk.owner, hk.waiters⟩

/-- One operation keeps owners and waiters matched. -/
theorem MapStep.tickets {m m' : FileMap} {out : Outcome} {ks : CStr → Tickets}
    (h : MapStep m o out m') (hks : ∀ key f, m key = some f → (ks key).Match B f)
    (hissued : o.issuedBy fd) (hasks : o.asksForLock → B id fd) {key : CStr}
    (hf : m' key = some f) :
    (Function.update ks o.key (o.tickets id out (ks o.key)) key).Match B f := by
  by_cases hkey : key = o.key
  · subst hkey
    rw [Function.update_self]
    cases h with
    | refuse hverdict =>
      rw [hf] at hverdict
      rw [Op.tickets_of_refuse hverdict]
      exact hks _ f hf
    | put hverdict hev hquiet =>
      rw [hev.apply] at hf
      split at hf
      · cases hf
      · rw [Function.update_self] at hf
        cases hf
        cases hm : m o.key with
        | none =>
          rw [hm] at hverdict
          exact Tickets.match_create hverdict hissued hasks
        | some f =>
          rw [hm] at hverdict
          exact (hks _ f hm).verdict hverdict hissued hasks
    | drop hverdict =>
      rw [Function.update_self] at hf
      cases hf
  · rw [Function.update_of_ne hkey]
    rcases h.stored_before hf with hold | ⟨hsame, -⟩
    · exact hks key f hold
    · exact absurd hsame hkey

end

/-! ## 2. What the claim is about -/

/-- The message `id` came in on `fd` from a connection that still has its entry, and no connection
was given the number later. -/
def Receiver.Backs (r : Receiver) (id : Nat) (fd : Int) : Prop :=
  ∃ h, r.handed[id]? = some h ∧ h.fd = fd ∧ (∀ c, r.kernel.accepted[c]? = some fd → c ≤ h.conn) ∧
    r.Active h.conn

theorem Receiver.Backs.step {P : Platform} {sent : Nat → List UInt8} {r r' : Receiver}
    {answer : KernelAnswer} {id : Nat} {fd : Int} (hb : r.Backs id fd) (howned : r.Owned)
    (hstep : Step sent P r answer r') (hfresh : ∀ fd', answer = .accepted fd' → fd ≠ fd')
    (hkept : ∀ h, r.handed[id]? = some h → ∀ i socket, answer = .go → r.point = .cleanup i →
      r.activeSockets[i]? = some socket → socket.fd < 0 → socket.conn ≠ h.conn) : r'.Backs id fd := by
  obtain ⟨h, hmessage, hfd, hlatest, hactive⟩ := hb
  obtain ⟨new, hhanded, -⟩ := howned.handed_step hstep
  refine ⟨h, ?_, hfd, hstep.latest hlatest hfresh, hstep.active hactive (hkept h hmessage)⟩
  exact System.getElem?_of_prefix ⟨new, hhanded.symm⟩ hmessage

namespace System

/-- Every lock and every place among the waiters belongs to a connection that asked for it and is
still there: no later connection is on its descriptor. -/
def LocksBelong (P : Platform) (s : System) : Prop :=
  ∀ key f, htableFetchFile P s.table key = .ok (some f) →
    (s.tickets key).Match s.receiver.Backs f

/-- A file is locked by the descriptor `fd`, or lists it as a waiter. -/
def HoldsLock (P : Platform) (s : System) (fd : Int) : Prop :=
  ∃ key f, htableFetchFile P s.table key = .ok (some f) ∧
    (f.isLocked ∧ f.fdOwner = fd ∨ fd ∈ f.subs)

/-- A message that no worker has taken yet asks for a lock. -/
def AsksForLock (s : System) (id : Nat) (h : HandedOver) : Prop :=
  s.receiver.handed[id]? = some h ∧ id ∉ s.taken ∧
    ∃ o, messageOp h.fd h.buffer.raw = some o ∧ o.asksForLock

/-- The condition on a step: a number that holds or asks for a lock is not given away, and a
connection that does is not removed. -/
structure Releases (P : Platform) (s : System) (e : Event) : Prop where
  accept : ∀ fd, e = .receive (.accepted fd) → s.receiver.AcceptsFresh (.accepted fd) ∧
    ¬s.HoldsLock P fd ∧ ∀ id h, s.AsksForLock id h → h.fd ≠ fd
  remove : ∀ i socket, e = .receive .go → s.receiver.point = .cleanup i →
    s.receiver.activeSockets[i]? = some socket → socket.fd < 0 →
      (∀ fd, s.receiver.kernel.accepted[socket.conn]? = some fd → ¬s.HoldsLock P fd) ∧
        ∀ id h, s.AsksForLock id h → h.conn ≠ socket.conn

/-! ## 3. The invariant -/

structure Backed (P : Platform) (s : System) (L : Contents) : Prop where
  guarded : s.receiver.Guarded
  owned : s.receiver.Owned
  stored : Stored P s.table L
  files : ∀ key f, fileAt L key = some f → (s.tickets key).Match s.receiver.Backs f
  asks : ∀ id h, s.AsksForLock id h → s.receiver.Backs id h.fd

variable {P : Platform} {sent : Nat → List UInt8} {s s' : System} {e : Event} {L : Contents}

theorem Backed.receive (h : Backed P s L) {answer : KernelAnswer} {r : Receiver}
    (hok : s.Releases P (.receive answer)) (hstep : Receiver.Step sent P s.receiver answer r) :
    Backed P { s with receiver := r } L := by
  have hfresh : s.receiver.AcceptsFresh answer := by
    rintro fd rfl
    exact (hok.accept fd rfl).1 fd rfl
  -- a ticket whose number holds a lock
  have hheld : ∀ {id : Nat} {fd : Int}, s.HoldsLock P fd → s.receiver.Backs id fd → r.Backs id fd := by
    intro id fd hholds hb
    refine hb.step h.owned hstep (fun fd' heq hsame => ?_) fun x hx i socket heq hat hsocket hdead => ?_
    · subst hsame
      exact (hok.accept fd (heq ▸ rfl)).2.1 hholds
    · intro hconn
      obtain ⟨y, hy, hfd, -⟩ := hb
      obtain rfl := Option.some.inj (hx.symm.trans hy)
      refine (hok.remove i socket (heq ▸ rfl) hat hsocket hdead).1 fd ?_ hholds
      rw [hconn, ← hfd]
      exact h.owned.tagged x (List.mem_of_getElem? hx)
  obtain ⟨new, hhanded, hnew⟩ := h.owned.handed_step hstep
  refine ⟨h.guarded.step hstep, h.owned.step h.guarded hfresh hstep, h.stored, fun key f hf => ?_,
    fun id x hasks => ?_⟩
  · have hfetch : htableFetchFile P s.table key = .ok (some f) := by rw [h.stored.fetchFile, hf]
    refine (h.files key f hf).imp (fun hlocked id => ?_) fun fd hfd id => ?_
    · exact hheld ⟨key, f, hfetch, Or.inl ⟨hlocked, rfl⟩⟩
    · exact hheld ⟨key, f, hfetch, Or.inr hfd⟩
  · obtain ⟨hmessage, hid, hop⟩ := hasks
    change r.handed[id]? = some x at hmessage
    rw [hhanded] at hmessage
    rcases Nat.lt_or_ge id s.receiver.handed.length with hold | hlate
    · rw [List.getElem?_append_left hold] at hmessage
      have hasks : s.AsksForLock id x := ⟨hmessage, hid, hop⟩
      refine (h.asks id x hasks).step h.owned hstep (fun fd' heq => ?_)
        fun y hy i socket heq hat hsocket hdead => ?_
      · exact (hok.accept fd' (heq ▸ rfl)).2.2 id x hasks
      · obtain rfl := Option.some.inj (hy.symm.trans hmessage)
        exact Ne.symm ((hok.remove i socket (heq ▸ rfl) hat hsocket hdead).2 id y hasks)
    · -- it was handed over just now
      obtain ⟨hgave, hactive⟩ := hnew x (by
        rw [List.getElem?_append_right hlate] at hmessage
        exact List.mem_of_getElem? hmessage)
      exact ⟨x, by rw [hhanded]; exact hmessage, rfl, hgave.latest, hactive⟩

theorem Backed.take (h : Backed P s L) {id : Nat} {rands : List Nat} {x : HandedOver}
    {writes : List Write} {t : HTable} (hmessage : s.receiver.handed[id]? = some x)
    (hfresh : id ∉ s.taken)
    (hx : workerHandleMessage P s.table x.fd x.buffer.raw rands = .ok (writes, t))
    {replies : List Reply} :
    ∃ L', Backed P { s with
      table := t
      taken := s.taken ++ [id]
      replies
      tickets := s.ticketsAfter P id x rands } L' := by
  have hasks : ∀ {t : HTable} {tickets : CStr → Tickets} (id' : Nat) (y : HandedOver),
      AsksForLock { s with table := t, taken := s.taken ++ [id], replies, tickets } id' y →
        s.receiver.Backs id' y.fd := fun id' y hasks =>
    h.asks id' y ⟨hasks.1, fun hmem => hasks.2.1 (List.mem_append_left _ hmem), hasks.2.2⟩
  rcases workerHandleMessage_cases hx with ⟨hop, rfl, -⟩ | ⟨o, out, hop, hexec, -⟩
  · refine ⟨L, h.guarded, h.owned, h.stored, fun key f hf => ?_, hasks⟩
    have hsame : s.ticketsAfter P id x rands = s.tickets := by simp only [ticketsAfter, hop]
    show ((s.ticketsAfter P id x rands) key).Match _ f
    rw [hsame]
    exact h.files key f hf
  · obtain ⟨L', heffect⟩ := effect_of_exec h.stored hexec
    refine ⟨L', h.guarded, h.owned, heffect.stored h.stored, fun key f hf => ?_, hasks⟩
    show ((s.ticketsAfter P id x rands) key).Match _ f
    rw [ticketsAfter_of_exec hop hexec]
    exact (heffect.mapStep h.stored).tickets h.files (messageOp_issuedBy hop)
      (fun hlock => h.asks id x ⟨hmessage, hfresh, o, hop, hlock⟩) hf

theorem Backed.step (h : Backed P s L) (hok : s.Releases P e) (hstep : Step P sent s e s') :
    ∃ L', Backed P s' L' := by
  cases hstep with
  | receive hstep => exact ⟨L, h.receive hok hstep⟩
  | take hmessage hfresh hx => exact h.take hmessage hfresh hx
  | write hreply => exact ⟨L, h.guarded, h.owned, h.stored, h.files, h.asks⟩
  | fail hreply => exact ⟨L, h.guarded, h.owned, h.stored, h.files, h.asks⟩

theorem backed_start {files : List (Int × Endpoint)} {buckets : Nat} {config : Config} {t : HTable}
    (hcreate : htableCreate buckets config = .ok t) :
    Backed P (start files t) (List.replicate buckets []) := by
  refine ⟨Receiver.guarded_start files, Receiver.owned_start files, stored_create hcreate,
    fun key f hf => ?_, fun id h hasks => ?_⟩
  · simp [fileAt, lookup] at hf
  · cases hasks.1

theorem Backed.locksBelong (h : Backed P s L) : s.LocksBelong P := by
  intro key f hf
  rw [h.stored.fetchFile, Except.ok.injEq] at hf
  exact h.files key f hf

/-! ## 4. The runs -/

/-- In every run in which no number that holds or asks for a lock is given away, and no connection
that does is removed, every lock belongs to a connection that asked for it and is still there. -/
theorem locks_belong {files : List (Int × Endpoint)} {buckets : Nat} {config : Config}
    {tr : List (System × Event)} (hrun : Runs P sent files buckets config tr s)
    (hok : ∀ x ∈ tr, x.1.Releases P x.2) : ∀ s' ∈ statesOf tr s, s'.LocksBelong P := by
  obtain ⟨-, t₀, hcreate, run⟩ := hrun
  have hinv := run.invariant_states (fun s => ∃ L, Backed P s L) (Releases P)
    ⟨_, backed_start hcreate⟩ (fun _ _ _ ⟨_, h⟩ hok hnext => h.step hok (step_of_next hnext)) hok
  intro s' hs'
  obtain ⟨L, h⟩ := hinv s' hs'
  exact h.locksBelong

/-- No file is stored, and all messages were taken. -/
def settled (s : System) : Bool :=
  s.table.buckets.all (·.head.isNone) && (List.range s.receiver.handed.length).all (· ∈ s.taken)

theorem not_holdsLock_of_settled (h : s.settled = true) (fd : Int) : ¬s.HoldsLock P fd := by
  rw [settled, Bool.and_eq_true] at h
  rintro ⟨key, f, hf, -⟩
  exact fetchFile_of_empty h.1 hf

theorem not_asksForLock_of_settled (h : s.settled = true) (id : Nat) (x : HandedOver) :
    ¬s.AsksForLock id x := by
  rw [settled, Bool.and_eq_true] at h
  rintro ⟨hmessage, hid, -⟩
  have hrange := List.mem_range.mpr (List.getElem?_eq_some_iff.mp hmessage).1
  exact hid (of_decide_eq_true (List.all_eq_true.mp h.2 id hrange))

/-- Numbers are given away and entries removed in settled states only. -/
def tidy (s : System) : Event → Bool
  | .receive (.accepted fd) =>
      s.receiver.activeSockets.all (fun x => x.fd ≠ fd ∧ x.fd ≠ -fd) && s.settled
  | .receive .go =>
      match s.receiver.point with
      | .cleanup i => s.receiver.activeSockets[i]?.all fun x => 0 ≤ x.fd || s.settled
      | _ => true
  | _ => true

theorem releases_of_tidy (h : s.tidy e = true) : s.Releases P e := by
  constructor
  · rintro fd rfl
    simp only [tidy, Bool.and_eq_true] at h
    obtain ⟨hentries, hsettled⟩ := h
    refine ⟨fun fd' heq socket hsocket => ?_, not_holdsLock_of_settled hsettled fd,
      fun id x hasks => absurd hasks (not_asksForLock_of_settled hsettled id x)⟩
    cases heq
    obtain ⟨hne, hback⟩ := of_decide_eq_true (List.all_eq_true.mp hentries socket hsocket)
    exact ⟨hne, fun hsame => absurd hsame hback⟩
  · rintro i socket rfl hat hsocket hdead
    simp only [tidy, hat, hsocket, Option.all_some, Bool.or_eq_true, decide_eq_true_eq] at h
    have hsettled := h.resolve_left (Int.not_le.mpr hdead)
    exact ⟨fun fd _ => not_holdsLock_of_settled hsettled fd,
      fun id x hasks => absurd hasks (not_asksForLock_of_settled hsettled id x)⟩

/-- A connection on the descriptor 4 sends a message with this payload. -/
def readOne (payload : List UInt8) : List Event :=
  (Receiver.pollOne ((frame payload).take 16) ++ Receiver.pollOne payload).map .receive

def acceptOne : List Event :=
  [KernelAnswer.go, .events true [], .accepted 4, .go, .go, .go, .go].map .receive

/-- The only connection hangs up, its entry is removed and another is accepted. -/
def replaceOne : List Event :=
  [KernelAnswer.go, .go, .events false [.other], .go, .go, .go, .go, .go, .go, .events true [],
    .accepted 4].map .receive

/-- 0 creates `a` and locks it, and removes it before it hangs up. -/
theorem locks_belong_removed :
    ∃ tr s, Runs samplePlatform (fun _ => frame [5, 97] ++ frame [13, 97]) Receiver.usualFiles 1
      ⟨10, 10, .fifo⟩ tr s ∧ s.receiver.kernel.accepted = [4, 4] ∧
        ∀ s' ∈ statesOf tr s, s'.LocksBelong samplePlatform := by
  obtain ⟨tr, s, hrun, htest⟩ := runs_of_events samplePlatform
    (fun _ => frame [5, 97] ++ frame [13, 97]) 1 ⟨10, 10, .fifo⟩
    (acceptOne ++ readOne [5, 97] ++ [.take 0 []] ++ readOne [13, 97] ++ [.take 1 []] ++ replaceOne)
    (fun tr s => s.receiver.kernel.accepted == [4, 4] && tr.all fun x => x.1.tidy x.2)
    (by decide +kernel)
  rw [Bool.and_eq_true, beq_iff_eq, List.all_eq_true] at htest
  exact ⟨tr, s, hrun, htest.1, locks_belong hrun fun x hx => releases_of_tidy (htest.2 x hx)⟩

/-- 0 creates `a`, locks it and hangs up.  The file stays locked, and 1, which is given the same
descriptor, passes for the owner. -/
theorem lock_outlives_connection :
    ¬∀ (P : Platform) (sent : Nat → List UInt8) (files : List (Int × Endpoint)) (buckets : Nat)
      (config : Config) (tr : List (System × Event)) (s : System),
      Runs P sent files buckets config tr s → ∀ s' ∈ statesOf tr s, s'.LocksBelong P := by
  intro hclaim
  obtain ⟨tr, s, hrun, htest⟩ := runs_of_events samplePlatform (fun _ => frame [5, 97]) 1
    ⟨10, 10, .fifo⟩ (acceptOne ++ readOne [5, 97] ++ [.take 0 []] ++ replaceOne)
    (fun _ s => (htableFetchFile samplePlatform s.table (bufToStr [97])).anySome (fun f =>
        f.isLocked && f.fdOwner == 4) &&
      s.receiver.kernel.accepted[1]? == some 4 && s.receiver.handed.all (·.conn == 0))
    (by decide +kernel)
  simp only [Bool.and_eq_true, beq_iff_eq, List.all_eq_true] at htest
  obtain ⟨⟨hfile, hgiven⟩, hsenders⟩ := htest
  obtain ⟨f, hf, hfile⟩ := Exec.anySome_eq_true.mp hfile
  rw [Bool.and_eq_true, beq_iff_eq] at hfile
  have hmatch := hclaim _ _ _ _ _ _ _ hrun s (by simp [statesOf]) _ f hf
  obtain ⟨id, -, h, hmessage, -, hlatest, -⟩ := hmatch.owner hfile.1
  have hle := hlatest 1 (by rw [hfile.2]; exact hgiven)
  rw [hsenders h (List.mem_of_getElem? hmessage)] at hle
  exact absurd hle (by decide)

end System

end FileStorage.Server
