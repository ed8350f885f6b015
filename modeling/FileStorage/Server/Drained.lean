import FileStorage.Server.Delivery

/-!
# Drained — the last messages of a connection that is dropped

A connection is dropped at once when `poll` reports anything besides data to read, and together with
data too.  What was not read by then is lost, also when it is a whole message.
-/

namespace FileStorage.Server.Receiver

variable {P : Platform} {ms : Nat → List (List UInt8)} {sent : Nat → List UInt8} {r r' : Receiver}
  {answer : KernelAnswer} {tr : List (Receiver × KernelAnswer)} {files : List (Int × Endpoint)}
  {events : List Revents} {socket socket' : ActiveSocket} {c i : Nat}

/-! ## 1. What the claim is about -/

/-- The connection has an entry with a descriptor. -/
def Connected (r : Receiver) (c : Nat) : Prop :=
  ∃ socket ∈ r.activeSockets, socket.conn = c ∧ 0 ≤ socket.fd

/-- When a step drops a connection all its messages have been handed over, and they stay so. -/
def Drained (sent : Nat → List UInt8) (P : Platform) (ms : Nat → List (List UInt8))
    (tr : List (Receiver × KernelAnswer)) (r : Receiver) : Prop :=
  ∀ x ∈ tr, ∀ r', x.1.next sent P x.2 = .ok (some r') → ∀ c, x.1.Connected c → ¬ r'.Connected c →
    x.1.handedFor c = ms c ∧ r.handedFor c = ms c

/-- The first entry for which `poll` reports something besides data to read: the loop over the events
returns there, and what was reported for the others is forgotten. -/
def firstOther (sockets : List ActiveSocket) (revents : List Revents) : Option ActiveSocket :=
  ((sockets.zip revents).find? (·.2 = .other)).map Prod.fst

/-- The condition on what the kernel answers: it ends a connection when all that its client sent was
read. -/
structure EndsAfterAll (sent : Nat → List UInt8) (r : Receiver) (answer : KernelAnswer) : Prop where
  -- 0 is its own negative, and is not dropped
  polled : r.point = .poll → ∀ hasNew revents, answer = .events hasNew revents →
    ∀ socket ∈ firstOther r.activeSockets revents, 0 < socket.fd →
      r.kernel.receivedFrom socket.conn = sent socket.conn
  read : answer = .eof ∨ answer = .failed → ∀ i socket, r.point = .read i →
    r.activeSockets[i]? = some socket → r.kernel.receivedFrom socket.conn = sent socket.conn

/-! ## 2. What was handed over -/

theorem Step.handed_grows (hstep : Step sent P r answer r') : r.handed <+: r'.handed := by
  cases hstep with
  | received => exact List.prefix_append _ _
  | moved | closed | polled | connected | accepted | validated | allValid | invalid | hungUp | skipped
  | ended => exact List.prefix_rfl

/-- Nothing that was handed over is taken back. -/
theorem handedFor_grows (hrun : Runs P sent files tr r) (c : Nat) :
    ∀ x ∈ tr, x.1.handedFor c <+: r.handedFor c := by
  have hhanded : ∀ x ∈ tr, x.1.handed <+: r.handed := by
    induction hrun.2 with
    | nil => exact nofun
    | snoc run next ih =>
      have hstep := (step_of_next next).handed_grows
      intro x hx
      rcases List.mem_append.mp hx with hx | hx
      · exact (ih ⟨hrun.1, run⟩ x hx).trans hstep
      · obtain rfl := List.mem_singleton.mp hx
        exact hstep
  exact fun x hx => ((hhanded x hx).filter _).map _

/-- All messages were handed over when the whole stream was read, and only then. -/
theorem Tracked.handedFor_eq_iff (h : Tracked ms r) (hms : Framed ms)
    (hsent : ∀ c, sent c = (ms c).flatten) (c : Nat) :
    r.handedFor c = ms c ↔ r.kernel.receivedFrom c = sent c := by
  obtain ⟨part, hread, -⟩ := h.bytes c
  rw [hsent]
  exact hread.done_eq_iff fun m hm => (hms.isFrame m hm).nonempty

theorem Tracked.handedFor_initial (h : Tracked ms r) (c : Nat) : r.handedFor c <+: ms c := by
  obtain ⟨part, hread, -⟩ := h.bytes c
  exact hread.done_initial

/-! ## 3. Which steps drop a connection -/

/-- An entry that was set aside has not dropped the others. -/
theorem Connected.of_set (hc : r.Connected c) (hsocket : r.activeSockets[i]? = some socket)
    (hsockets : r'.activeSockets = r.activeSockets.set i socket') (hne : socket.conn ≠ c) :
    r'.Connected c := by
  obtain ⟨x, hx, rfl, hopen⟩ := hc
  obtain ⟨j, hj⟩ := List.mem_iff_getElem?.mp hx
  have hij : i ≠ j := by
    rintro rfl
    exact hne (congrArg _ (Option.some.inj (hsocket.symm.trans hj)))
  refine ⟨x, ?_, rfl, hopen⟩
  rw [hsockets]
  exact List.mem_of_getElem? ((List.getElem?_set_ne hij).trans hj)

/-- The entry that loses its descriptor is the only one of its connection. -/
theorem Owned.not_connected (h : Owned r) (hsocket : r.activeSockets[i]? = some socket)
    (hsockets : r'.activeSockets = r.activeSockets.set i socket') (hconn : socket'.conn = socket.conn)
    (hdead : socket'.fd < 0) : ¬ r'.Connected socket.conn := by
  rintro ⟨x, hx, hc, hopen⟩
  rw [hsockets] at hx
  rcases of_mem_set h.conns hsocket hx with rfl | ⟨-, hne⟩
  · exact absurd hopen (Int.not_le.mpr hdead)
  · exact hne hc

/-- Only the loop over the events drops a connection: when `poll` has reported something besides data
to read, and when `read` ends or fails. -/
theorem Tracked.dropped_of_turn (hms : Framed ms) (h : Tracked ms r) (hturn : Turn sent P r answer r')
    (hc : r.Connected c) (hnot : ¬ r'.Connected c) :
    ∃ i socket, r.point = .read i ∧ r.activeSockets[i]? = some socket ∧ socket.conn = c ∧
      (socket.revents = .other ∧ 0 < socket.fd ∨ answer = .eof ∨ answer = .failed) := by
  cases hturn with
  | cleaned | kept | signalled | quiet | connected | validated | allValid | skipped | done =>
    exact absurd hc hnot
  | closed hat hsocket hdead =>
    rename_i i socket
    obtain ⟨x, hx, hconn, hopen⟩ := hc
    obtain ⟨j, hj⟩ := List.mem_iff_getElem?.mp hx
    have hij : j ≠ i := by
      rintro rfl
      rw [Option.some.inj (hsocket.symm.trans hj)] at hdead
      exact absurd hopen (Int.not_le.mpr hdead)
    -- the removed entry had no descriptor
    refine absurd ⟨x, ?_, hconn, hopen⟩ hnot
    exact (removeAt_perm hsocket).mem_iff.mpr (List.mem_eraseIdx_iff_getElem?.mpr ⟨j, hij, hj⟩)
  | polled hat hlength hpolls =>
    obtain ⟨x, hx, hconn, hopen⟩ := hc
    obtain ⟨j, hj⟩ := List.mem_iff_getElem?.mp hx
    have hlt : j < r.activeSockets.length := (List.getElem?_eq_some_iff.mp hj).1
    rename_i hasNew revents
    refine absurd ⟨{ x with revents := revents[j] }, List.mem_map.mpr ⟨(x, revents[j]), ?_, rfl⟩,
      hconn, hopen⟩ hnot
    refine List.mem_iff_getElem?.mpr ⟨j, List.getElem?_zip_eq_some.mpr ⟨hj, ?_⟩⟩
    exact List.getElem?_eq_getElem (hlength ▸ hlt)
  | accepted hat hfd hfree =>
    obtain ⟨x, hx, hconn, hopen⟩ := hc
    exact absurd ⟨x, List.mem_append_left _ hx, hconn, hopen⟩ hnot
  | invalid hat hsocket hvalid =>
    rw [h.validate hms (List.mem_of_getElem? hsocket)] at hvalid
    cases hvalid
  | hungUp hat hsocket hevents =>
    rename_i i socket
    have hconn : socket.conn = c := not_not.mp fun hne => hnot (hc.of_set hsocket rfl hne)
    refine ⟨i, socket, hat, hsocket, hconn, Or.inl ⟨hevents, Int.not_le.mp fun hle => hnot ?_⟩⟩
    -- 0 is its own negative
    refine ⟨{ socket with fd := -socket.fd }, ?_, hconn, Int.neg_nonneg.mpr hle⟩
    exact List.mem_set (List.getElem?_eq_some_iff.mp hsocket).1 _
  | ended hanswer hat hsocket hevents hbuffer hmissing =>
    rename_i i socket de
    have hconn : socket.conn = c := not_not.mp fun hne => hnot (hc.of_set hsocket rfl hne)
    exact ⟨i, socket, hat, hsocket, hconn, Or.inr hanswer⟩
  | received hat hsocket hevents hbuffer hmissing hchunk hgives hfill hdetach =>
    rename_i i socket chunk de₁ de₂ de₃ buf
    have hconn : socket.conn = c := not_not.mp fun hne => hnot (hc.of_set hsocket rfl hne)
    have hopen := h.owned.readable hat (List.mem_of_getElem? hsocket) (by rw [hevents]; nofun)
    refine absurd ⟨{ socket with deserializer := de₃, revents := .none }, ?_, hconn, hopen⟩ hnot
    exact List.mem_set (List.getElem?_eq_some_iff.mp hsocket).1 _

/-! ## 4. What `poll` has reported -/

/-- The entry at which the loop over the events will return. -/
def hangUp? (r : Receiver) : Option ActiveSocket := r.activeSockets.find? (·.revents = .other)

/-- The loop has gone past no such entry. -/
def Passed (r : Receiver) : Prop :=
  ∀ i, r.point = .read i → ∀ x ∈ r.activeSockets.take i, x.revents ≠ .other

/-- Forgetting what was no such report changes nothing. -/
theorem find?_set_of_not {α : Type} {p : α → Bool} {l : List α} {x y : α} (hx : l[i]? = some x)
    (hnx : p x = false) (hny : p y = false) : (l.set i y).find? p = l.find? p := by
  induction l generalizing i with
  | nil => rfl
  | cons a l ih =>
    cases i with
    | zero =>
      obtain rfl : a = x := Option.some.inj hx
      rw [List.set_cons_zero, List.find?_cons_of_neg (by simp [hny]),
        List.find?_cons_of_neg (by simp [hnx])]
    | succ i =>
      rw [List.set_cons_succ, List.find?_cons, List.find?_cons, ih hx]

theorem hangUp?_set (hsocket : r.activeSockets[i]? = some socket) (hevents : socket.revents ≠ .other)
    (hsockets : r'.activeSockets = r.activeSockets.set i socket') (hnone : socket'.revents = .none) :
    r'.hangUp? = r.hangUp? := by
  rw [hangUp?, hsockets]
  refine find?_set_of_not hsocket (decide_eq_false hevents) ?_
  rw [hnone]
  rfl

/-- The entry that `poll` reports so is the one that the loop will find. -/
theorem hangUp?_polled {revents : List Revents}
    (hsockets : r'.activeSockets =
      (r.activeSockets.zip revents).map fun x => { x.1 with revents := x.2 }) :
    r'.hangUp? = (firstOther r.activeSockets revents).map fun socket =>
      { socket with revents := .other } := by
  rw [hangUp?, hsockets, List.find?_map, firstOther, Option.map_map]
  show ((r.activeSockets.zip revents).find? (·.2 = .other)).map _ = _
  cases hfind : (r.activeSockets.zip revents).find? (·.2 = .other) with
  | none => rfl
  | some x =>
    have hother : x.2 = .other := by simpa using List.find?_some hfind
    simp [hother]

theorem Passed.hangUp? (h : r.Passed) (hat : r.point = .read i)
    (hsocket : r.activeSockets[i]? = some socket) (hevents : socket.revents = .other) :
    r.hangUp? = some socket := by
  obtain ⟨hi, heq⟩ := List.getElem?_eq_some_iff.mp hsocket
  have hsplit : r.activeSockets = r.activeSockets.take i ++ socket :: r.activeSockets.drop (i + 1) := by
    rw [← heq, List.cons_getElem_drop_succ, List.take_append_drop]
  rw [Receiver.hangUp?, hsplit, List.find?_append, List.find?_eq_none.mpr, Option.none_or]
  · exact List.find?_cons_of_pos (by simp [hevents])
  · intro x hx
    simpa using h i hat x hx

theorem Passed.turn (h : r.Passed) (hturn : Turn sent P r answer r') : r'.Passed := by
  have hread : ∀ {k : Nat} {x y : ActiveSocket}, r.point = .read k → r.activeSockets[k]? = some x →
      y.revents = .none → ∀ z ∈ (r.activeSockets.set k y).take (k + 1), z.revents ≠ .other := by
    intro k x y hat hx hy z hz
    rw [List.take_add_one, List.getElem?_set_self (List.getElem?_eq_some_iff.mp hx).1,
      List.take_set_of_le (Nat.le_refl k), Option.toList_some] at hz
    rcases List.mem_append.mp hz with hz | hz
    · exact h k hat z hz
    · rw [List.mem_singleton.mp hz, hy]
      nofun
  cases hturn with
  | cleaned | kept | closed | signalled | quiet | polled | connected | accepted | validated | invalid
  | hungUp | done => exact nofun
  | allValid hat hend =>
    intro i hi x hx
    cases hi
    simp at hx
  | skipped hat hsocket hevents =>
    rename_i k x
    intro i hi z hz
    cases hi
    change z ∈ r.activeSockets.take (k + 1) at hz
    rw [List.take_add_one, hsocket, Option.toList_some] at hz
    rcases List.mem_append.mp hz with hz | hz
    · exact h k hat z hz
    · rw [List.mem_singleton.mp hz, hevents]
      nofun
  | ended hanswer hat hsocket hevents hbuffer hmissing =>
    intro i hi
    cases hi
    exact hread hat hsocket rfl
  | received hat hsocket hevents hbuffer hmissing hchunk hgives hfill hdetach =>
    intro i hi
    cases hi
    exact hread hat hsocket rfl

/-- From `poll` on the loop goes to the entry that hangs up without reading from it, and drops it. -/
theorem Tracked.hangUp?_turn (hms : Framed ms) (h : Tracked ms r) (hpassed : r.Passed)
    (hlate : r.point.early = false) (hturn : Turn sent P r answer r') :
    r'.point.early = false ∧ r'.hangUp? = r.hangUp? ∧ (∀ socket ∈ r.hangUp?,
        r'.kernel.receivedFrom socket.conn = r.kernel.receivedFrom socket.conn) ∨
      r'.point.early ∧ ∀ socket ∈ r.hangUp?, ∃ i, r.activeSockets[i]? = some socket ∧
        r'.activeSockets = r.activeSockets.set i { socket with fd := -socket.fd } := by
  have hpoint : ∀ point, r.point = point → point.early = false := fun point hat => hat ▸ hlate
  cases hturn with
  | cleaned hat | kept hat | closed hat | quiet hat | polled hat => cases hpoint _ hat
  | signalled hat =>
    rw [hlate] at hat
    cases hat
  | connected | validated | allValid | skipped => exact Or.inl ⟨rfl, rfl, fun _ _ => rfl⟩
  | accepted hat hfd hfree =>
    refine Or.inl ⟨rfl, ?_, fun _ _ => rfl⟩
    -- nothing is reported for a new entry
    show (r.activeSockets ++ [_]).find? _ = _
    rw [List.find?_append, List.find?_cons_of_neg (by simp), List.find?_nil, Option.or_none]
    rfl
  | invalid hat hsocket hvalid =>
    rw [h.validate hms (List.mem_of_getElem? hsocket)] at hvalid
    cases hvalid
  | hungUp hat hsocket hevents =>
    rename_i i socket
    refine Or.inr ⟨rfl, fun x hx => ?_⟩
    obtain rfl : socket = x := Option.some.inj ((hpassed.hangUp? hat hsocket hevents).symm.trans hx)
    exact ⟨i, hsocket, rfl⟩
  | ended hanswer hat hsocket hevents hbuffer hmissing =>
    exact Or.inl ⟨rfl, hangUp?_set hsocket (by rw [hevents]; nofun) rfl rfl, fun _ _ => rfl⟩
  | received hat hsocket hevents hbuffer hmissing hchunk hgives hfill hdetach =>
    rename_i i socket chunk de₁ de₂ de₃ buf
    refine Or.inl ⟨rfl, hangUp?_set hsocket (by rw [hevents]; nofun) rfl rfl, fun x hx => ?_⟩
    have hmem := List.mem_of_getElem? hsocket
    have hopen := h.owned.readable hat hmem (by rw [hevents]; nofun)
    have hendpoint := (h.owned.opened socket hmem hopen).endpoint_of_gives hgives
    -- the bytes come from another connection
    refine Kernel.receivedFrom_read_of_ne hendpoint fun hconn => ?_
    have hother : x.revents = .other := by simpa using List.find?_some hx
    have heq := List.inj_on_of_nodup_map h.owned.conns (List.mem_of_find?_eq_some hx) hmem hconn
    rw [heq, hevents] at hother
    cases hother
  | done hat hend =>
    rename_i i
    refine Or.inr ⟨rfl, fun x hx => ?_⟩
    have hlength := List.getElem?_eq_none_iff.mp hend
    have hmem : x ∈ r.activeSockets.take i := by
      rw [List.take_of_length_le hlength]
      exact List.mem_of_find?_eq_some hx
    exact absurd (by simpa using List.find?_some hx) (hpassed i hat x hmem)

/-! ## 5. The steps -/

/-- In every state of a run in which the kernel ends a connection only after all its bytes. -/
structure Heralded (sent : Nat → List UInt8) (ms : Nat → List (List UInt8)) (r : Receiver) : Prop where
  tracked : Tracked ms r
  passed : r.Passed
  ends : r.point.early = false → ∀ socket ∈ r.hangUp?, 0 < socket.fd →
    r.kernel.receivedFrom socket.conn = sent socket.conn

/-- `poll` has reported a hang-up for a connection with bytes to read. -/
structure Lost (sent : Nat → List UInt8) (ms : Nat → List (List UInt8)) (c : Nat) (r : Receiver) :
    Prop where
  tracked : Tracked ms r
  passed : r.Passed
  late : r.point.early = false
  entry : ∃ socket ∈ r.hangUp?, 0 < socket.fd ∧ socket.conn = c
  unread : r.kernel.receivedFrom c ≠ sent c

theorem Heralded.step (hms : Framed ms) (hsent : ∀ c, sent c = (ms c).flatten)
    (h : Heralded sent ms r) (hunused : r.AcceptsUnused answer) (hends : EndsAfterAll sent r answer)
    (hx : r.next sent P answer = .ok (some r')) : Heralded sent ms r' := by
  have hturn := turn_of_next hx
  refine ⟨h.tracked.step hms hsent hunused (step_of_next hx), h.passed.turn hturn,
    fun hlate' socket hsocket hfd => ?_⟩
  by_cases hlate : r.point.early = false
  · rcases h.tracked.hangUp?_turn hms h.passed hlate hturn with ⟨-, hsame, hreceived⟩ | ⟨hearly, -⟩
    · rw [hsame] at hsocket
      rw [hreceived socket hsocket]
      exact h.ends hlate socket hsocket hfd
    · rw [hlate'] at hearly
      cases hearly
  · -- `poll` has returned
    rw [Bool.not_eq_false] at hlate
    cases hturn with
    | cleaned | kept | closed | signalled | quiet | invalid | hungUp | done => cases hlate'
    | polled hat hlength hpolls =>
      rw [hangUp?_polled rfl] at hsocket
      obtain ⟨x, hfirst, rfl⟩ := Option.map_eq_some_iff.mp hsocket
      exact hends.polled hat _ _ rfl x hfirst hfd
    | connected hat | accepted hat | validated hat | allValid hat | skipped hat | ended _ hat
    | received hat =>
      rw [hat] at hlate
      cases hlate

/-- A connection that is dropped then was read to its end. -/
theorem Heralded.read_of_dropped (hms : Framed ms) (h : Heralded sent ms r)
    (hends : EndsAfterAll sent r answer) (hx : r.next sent P answer = .ok (some r'))
    (hc : r.Connected c) (hnot : ¬ r'.Connected c) : r.kernel.receivedFrom c = sent c := by
  obtain ⟨i, socket, hat, hsocket, rfl, hwhy⟩ :=
    h.tracked.dropped_of_turn hms (turn_of_next hx) hc hnot
  rcases hwhy with ⟨hother, hfd⟩ | hanswer
  · exact h.ends (by rw [hat]; rfl) socket (h.passed.hangUp? hat hsocket hother) hfd
  · exact hends.read hanswer i socket hat hsocket

/-- A loss stays one until the connection is dropped. -/
theorem Lost.step (hms : Framed ms) (hsent : ∀ c, sent c = (ms c).flatten) (h : Lost sent ms c r)
    (hunused : r.AcceptsUnused answer) (hx : r.next sent P answer = .ok (some r')) :
    Lost sent ms c r' ∨ r.Connected c ∧ ¬ r'.Connected c := by
  have hturn := turn_of_next hx
  obtain ⟨socket, hsocket, hfd, rfl⟩ := h.entry
  rcases h.tracked.hangUp?_turn hms h.passed h.late hturn with
    ⟨hlate, hsame, hreceived⟩ | ⟨-, hdrops⟩
  · refine Or.inl ⟨h.tracked.step hms hsent hunused (step_of_next hx), h.passed.turn hturn, hlate,
      ⟨socket, by rwa [hsame], hfd, rfl⟩, ?_⟩
    rw [hreceived socket hsocket]
    exact h.unread
  · obtain ⟨i, hi, hsockets⟩ := hdrops socket hsocket
    refine Or.inr ⟨⟨socket, List.mem_of_getElem? hi, rfl, Int.le_of_lt hfd⟩, ?_⟩
    exact h.tracked.owned.not_connected hi hsockets rfl (Int.neg_neg_of_pos hfd)

/-- When `read` ends or fails the connection is dropped. -/
theorem Tracked.drops_of_end (h : Tracked ms r) (hanswer : answer = .eof ∨ answer = .failed)
    (hat : r.point = .read i) (hsocket : r.activeSockets[i]? = some socket)
    (hx : r.next sent P answer = .ok (some r')) :
    r.Connected socket.conn ∧ ¬ r'.Connected socket.conn := by
  have hmem := List.mem_of_getElem? hsocket
  cases turn_of_next hx with
  | cleaned hat' | kept hat' | closed hat' | quiet hat' | polled hat' | connected hat' | accepted hat'
  | validated hat' | allValid hat' | invalid hat' => cases hat'.symm.trans hat
  | signalled | hungUp | skipped | done | received => rcases hanswer with h | h <;> cases h
  | ended _ hat' hsocket' hevents hbuffer hmissing =>
    cases hat'.symm.trans hat
    obtain rfl := Option.some.inj (hsocket'.symm.trans hsocket)
    have hopen := h.owned.readable hat hmem (by rw [hevents]; nofun)
    exact ⟨⟨_, hmem, rfl, hopen⟩, h.owned.not_connected hsocket rfl rfl (Int.negSucc_lt_zero 0)⟩

/-- When `poll` reports a hang-up for a connection with bytes to read. -/
theorem Tracked.lost_of_polled (hms : Framed ms) (hsent : ∀ c, sent c = (ms c).flatten)
    (h : Tracked ms r) (hat : r.point = .poll) {hasNew : Bool} {revents : List Revents}
    (hx : r.next sent P (.events hasNew revents) = .ok (some r'))
    (hsocket : socket ∈ firstOther r.activeSockets revents) (hfd : 0 < socket.fd)
    (hunread : r.kernel.receivedFrom socket.conn ≠ sent socket.conn) :
    Lost sent ms socket.conn r' := by
  have hstep := hx
  simp only [next, hat, Except.ok.injEq, pollStep] at hx
  split at hx
  · split at hx
    · -- something was reported
      rename_i hquiet
      obtain ⟨x, hfind, -⟩ := Option.map_eq_some_iff.mp hsocket
      have hnone := hquiet.2 x.2 (List.of_mem_zip (List.mem_of_find?_eq_some hfind)).2
      have hother : x.2 = .other := by simpa using List.find?_some hfind
      rw [hnone] at hother
      cases hother
    · obtain rfl := Option.some.inj hx
      have hunused : r.AcceptsUnused (.events hasNew revents) := fun fd heq => by cases heq
      refine ⟨h.step hms hsent hunused (step_of_next hstep), nofun, rfl, ?_, hunread⟩
      refine ⟨{ socket with revents := .other }, ?_, hfd, rfl⟩
      rw [hangUp?_polled rfl, Option.mem_def.mp hsocket]
      rfl
  · cases hx

/-! ## 6. The runs -/

/-- In a run in which `accept` gives no number that an entry still has: as long as the kernel ends a
connection only when all that its client sent was read, every connection is dropped with all its
messages handed over; and once it ends one earlier, some messages are lost when `receiver_poll`
returns. -/
theorem drained_iff (hms : Framed ms) (hsent : ∀ c, sent c = (ms c).flatten)
    (hrun : Runs P sent files tr r) (hunused : ∀ x ∈ tr, x.1.AcceptsUnused x.2) :
    ((∀ x ∈ tr, EndsAfterAll sent x.1 x.2) → Drained sent P ms tr r) ∧
      (r.point.early → Drained sent P ms tr r → ∀ x ∈ tr, EndsAfterAll sent x.1 x.2) := by
  have htracked := hrun.2.invariant_states (Tracked ms) AcceptsUnused (tracked_start files)
    (fun _ _ _ h hunused hnext => h.step hms hsent hunused (step_of_next hnext)) hunused
  have hbefore : ∀ x ∈ tr, Tracked ms x.1 := fun x hx =>
    htracked x.1 (List.mem_append_left _ (List.mem_map_of_mem hx))
  have hlast : Tracked ms r := htracked r (List.mem_append_right _ (List.mem_singleton.mpr rfl))
  constructor
  · intro hends x hx r' hnext c hc hnot
    have hinv := hrun.2.invariant_states (Heralded sent ms)
      (fun r answer => r.AcceptsUnused answer ∧ EndsAfterAll sent r answer)
      ⟨tracked_start files, nofun, nofun⟩ (fun _ _ _ h hok hx => h.step hms hsent hok.1 hok.2 hx)
      fun x hx => ⟨hunused x hx, hends x hx⟩
    have hread := (hinv x.1 (List.mem_append_left _ (List.mem_map_of_mem hx))).read_of_dropped hms
      (hends x hx) hnext hc hnot
    -- nothing is taken back, and no more than all can be handed over
    have hall := ((hbefore x hx).handedFor_eq_iff hms hsent _).mpr hread
    refine ⟨hall, (hlast.handedFor_initial _).eq_of_length_le ?_⟩
    rw [← hall]
    exact (handedFor_grows hrun _ x hx).length_le
  · intro hearly hdrained x hx
    have hdropped : ∀ y ∈ tr, ∀ r', y.1.next sent P y.2 = .ok (some r') → ∀ c,
        y.1.Connected c ∧ ¬ r'.Connected c → y.1.kernel.receivedFrom c = sent c := by
      intro y hy r' hnext c hdrop
      exact ((hbefore y hy).handedFor_eq_iff hms hsent c).mp
        (hdrained y hy r' hnext c hdrop.1 hdrop.2).1
    obtain ⟨front, back, rfl⟩ := List.append_of_mem hx
    obtain ⟨r₀, -, run⟩ := Run.append_iff.mp hrun.2
    obtain ⟨rfl, r₁, hnext, run⟩ := Run.cons_iff.mp run
    refine ⟨fun hat hasNew revents hanswer socket hsocket hfd => ?_,
      fun hanswer i socket hat hsocket => ?_⟩
    · by_contra hunread
      rw [hanswer] at hnext
      have hlost := (hbefore x hx).lost_of_polled hms hsent hat hnext hsocket hfd hunread
      -- the loss would last to the end of the run
      have hend := run.invariant (Lost sent ms socket.conn)
        (fun r answer => r.AcceptsUnused answer ∧ ∀ r', r.next sent P answer = .ok (some r') →
          ∀ c, r.Connected c ∧ ¬ r'.Connected c → r.kernel.receivedFrom c = sent c)
        hlost (fun s l s' hl hok hs => (hl.step hms hsent hok.1 hs).resolve_right fun hdrop =>
          hl.unread (hok.2 s' hs _ hdrop)) fun y hy => ?_
      · rw [hend.late] at hearly
        cases hearly
      · have hmem : y ∈ front ++ x :: back := List.mem_append_right _ (List.mem_cons_of_mem _ hy)
        exact ⟨hunused y hmem, hdropped y hmem⟩
    · exact hdropped x hx r₁ hnext _ ((hbefore x hx).drops_of_end hanswer hat hsocket hnext)

/-- `EndsAfterAll` as a test. -/
def endsAfterAll (sent : Nat → List UInt8) (r : Receiver) (answer : KernelAnswer) : Bool :=
  match r.point, answer with
  | .poll, .events _ revents => (firstOther r.activeSockets revents).all fun socket =>
      r.kernel.receivedFrom socket.conn = sent socket.conn
  | .read i, .eof | .read i, .failed => r.activeSockets[i]?.all fun socket =>
      r.kernel.receivedFrom socket.conn = sent socket.conn
  | _, _ => true

theorem endsAfterAll_of_test (h : r.endsAfterAll sent answer = true) : EndsAfterAll sent r answer := by
  have hread : ∀ {o : Option ActiveSocket} {socket : ActiveSocket}, socket ∈ o →
      o.all (fun socket => r.kernel.receivedFrom socket.conn = sent socket.conn) = true →
        r.kernel.receivedFrom socket.conn = sent socket.conn := by
    intro o socket hsocket hall
    rw [Option.mem_def.mp hsocket, Option.all_some] at hall
    exact of_decide_eq_true hall
  constructor
  · intro hat hasNew revents hanswer socket hsocket _
    simp only [endsAfterAll, hat, hanswer] at h
    exact hread hsocket h
  · intro hanswer i socket hat hsocket
    rcases hanswer with rfl | rfl
    · simp only [endsAfterAll, hat] at h
      exact hread hsocket h
    · simp only [endsAfterAll, hat] at h
      exact hread hsocket h

/-- A step of the run that drops the connection 0. -/
def dropsFirst (sent : Nat → List UInt8) (P : Platform) (x : Receiver × KernelAnswer) : Bool :=
  (x.1.next sent P x.2).anySome fun r' =>
    x.1.activeSockets.any (fun socket => socket.conn = 0 ∧ 0 ≤ socket.fd) &&
      r'.activeSockets.all fun socket => socket.conn = 0 → socket.fd < 0

theorem dropsFirst_spec {x : Receiver × KernelAnswer} (h : dropsFirst sent P x = true) :
    ∃ r', x.1.next sent P x.2 = .ok (some r') ∧ x.1.Connected 0 ∧ ¬ r'.Connected 0 := by
  obtain ⟨r', hnext, htest⟩ := Exec.anySome_eq_true.mp h
  simp only [Bool.and_eq_true, List.any_eq_true, List.all_eq_true, decide_eq_true_eq] at htest
  obtain ⟨⟨socket, hsocket, hopen⟩, hdead⟩ := htest
  refine ⟨r', hnext, ⟨socket, hsocket, hopen⟩, ?_⟩
  rintro ⟨socket', hsocket', hconn, hopen'⟩
  exact absurd hopen' (Int.not_le.mpr (hdead socket' hsocket' hconn))

/-- A message is read in two pieces before the client hangs up. -/
theorem drained_iff_two_pieces :
    let ms : Nat → List (List UInt8) := fun _ => [frame [10, 97]]
    ∃ tr r, Runs samplePlatform (fun c => (ms c).flatten) usualFiles tr r ∧
      (∃ x ∈ tr, ∃ r', x.1.next (fun c => (ms c).flatten) samplePlatform x.2 = .ok (some r') ∧
        x.1.Connected 0 ∧ ¬ r'.Connected 0) ∧
      Drained (fun c => (ms c).flatten) samplePlatform ms tr r := by
  intro ms
  obtain ⟨tr, r, hrun, htest⟩ := runs_of_answers samplePlatform (fun c => (ms c).flatten)
    ([.go, .events true [], .accepted 4, .go, .go, .go, .go] ++
      pollOne ((frame [10, 97]).take 16) ++ pollOne [10, 97] ++
      [.go, .go, .events false [.other], .go, .go, .go, .go])
    (fun tr _ => tr.any (dropsFirst (fun c => (ms c).flatten) samplePlatform) &&
      tr.all (fun x => x.1.acceptsUnused x.2) &&
      tr.all fun x => x.1.endsAfterAll (fun c => (ms c).flatten) x.2) (by decide +kernel)
  have hms : Framed ms := by
    intro c m hm
    exact ⟨[10, 97], List.mem_singleton.mp hm, by decide⟩
  simp only [Bool.and_eq_true, List.any_eq_true, List.all_eq_true] at htest
  obtain ⟨⟨⟨x, hx, hdrops⟩, hunused⟩, hends⟩ := htest
  have hiff := drained_iff hms (fun _ => rfl) hrun fun x hx => acceptsUnused_of_test (hunused x hx)
  exact ⟨tr, r, hrun, ⟨x, hx, dropsFirst_spec hdrops⟩,
    hiff.1 fun x hx => endsAfterAll_of_test (hends x hx)⟩

/-- A client sends a message and hangs up; `poll` reports both together, and the message is lost. -/
theorem last_message_lost :
    ¬∀ (P : Platform) (sent : Nat → List UInt8) (ms : Nat → List (List UInt8))
      (files : List (Int × Endpoint)) (tr : List (Receiver × KernelAnswer)) (r : Receiver),
      Framed ms → (∀ c, sent c = (ms c).flatten) → Runs P sent files tr r →
        Drained sent P ms tr r := by
  intro hclaim
  let ms : Nat → List (List UInt8) := fun _ => [frame [10, 97]]
  obtain ⟨tr, r, hrun, htest⟩ := runs_of_answers samplePlatform (fun c => (ms c).flatten)
    [.go, .events true [], .accepted 4, .go, .go, .go, .go,
      .go, .go, .events false [.other], .go, .go, .go, .go]
    (fun tr r => (r.handedFor 0).isEmpty &&
      tr.any (dropsFirst (fun c => (ms c).flatten) samplePlatform)) (by decide +kernel)
  have hms : Framed ms := by
    intro c m hm
    exact ⟨[10, 97], List.mem_singleton.mp hm, by decide⟩
  simp only [Bool.and_eq_true, List.isEmpty_iff, List.any_eq_true] at htest
  obtain ⟨hnone, x, hx, hdrops⟩ := htest
  obtain ⟨r', hnext, hc, hnot⟩ := dropsFirst_spec hdrops
  have hall := (hclaim _ _ ms _ _ _ hms (fun _ => rfl) hrun x hx r' hnext 0 hc hnot).2
  rw [hnone] at hall
  exact absurd hall (List.cons_ne_nil _ _).symm

end FileStorage.Server.Receiver
