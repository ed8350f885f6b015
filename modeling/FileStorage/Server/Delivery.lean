import FileStorage.Server.Descriptors

/-!
# Delivery — every connection's messages, in order and unmixed

The clients send messages.  As long as `accept` gives no number that an entry still has, what is
handed over for a connection are the complete messages of what was read from it.  The entry of a
connection that was dropped at the end of its stream has lost its descriptor: `receiver_cleanup`
closes descriptor 1 for it, which may be that of another entry, and `accept` may then give the number
away.
-/

namespace FileStorage.Server

/-! ## 1. Streams of messages -/

/-- Every connection sends messages whose length fits. -/
def Framed (ms : Nat → List (List UInt8)) : Prop :=
  ∀ c, ∀ m ∈ ms c, ∃ payload : List UInt8, m = frame payload ∧ payload.length + 16 < wordSize

variable {ms : Nat → List (List UInt8)} {c : Nat} {read data : List UInt8} {done : List (List UInt8)}

theorem Framed.isFrame (h : Framed ms) : ∀ m ∈ ms c, Framing.IsFrame missingOf m := by
  intro m hm
  obtain ⟨payload, rfl, hfits⟩ := h c m hm
  exact isFrame_frame hfits

/-- What is held of a connection is a part of a message. -/
theorem Framed.underway (h : Framed ms) (hread : Framing.Reassembled (ms c) read done data) :
    data = [] ∨ ∃ q payload, q ≠ [] ∧ data ++ q = frame payload ∧ payload.length + 16 < wordSize := by
  obtain ⟨rest, hms, hrest⟩ := hread.rest
  rcases hrest with hnil | ⟨q, rest', hq, rfl⟩
  · exact Or.inl hnil
  · obtain ⟨payload, hframe, hfits⟩ := h c (data ++ q) (by rw [hms]; simp)
    exact Or.inr ⟨q, payload, hq, hframe, hfits⟩

/-- The magic code is always right. -/
theorem Framed.magic (h : Framed ms) (hread : Framing.Reassembled (ms c) read done data)
    (hlong : 8 ≤ data.length) : beValue data = headerMagicCode := by
  rcases h.underway hread with rfl | ⟨q, payload, -, hframe, -⟩
  · exact absurd hlong (by decide)
  · rw [← beValue_append hlong q, hframe, frame, List.append_assoc]
    exact beValue_u64ToBigEndian (by decide) _

/-- The room for the message is never too small. -/
theorem Framed.buffer (h : Framed ms) (hread : Framing.Reassembled (ms c) read done data)
    {P : Platform} {de de' : Deserializer} (hdata : Holding de data)
    (hx : deserializerBuffer P de = .ok de') : Holding de' data := by
  obtain ⟨hsize, hroom, hor⟩ := hdata.buffer hx
  -- a block shorter than the header would need a length that wraps
  refine hor.resolve_right fun hstuck => ?_
  obtain ⟨hlong, hshort⟩ := hstuck
  rw [hsize] at hlong
  rw [hroom] at hshort
  rcases h.underway hread with rfl | ⟨q, payload, hq, hframe, hfits⟩
  · exact absurd hlong (by decide)
  · have hpart := ((isFrame_frame hfits).part data q hframe hq).2
    have hlength := frame_length payload
    rw [← hframe, List.length_append] at hlength
    rw [wadd_of_lt (by omega)] at hshort
    omega

/-! ## 2. What the claim is about -/

namespace Receiver

/-- What was handed over for a connection. -/
def handedFor (r : Receiver) (c : Nat) : List (List UInt8) :=
  (r.handed.filter (·.conn = c)).map (·.buffer.raw)

/-- The messages handed over are the complete messages of the bytes read, under the descriptor of
their connection. -/
structure Delivered (ms : Nat → List (List UInt8)) (r : Receiver) : Prop where
  messages : ∀ c, ∃ part, Framing.Reassembled (ms c) (r.kernel.receivedFrom c) (r.handedFor c) part
  tagged : ∀ h ∈ r.handed, r.kernel.accepted[h.conn]? = some h.fd ∧
    h.buffer.sizeInBytes = h.buffer.raw.length

/-- The number that `accept` gives is not that of an entry. -/
def AcceptsUnused (r : Receiver) (answer : KernelAnswer) : Prop :=
  ∀ fd, answer = .accepted fd → ∀ socket ∈ r.activeSockets, socket.fd ≠ fd

/-! ## 3. The invariant -/

/-- In every state of a run in which no number is given twice. -/
structure Tracked (ms : Nat → List (List UInt8)) (r : Receiver) : Prop where
  owned : Owned r
  guarded : Guarded r
  bytes : ∀ c, ∃ part,
    Framing.Reassembled (ms c) (r.kernel.receivedFrom c) (r.handedFor c) part ∧
      ∀ socket ∈ r.activeSockets, socket.conn = c → Holding socket.deserializer part
  unread : ∀ c, r.kernel.accepted.length ≤ c → r.kernel.receivedFrom c = []

variable {P : Platform} {sent : Nat → List UInt8} {r r' : Receiver} {answer : KernelAnswer} {i : Nat}
  {socket socket' : ActiveSocket}

theorem Tracked.delivered (h : Tracked ms r) : Delivered ms r := by
  refine ⟨fun c => ?_, fun x hx => ⟨h.owned.tagged x hx, (h.guarded.handed x hx).size⟩⟩
  obtain ⟨part, hread, -⟩ := h.bytes c
  exact ⟨part, hread⟩

theorem tracked_start (files : List (Int × Endpoint)) : Tracked ms (start files) :=
  ⟨owned_start files, guarded_start files, fun _ => ⟨[], .nil _, nofun⟩, fun _ _ => rfl⟩

/-- The magic code of an entry cannot be wrong. -/
theorem Tracked.validate (hms : Framed ms) (h : Tracked ms r) (hsocket : socket ∈ r.activeSockets) :
    deserializerValidate socket.deserializer = .ok true := by
  obtain ⟨part, hread, hheld⟩ := h.bytes socket.conn
  have hor : part.length < 8 ∨ beValue part = headerMagicCode :=
    (Nat.lt_or_ge part.length 8).imp_right (hms.magic hread)
  rw [(hheld socket hsocket rfl).validate, decide_eq_true hor]

theorem Tracked.acceptsFresh (hms : Framed ms) (h : Tracked ms r) (hunused : r.AcceptsUnused answer) :
    r.AcceptsFresh answer :=
  fun fd heq socket hsocket => ⟨hunused fd heq socket hsocket, fun _ => h.validate hms hsocket⟩

/-- The bytes held are those of before, unless an entry is read from. -/
theorem Tracked.bytes_of_set (h : Tracked ms r) (hsocket : r.activeSockets[i]? = some socket)
    (hconn : socket'.conn = socket.conn)
    (hdata : ∀ part, Framing.Reassembled (ms socket.conn) (r.kernel.receivedFrom socket.conn)
      (r.handedFor socket.conn) part → Holding socket.deserializer part →
        Holding socket'.deserializer part) (c : Nat) :
    ∃ part, Framing.Reassembled (ms c) (r.kernel.receivedFrom c) (r.handedFor c) part ∧
      ∀ x ∈ r.activeSockets.set i socket', x.conn = c → Holding x.deserializer part := by
  obtain ⟨part, hread, hheld⟩ := h.bytes c
  refine ⟨part, hread, fun x hx hc => ?_⟩
  -- the entry that was set is the only one of its connection
  rcases of_mem_set h.owned.conns hsocket hx with rfl | ⟨hx, -⟩
  · rw [hconn] at hc
    subst hc
    exact hdata part hread (hheld socket (List.mem_of_getElem? hsocket) rfl)
  · exact hheld x hx hc

/-- Nothing was read from a new connection. -/
theorem Tracked.bytes_of_accept (h : Tracked ms r) (fd : Int) (c : Nat) :
    ∃ part, Framing.Reassembled (ms c) (r.kernel.receivedFrom c) (r.handedFor c) part ∧
      ∀ x ∈ r.activeSockets ++ [⟨fd, .none, deserializerCreate, r.kernel.accepted.length⟩],
        x.conn = c → Holding x.deserializer part := by
  obtain ⟨part, hread, hheld⟩ := h.bytes c
  refine ⟨part, hread, fun x hx hc => ?_⟩
  rcases List.mem_append.mp hx with hx | hx
  · exact hheld x hx hc
  · obtain rfl := List.mem_singleton.mp hx
    -- the numbers of connections are not used twice
    have hnone : r.kernel.receivedFrom c = [] := h.unread c (Nat.le_of_eq hc)
    have heq := hread.read_eq
    rw [hnone] at heq
    have hpart := (List.append_eq_nil_iff.mp heq.symm).2
    rw [hpart]
    exact holding_create

/-- The bytes held after a read: those of the connection that was read from, and the others. -/
theorem Tracked.bytes_of_read (h : Tracked ms r) (hsocket : r.activeSockets[i]? = some socket)
    (hendpoint : r.kernel.endpoint socket.fd = some (.connection socket.conn))
    {chunk part : List UInt8} {de : Deserializer} {buffers : List Buffer} (hheld : Holding de part)
    (hread : Framing.Reassembled (ms socket.conn) (r.kernel.receivedFrom socket.conn ++ chunk)
      (r.handedFor socket.conn ++ buffers.map (·.raw)) part) (hsocket' : socket'.conn = socket.conn)
    (hde : socket'.deserializer = de) {r' : Receiver}
    (hkernel : r'.kernel = r.kernel.read socket.fd chunk)
    (hhanded : r'.handed = r.handed ++ buffers.map (⟨socket.conn, socket.fd, ·⟩)) (c : Nat) :
    ∃ part, Framing.Reassembled (ms c) (r'.kernel.receivedFrom c) (r'.handedFor c) part ∧
      ∀ x ∈ r.activeSockets.set i socket', x.conn = c → Holding x.deserializer part := by
  rw [hkernel, handedFor, hhanded]
  by_cases hc : c = socket.conn
  · subst hc
    refine ⟨part, ?_, fun x hx hconn => ?_⟩
    · rw [Kernel.receivedFrom_read_self hendpoint]
      simpa [handedFor, List.filter_map, Function.comp_def] using hread
    · rcases of_mem_set h.owned.conns hsocket hx with rfl | ⟨-, hne⟩
      · rwa [hde]
      · exact absurd hconn hne
  · obtain ⟨part', hread', hheld'⟩ := h.bytes c
    refine ⟨part', ?_, fun x hx hconn => ?_⟩
    · rw [Kernel.receivedFrom_read_of_ne hendpoint hc]
      simpa [handedFor, List.filter_map, Function.comp_def, Ne.symm hc] using hread'
    · rcases of_mem_set h.owned.conns hsocket hx with rfl | ⟨hx, -⟩
      · exact absurd (hconn.symm.trans hsocket') hc
      · exact hheld' x hx hconn

/-- A read adds to the bytes of the connection that the entry was made for, and to no other. -/
theorem Tracked.receive (hms : Framed ms) (hsent : ∀ c, sent c = (ms c).flatten) (h : Tracked ms r)
    {chunk : List UInt8} {de₁ de₂ de₃ : Deserializer} {buf : Option Buffer}
    (hsocket : r.activeSockets[i]? = some socket)
    (hendpoint : r.kernel.endpoint socket.fd = some (.connection socket.conn))
    (hbuffer : deserializerBuffer P socket.deserializer = .ok de₁)
    (hmissing : ∃ missing, deserializerMissing de₁ = .ok missing ∧ chunk.length ≤ missing)
    (hchunk : chunk ≠ []) (hgives : r.kernel.gives sent socket.fd chunk)
    (hfill : de₁.fill chunk = .ok de₂)
    (hdetach : deserializerDetach de₂ chunk.length = .ok (buf, de₃)) :
    ∃ part, Holding de₃ part ∧
      Framing.Reassembled (ms socket.conn) (r.kernel.receivedFrom socket.conn ++ chunk)
        (r.handedFor socket.conn ++ buf.toList.map (·.raw)) part := by
  obtain ⟨part, hread, hheld⟩ := h.bytes socket.conn
  have hpart := hheld socket (List.mem_of_getElem? hsocket) rfl
  -- `read` had room for no more than what is missing
  have hle : chunk.length ≤ missingOf part := by
    obtain ⟨missing, hx, hle⟩ := hmissing
    rw [(hms.buffer hread hpart hbuffer).missing] at hx
    rwa [Except.ok.inj hx]
  have hnext : r.kernel.receivedFrom socket.conn ++ chunk <+: (ms socket.conn).flatten := by
    rw [← hsent]
    simpa only [Kernel.gives, hendpoint, List.isPrefixOf_iff_prefix] using hgives
  have hfeed := hread.feed hms.isFrame hchunk hle hnext
  obtain ⟨-, hdone⟩ := hpart.receive hbuffer hfill hchunk hdetach
  rcases hdone with ⟨hzero, rfl, buffer, rfl, hcomplete⟩ | ⟨hpos, rfl, hmore⟩
  · -- the message is complete, and the next one starts
    have hfed := (hfeed.resolve_right fun hor => absurd hzero (Nat.ne_of_gt hor.1)).2
    refine ⟨[], holding_create, ?_⟩
    show Framing.Reassembled _ _ (_ ++ [buffer.raw]) _
    rw [hcomplete.raw]
    exact hfed
  · have hfed := (hfeed.resolve_left fun hor => absurd hor.1 (Nat.ne_of_gt hpos)).2
    refine ⟨_, hmore, ?_⟩
    show Framing.Reassembled _ _ (_ ++ []) _
    rw [List.append_nil]
    exact hfed

theorem Tracked.step (hms : Framed ms) (hsent : ∀ c, sent c = (ms c).flatten) (h : Tracked ms r)
    (hunused : r.AcceptsUnused answer) (hstep : Step sent P r answer r') : Tracked ms r' := by
  have howned := h.owned.step h.guarded (h.acceptsFresh hms hunused) hstep
  have hguarded := h.guarded.step hstep
  cases hstep with
  | moved | connected | validated | allValid | skipped =>
    exact ⟨howned, hguarded, h.bytes, h.unread⟩
  | closed hat hsocket hdead =>
    refine ⟨howned, hguarded, fun c => ?_, h.unread⟩
    obtain ⟨part, hread, hheld⟩ := h.bytes c
    refine ⟨part, hread, fun x hx => hheld x ?_⟩
    exact List.mem_of_mem_eraseIdx ((removeAt_perm hsocket).subset hx)
  | polled hlength hpolls =>
    refine ⟨howned, hguarded, fun c => ?_, h.unread⟩
    obtain ⟨part, hread, hheld⟩ := h.bytes c
    refine ⟨part, hread, fun x hx hc => ?_⟩
    obtain ⟨y, hy, rfl⟩ := List.mem_map.mp hx
    exact hheld y.1 (List.of_mem_zip hy).1 hc
  | accepted hat hfd hfree =>
    rename_i hasNew fd
    refine ⟨howned, hguarded, h.bytes_of_accept fd, fun c hc => ?_⟩
    change (r.kernel.accepted ++ [fd]).length ≤ c at hc
    rw [List.length_append, List.length_singleton] at hc
    exact h.unread c (Nat.le_of_succ_le hc)
  | invalid hat hsocket hvalid =>
    rw [h.validate hms (List.mem_of_getElem? hsocket)] at hvalid
    cases hvalid
  | hungUp hat hsocket hevents =>
    refine ⟨howned, hguarded, h.bytes_of_set hsocket ?_ fun _ _ hpart => hpart, h.unread⟩
    rfl
  | ended hat hsocket hbuffer hmissing =>
    refine ⟨howned, hguarded, h.bytes_of_set hsocket ?_ fun part hread hpart => ?_, h.unread⟩
    · rfl
    · exact hms.buffer hread hpart hbuffer
  | received hat hsocket hevents hbuffer hmissing hchunk hgives hfill hdetach =>
    rename_i i socket chunk de₁ de₂ de₃ buf
    have hmem := List.mem_of_getElem? hsocket
    -- an entry that is read from still has its descriptor, and that leads to its connection
    have hopen := h.owned.readable hat hmem (by rw [hevents]; nofun)
    have hgave := h.owned.opened socket hmem hopen
    have hendpoint := hgave.endpoint_of_gives hgives
    obtain ⟨part, hheld, hread⟩ := h.receive hms hsent hsocket hendpoint hbuffer hmissing hchunk
      hgives hfill hdetach
    refine ⟨howned, hguarded, h.bytes_of_read hsocket hendpoint hheld hread ?_ ?_ rfl rfl,
      fun c hc => ?_⟩
    · rfl
    · rfl
    · change (r.kernel.read socket.fd chunk).accepted.length ≤ c at hc
      rw [Kernel.accepted_read] at hc
      have hne : c ≠ socket.conn := Nat.ne_of_gt (Nat.lt_of_lt_of_le (h.owned.known socket hmem) hc)
      exact (Kernel.receivedFrom_read_of_ne hendpoint hne).trans (h.unread c hc)

/-! ## 4. The assertion -/

theorem missing_ne_assertion (de : Deserializer) : deserializerMissing de ≠ .error .assertion := by
  intro hx
  unfold deserializerMissing at hx
  split at hx
  · cases hx
  · rcases Exec.bind_eq_error.mp hx with hx | ⟨n, -, hx⟩
    · unfold bigEndianToU64 at hx
      split at hx <;> cases hx
    · cases hx

theorem takeAnswer_ne_assertion {missing : Nat} {answer : KernelAnswer} :
    r.takeAnswer sent i socket missing answer ≠ .error .assertion := by
  intro hx
  cases answer with
  | data chunk =>
    simp only [takeAnswer] at hx
    split at hx
    · rcases Exec.bind_eq_error.mp hx with hx | ⟨de, -, hx⟩
      · rcases Exec.bind_eq_error.mp hx with hx | ⟨block, -, hx⟩
        · unfold memcpy at hx
          split at hx <;> cases hx
        · cases hx
      · rcases Exec.bind_eq_error.mp hx with hx | ⟨buf, -, hx⟩
        · rcases Exec.bind_eq_error.mp hx with hx | ⟨missing, -, hx⟩
          · exact missing_ne_assertion _ hx
          · split at hx <;> cases hx
        · cases hx
    · cases hx
  | eof | failed | go | events | shutdownSoft | accepted => cases hx

/-- Something is missing whenever the receiver reads. -/
theorem Tracked.readStep_ne_assertion (hms : Framed ms) (h : Tracked ms r)
    (hsocket : socket ∈ r.activeSockets) {answer : KernelAnswer} :
    r.readStep sent P i socket answer ≠ .error .assertion := by
  intro hx
  obtain ⟨part, hread, hheld⟩ := h.bytes socket.conn
  have hpart := hheld socket hsocket rfl
  rcases Exec.bind_eq_error.mp hx with hx | ⟨de, hbuffer, hx⟩
  · rw [deserializerBuffer, hpart.missing, Exec.ok_bind] at hx
    rcases Exec.bind_eq_error.mp hx with hx | ⟨block, -, hx⟩
    · unfold xrealloc at hx
      split at hx <;> cases hx
    · cases hx
  · have hpart' := hms.buffer hread hpart hbuffer
    rw [hpart'.missing, Exec.ok_bind, if_neg (Nat.ne_of_gt hpart'.missing_pos)] at hx
    exact takeAnswer_ne_assertion hx

theorem Tracked.next_ne_assertion (hms : Framed ms) (h : Tracked ms r) {answer : KernelAnswer} :
    r.next sent P answer ≠ .error .assertion := by
  intro hx
  unfold next at hx
  split at hx
  -- the other points have no call that can fail so
  case h_7 i hat =>
    rcases Exec.bind_eq_error.mp hx with hx | ⟨r₁, -, hx⟩
    · unfold validateStep at hx
      split at hx
      · cases hx
      · rename_i socket hsocket
        obtain ⟨part, -, hheld⟩ := h.bytes socket.conn
        have hpart := hheld socket (List.mem_of_getElem? hsocket) rfl
        rw [hpart.validate, Exec.ok_bind] at hx
        split at hx
        · rw [hpart.missing] at hx
          cases hx
        · cases hx
    · cases hx
  case h_8 i answer hat =>
    split at hx
    · cases hx
    · rename_i socket hsocket
      split at hx
      · exact h.readStep_ne_assertion hms (List.mem_of_getElem? hsocket) hx
      · cases hx
  all_goals cases hx

/-! ## 5. The runs -/

/-- In every run in which `accept` gives no number that an entry still has, the messages handed over
for a connection are the complete ones of what was read from it, and the receiver never reads without
anything missing. -/
theorem delivered_of_acceptsUnused {files : List (Int × Endpoint)}
    {tr : List (Receiver × KernelAnswer)} (hms : Framed ms) (hsent : ∀ c, sent c = (ms c).flatten)
    (hrun : Runs P sent files tr r) (hunused : ∀ x ∈ tr, x.1.AcceptsUnused x.2) :
    ∀ r' ∈ statesOf tr r, Delivered ms r' ∧ ∀ answer, r'.next sent P answer ≠ .error .assertion := by
  have hinv := hrun.2.invariant_states (Tracked ms) AcceptsUnused (tracked_start files)
    (fun _ _ _ h hunused hnext => h.step hms hsent hunused (step_of_next hnext)) hunused
  intro r' hr'
  have h := hinv r' hr'
  exact ⟨h.delivered, fun answer => h.next_ne_assertion hms⟩

/-- `AcceptsUnused` as a test. -/
def acceptsUnused (r : Receiver) (answer : KernelAnswer) : Bool :=
  match answer with
  | .accepted fd => r.activeSockets.all (·.fd ≠ fd)
  | _ => true

theorem acceptsUnused_of_test (h : r.acceptsUnused answer = true) : r.AcceptsUnused answer := by
  rintro fd rfl socket hsocket
  exact of_decide_eq_true (List.all_eq_true.mp h socket hsocket)

/-- Two connections; the first hangs up, and the second sends a message in two pieces. -/
theorem delivered_of_acceptsUnused_two :
    let ms : Nat → List (List UInt8) := fun _ => [frame [10, 97]]
    ∃ tr r, Runs samplePlatform (fun c => (ms c).flatten) usualFiles tr r ∧ r.handed.length = 1 ∧
      ∀ r' ∈ statesOf tr r, Delivered ms r' ∧
        ∀ answer, r'.next (fun c => (ms c).flatten) samplePlatform answer ≠ .error .assertion := by
  intro ms
  obtain ⟨tr, r, hrun, htest⟩ := runs_of_answers samplePlatform (fun c => (ms c).flatten)
    ([.go, .events true [], .accepted 4, .go, .go, .go, .go,
      .go, .go, .events true [.other], .accepted 5, .go, .go, .go, .go] ++
      pollOne ((frame [10, 97]).take 16) ++ pollOne [10, 97])
    (fun tr r => r.handed.length == 1 && tr.all fun x => x.1.acceptsUnused x.2) (by decide +kernel)
  have hms : Framed ms := by
    intro c m hm
    exact ⟨[10, 97], List.mem_singleton.mp hm, by decide⟩
  simp only [Bool.and_eq_true, beq_iff_eq, List.all_eq_true] at htest
  exact ⟨tr, r, hrun, htest.1, delivered_of_acceptsUnused hms (fun _ => rfl) hrun fun x hx =>
    acceptsUnused_of_test (htest.2 x hx)⟩

/-- The connections 0 and 1 end their streams, and `receiver_cleanup` closes descriptor 1 for each of
them: the standard output, and then connection 3.  Connection 4 is accepted on the same descriptor
while 2 hangs up, and what it sends is handed over for 3. -/
theorem messages_mixed :
    ¬∀ (P : Platform) (sent : Nat → List UInt8) (ms : Nat → List (List UInt8))
      (files : List (Int × Endpoint)) (tr : List (Receiver × KernelAnswer)) (r : Receiver),
      Framed ms → (∀ c, sent c = (ms c).flatten) → Runs P sent files tr r →
        ∀ r' ∈ statesOf tr r, Delivered ms r' ∧
          ∀ answer, r'.next sent P answer ≠ .error .assertion := by
  intro hclaim
  let ms : Nat → List (List UInt8) := fun _ => [frame [], frame []]
  obtain ⟨tr, r, hrun, htest⟩ := runs_of_answers samplePlatform (fun c => (ms c).flatten)
    [.go, .events true [], .accepted 4, .go, .go, .go, .go,
      .go, .go, .events true [.none], .accepted 5, .go, .go, .go, .go, .go, .go,
      .go, .go, .go, .events true [.none, .none], .accepted 6, .go, .go, .go, .go, .go, .go, .go, .go,
      -- connection 0 ends
      .go, .go, .go, .go, .events false [.pollin, .none, .none], .go, .go, .go, .go, .go,
      .eof, .go, .go, .go,
      -- its entry is removed, and 3 is accepted on descriptor 1
      .go, .go, .go, .events true [.none, .none], .accepted 1, .go, .go, .go, .go, .go, .go, .go, .go,
      -- connection 1 ends
      .go, .go, .go, .go, .events false [.none, .pollin, .none], .go, .go, .go, .go, .go,
      .go, .eof, .go, .go,
      -- its entry is removed, 2 hangs up, and 4 is accepted on descriptor 1
      .go, .go, .go, .events true [.other, .other], .accepted 1, .go, .go, .go, .go, .go,
      -- 2 is removed, and both remaining entries read from 4
      .go, .go, .go, .events false [.pollin, .pollin], .go, .go, .go, .go,
      .data (frame []), .data (frame []), .go]
    (fun _ r => (r.kernel.receivedFrom 3).isEmpty && !(r.handedFor 3).isEmpty) (by decide +kernel)
  simp only [Bool.and_eq_true, List.isEmpty_iff, Bool.not_eq_true', List.isEmpty_eq_false_iff]
    at htest
  have hms : Framed ms := by
    intro c m hm
    refine ⟨[], ?_, by decide⟩
    simpa [ms] using hm
  obtain ⟨part, hread⟩ := (hclaim _ _ ms _ _ _ hms (fun _ => rfl) hrun r (by simp [statesOf])).1.messages 3
  have heq := hread.read_eq
  rw [htest.1] at heq
  -- a message is not empty
  obtain ⟨rest, hdone, -⟩ := hread.rest
  cases hhanded : r.handedFor 3 with
  | nil => exact htest.2 hhanded
  | cons m done =>
    rw [hhanded] at heq hdone
    have hm : m ∈ ms 3 := by rw [hdone]; simp
    obtain ⟨payload, rfl, -⟩ := hms 3 m hm
    have hlength := congrArg List.length heq
    simp only [List.flatten_cons, List.length_append, frame_length, List.length_nil] at hlength
    omega

end Receiver

end FileStorage.Server
