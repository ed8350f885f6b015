import FileStorage.Server.Delivery

/-!
# Drops — what is closed for the connections that were dropped

Whoever drops a connection makes the descriptor in its entry negative, and `receiver_cleanup` closes
the number it reads there.  Two of the four places write -1 whatever the number was, and 0 has no
negative.
-/

namespace FileStorage.Server.Receiver

variable {P : Platform} {sent : Nat → List UInt8} {r r' : Receiver} {answer : KernelAnswer} {i : Nat}
  {socket socket' : ActiveSocket}

/-! ## 1. What the claim is about -/

/-- The entry whose connection the step drops. -/
def dropping (r : Receiver) (answer : KernelAnswer) : Option ActiveSocket :=
  match r.point, answer with
  | .validate i, .go =>
      r.activeSockets[i]?.filter fun socket => deserializerValidate socket.deserializer = .ok false
  | .read i, .go => r.activeSockets[i]?.filter fun socket => socket.revents = .other
  | .read i, .eof | .read i, .failed => r.activeSockets[i]?
  | _, _ => none

/-- The call of `close` in the step: the descriptor, and what it refers to. -/
def closing (r : Receiver) (answer : KernelAnswer) : Option (Int × Option Endpoint) :=
  match r.point, answer with
  | .cleanup i, .go =>
      (r.activeSockets[i]?.filter fun socket => socket.fd < 0).map fun socket =>
        (-socket.fd, r.kernel.endpoint (-socket.fd))
  | _, _ => none

/-- The connections that a run drops. -/
def droppedIn (tr : List (Receiver × KernelAnswer)) : List Nat :=
  tr.filterMap fun x => (dropping x.1 x.2).map (·.conn)

/-- The calls of `close` in a run. -/
def closedIn (tr : List (Receiver × KernelAnswer)) : List (Int × Option Endpoint) :=
  tr.filterMap fun x => closing x.1 x.2

structure ClosesDropped (tr : List (Receiver × KernelAnswer)) (r : Receiver) : Prop where
  dropped : (droppedIn tr).Nodup
  /-- What is closed is what `accept` returned for a connection that was dropped. -/
  closed : ∀ x ∈ closedIn tr, ∃ c ∈ droppedIn tr,
    x.2 = some (.connection c) ∧ r.kernel.accepted[c]? = some x.1
  once : ((closedIn tr).map Prod.snd).Nodup
  /-- It was done for all of them when `receiver_cleanup` has returned. -/
  all : r.point = .poll → ∀ c ∈ droppedIn tr, some (.connection c) ∈ (closedIn tr).map Prod.snd
  gone : ∀ c, some (.connection c) ∈ (closedIn tr).map Prod.snd →
    ∀ x ∈ r.kernel.files, x.2 ≠ .connection c

/-- The descriptor of a dropped connection can be told from its entry, and `receiver_cleanup` comes
to the entry. -/
structure NumberKept (r : Receiver) (answer : KernelAnswer) : Prop where
  /-- The end of a stream and a failed `read` write -1. -/
  ended : ∀ socket, dropping r answer = some socket → answer ≠ .go → socket.fd = 1
  /-- 0 is its own negative. -/
  negated : ∀ socket, dropping r answer = some socket → answer = .go → socket.fd ≠ 0
  /-- The entry that takes the place of a removed one is not looked at in the same call. -/
  reached : ∀ i, r.point = .cleanup i → closing r answer ≠ none → i + 1 < r.activeSockets.length →
    ∀ last, r.activeSockets.getLast? = some last → 0 ≤ last.fd

/-! ## 2. The invariant -/

/-- `fd` is open, and the connection `c` is on it since `accept` returned it. -/
structure Opened (k : Kernel) (fd : Int) (c : Nat) : Prop where
  endpoint : k.endpoint fd = some (.connection c)
  given : k.accepted[c]? = some fd

/-- What the entry says of its connection is right. -/
def Recorded (k : Kernel) (dropped : List Nat) (socket : ActiveSocket) : Prop :=
  0 ≤ socket.fd ∧ Opened k socket.fd socket.conn ∧ socket.conn ∉ dropped ∨
    socket.fd < 0 ∧ Opened k (-socket.fd) socket.conn ∧ socket.conn ∈ dropped

/-- What is left to `receiver_cleanup`: nothing when it is over, and what was dropped since is not
read from. -/
def Settled (point : PollPoint) (j : Nat) (socket : ActiveSocket) : Prop :=
  match point with
  | .cleanup i => j < i → 0 ≤ socket.fd
  | .read _ => socket.fd < 0 → socket.revents = .none
  | .poll | .connect _ | .validate _ => 0 ≤ socket.fd

structure Accounts (dropped : List Nat) (closed : List (Int × Option Endpoint)) (r : Receiver) :
    Prop where
  conns : (r.activeSockets.map (·.conn)).Nodup
  entries : ∀ socket ∈ r.activeSockets, Recorded r.kernel dropped socket
  files : ∀ x ∈ r.kernel.files, ∀ c, x.2 = .connection c →
    r.kernel.accepted[c]? = some x.1 ∧ r.Active c
  settled : ∀ j socket, r.activeSockets[j]? = some socket → Settled r.point j socket
  distinct : dropped.Nodup
  named : ∀ x ∈ closed, ∃ c ∈ dropped,
    x.2 = some (.connection c) ∧ r.kernel.accepted[c]? = some x.1 ∧ ¬r.Active c
  once : (closed.map Prod.snd).Nodup
  pending : ∀ c ∈ dropped, some (.connection c) ∈ closed.map Prod.snd ∨ r.Active c

variable {k : Kernel} {fd fd' : Int} {c c' : Nat} {dropped : List Nat}
  {closed : List (Int × Option Endpoint)}

theorem Opened.mem (h : Opened k fd c) : fd ∈ k.files.map Prod.fst := by
  obtain ⟨x, hx, -⟩ := Option.map_eq_some_iff.mp h.endpoint
  have hfd := List.find?_some hx
  rw [← of_decide_eq_true hfd]
  exact List.mem_map_of_mem (List.mem_of_find?_eq_some hx)

theorem Opened.lt (h : Opened k fd c) : c < k.accepted.length :=
  (List.getElem?_eq_some_iff.mp h.given).1

theorem Opened.close (h : Opened k fd c) (h' : Opened k fd' c') (hne : c ≠ c') :
    Opened (k.close fd') fd c := by
  refine ⟨?_, h.given⟩
  rw [Kernel.endpoint_close_of_ne, h.endpoint]
  rintro rfl
  have heq := h.endpoint.symm.trans h'.endpoint
  exact hne (by simpa using heq)

theorem Opened.accept (h : Opened k fd c) (hfree : fd' ∉ k.files.map Prod.fst) :
    Opened (k.accept fd') fd c := by
  refine ⟨?_, Kernel.getElem?_accept.mpr (Or.inl h.given)⟩
  rw [Kernel.endpoint_accept_of_ne, h.endpoint]
  rintro rfl
  exact hfree h.mem

theorem opened_accept : Opened (k.accept fd) fd k.accepted.length :=
  ⟨Kernel.endpoint_accept_self, Kernel.getElem?_accept.mpr (Or.inr ⟨rfl, rfl⟩)⟩

theorem Opened.read (h : Opened k fd c) (fd' : Int) (chunk : List UInt8) :
    Opened (k.read fd' chunk) fd c := by
  refine ⟨?_, ?_⟩
  · rw [Kernel.endpoint_read]
    exact h.endpoint
  · rw [Kernel.accepted_read]
    exact h.given

theorem files_read (k : Kernel) (fd : Int) (chunk : List UInt8) : (k.read fd chunk).files = k.files := by
  unfold Kernel.read
  split <;> rfl

theorem Recorded.opened (h : Recorded k dropped socket) : ∃ fd, Opened k fd socket.conn := by
  rcases h with ⟨-, hopened, -⟩ | ⟨-, hopened, -⟩
  · exact ⟨_, hopened⟩
  · exact ⟨_, hopened⟩

theorem Recorded.of_dead (h : Recorded k dropped socket) (hdead : socket.fd < 0) :
    Opened k (-socket.fd) socket.conn ∧ socket.conn ∈ dropped := by
  rcases h with ⟨hopen, -⟩ | ⟨-, h⟩
  · exact absurd hopen (Int.not_le.mpr hdead)
  · exact h

theorem Recorded.of_open (h : Recorded k dropped socket) (hopen : 0 ≤ socket.fd) :
    Opened k socket.fd socket.conn ∧ socket.conn ∉ dropped := by
  rcases h with ⟨-, h⟩ | ⟨hdead, -⟩
  · exact h
  · exact absurd hopen (Int.not_le.mpr hdead)

/-- The entry keeps its descriptor, and the kernel what is on it. -/
theorem Recorded.of_same {k' : Kernel} {dropped' : List Nat} (h : Recorded k dropped socket)
    (hfd : socket'.fd = socket.fd) (hconn : socket'.conn = socket.conn)
    (hkernel : ∀ fd, Opened k fd socket.conn → Opened k' fd socket.conn)
    (hdropped : socket.conn ∈ dropped' ↔ socket.conn ∈ dropped) : Recorded k' dropped' socket' := by
  rw [Recorded, hfd, hconn, hdropped]
  exact h.imp (fun h => ⟨h.1, hkernel _ h.2.1, h.2.2⟩) fun h => ⟨h.1, hkernel _ h.2.1, h.2.2⟩

/-- The last entry has come to `i`; the others have not moved. -/
theorem getElem?_removeAt {sockets : List ActiveSocket} {i j : Nat} {x : ActiveSocket}
    (hx : (removeAt sockets i)[j]? = some x) :
    j ≠ i ∧ sockets[j]? = some x ∨
      j = i ∧ i + 1 < sockets.length ∧ sockets.getLast? = some x := by
  unfold removeAt at hx
  split at hx
  · rename_i last hlast
    rw [List.getElem?_dropLast, List.length_set] at hx
    split at hx
    · rename_i hj
      by_cases hij : j = i
      · subst hij
        rw [List.getElem?_set_self (by omega)] at hx
        exact Or.inr ⟨rfl, by omega, hlast.trans hx⟩
      · rw [List.getElem?_set_ne (Ne.symm hij)] at hx
        exact Or.inl ⟨hij, hx⟩
    · cases hx
  · rename_i hnil
    rw [List.getLast?_eq_none_iff.mp hnil] at hx
    cases hx

theorem Accounts.active_lt (h : Accounts dropped closed r) (hc : r.Active c) :
    c < r.kernel.accepted.length := by
  obtain ⟨socket, hsocket, rfl⟩ := List.mem_map.mp hc
  obtain ⟨fd, hopened⟩ := (h.entries socket hsocket).opened
  exact hopened.lt

theorem Accounts.of_closed (h : Accounts dropped closed r)
    (hc : some (.connection c) ∈ closed.map Prod.snd) :
    c ∈ dropped ∧ c < r.kernel.accepted.length ∧ ¬r.Active c := by
  obtain ⟨x, hx, hxc⟩ := List.mem_map.mp hc
  obtain ⟨c', hc', heq, hgiven, hactive⟩ := h.named x hx
  obtain rfl : c = c' := by simpa using hxc.symm.trans heq
  exact ⟨hc', (List.getElem?_eq_some_iff.mp hgiven).1, hactive⟩

theorem Accounts.dropped_lt (h : Accounts dropped closed r) (hc : c ∈ dropped) :
    c < r.kernel.accepted.length := by
  rcases h.pending c hc with hclosed | hactive
  · exact (h.of_closed hclosed).2.1
  · exact h.active_lt hactive

theorem Accounts.settled_at (h : Accounts dropped closed r) {point : PollPoint} {j : Nat}
    (hat : r.point = point) (hsocket : r.activeSockets[j]? = some socket) : Settled point j socket := by
  rw [← hat]
  exact h.settled j socket hsocket

theorem accounts_start {files : List (Int × Endpoint)} (hfiles : ∀ x ∈ files, x.2 = .other) :
    Accounts [] [] (start files) := by
  refine ⟨List.nodup_nil, nofun, fun x hx c hc => ?_, nofun, List.nodup_nil, nofun, List.nodup_nil,
    nofun⟩
  rw [hfiles x hx] at hc
  cases hc

/-! ## 3. The steps -/

/-- No entry comes or goes, and `new` of them are dropped. -/
theorem Accounts.same (h : Accounts dropped closed r) (new : List Nat)
    (hconns : r'.activeSockets.map (·.conn) = r.activeSockets.map (·.conn))
    (hfiles : r'.kernel.files = r.kernel.files) (haccepted : r'.kernel.accepted = r.kernel.accepted)
    (hentries : ∀ socket ∈ r'.activeSockets, Recorded r'.kernel (dropped ++ new) socket)
    (hsettled : ∀ j socket, r'.activeSockets[j]? = some socket → Settled r'.point j socket)
    (hdistinct : (dropped ++ new).Nodup) (hnew : ∀ c ∈ new, r.Active c) :
    Accounts (dropped ++ new) closed r' := by
  have hactive : ∀ c, r'.Active c ↔ r.Active c := fun c => by rw [Active, Active, hconns]
  refine ⟨?_, hentries, fun x hx c hc => ?_, hsettled, hdistinct, fun x hx => ?_, h.once,
    fun c hc => ?_⟩
  · rw [hconns]
    exact h.conns
  · rw [hfiles] at hx
    rw [haccepted, hactive]
    exact h.files x hx c hc
  · obtain ⟨c, hc, heq, hgiven, hgone⟩ := h.named x hx
    refine ⟨c, List.mem_append_left _ hc, heq, ?_, ?_⟩
    · rwa [haccepted]
    · rwa [hactive]
  · rw [hactive]
    rcases List.mem_append.mp hc with hc | hc
    · exact h.pending c hc
    · exact Or.inr (hnew c hc)

theorem Accounts.moved (h : Accounts dropped closed r) (accept : Bool) {point : PollPoint}
    (hsettled : ∀ j socket, r.activeSockets[j]? = some socket → Settled point j socket) :
    Accounts (dropped ++ []) closed { r with acceptNewConnections := accept, point } := by
  refine h.same [] rfl rfl rfl ?_ hsettled ?_ nofun
  · rw [List.append_nil]
    exact h.entries
  · rw [List.append_nil]
    exact h.distinct

theorem Accounts.poll (h : Accounts dropped closed r) (hat : r.point = .poll) {hasNew : Bool}
    {revents : List Revents} (hlength : revents.length = r.activeSockets.length) :
    Accounts (dropped ++ []) closed { r with
      activeSockets := (r.activeSockets.zip revents).map fun x => { x.1 with revents := x.2 }
      point := .connect hasNew } := by
  refine h.same [] (map_conn_poll hlength) rfl rfl (fun x hx => ?_) (fun j x hx => ?_) ?_ nofun
  · obtain ⟨y, hy, rfl⟩ := List.mem_map.mp hx
    refine (h.entries y.1 (List.of_mem_zip hy).1).of_same rfl rfl (fun _ hopened => hopened) ?_
    rw [List.append_nil]
  · obtain ⟨y, hy, rfl⟩ := List.mem_map.mp (List.mem_of_getElem? hx)
    obtain ⟨j, hj⟩ := List.mem_iff_getElem?.mp (List.of_mem_zip hy).1
    have hsettled := h.settled_at hat hj
    exact hsettled
  · rw [List.append_nil]
    exact h.distinct

/-- The entry of a connection that is not dropped yet gets the negative of its descriptor. -/
theorem Accounts.drop (h : Accounts dropped closed r) (hsocket : r.activeSockets[i]? = some socket)
    (socket' : ActiveSocket) (hconn : socket'.conn = socket.conn) (hfd : socket'.fd = -socket.fd)
    (hpos : 0 < socket.fd) {point : PollPoint}
    (hsettled : ∀ j x, (r.activeSockets.set i socket')[j]? = some x → Settled point j x) :
    Accounts (dropped ++ [socket.conn]) closed
      { r with activeSockets := r.activeSockets.set i socket', point } := by
  have hmem := List.mem_of_getElem? hsocket
  obtain ⟨hopened, hfresh⟩ := (h.entries socket hmem).of_open (Int.le_of_lt hpos)
  refine h.same [socket.conn] (map_conn_set hsocket hconn) rfl rfl (fun x hx => ?_) hsettled ?_
    fun c hc => ?_
  · rcases of_mem_set h.conns hsocket hx with rfl | ⟨hx, hne⟩
    -- the double negative is the number again
    · refine Or.inr ⟨by omega, ?_, ?_⟩
      · rwa [hfd, Int.neg_neg, hconn]
      · rw [hconn]
        exact List.mem_append_right _ (List.mem_singleton.mpr rfl)
    · refine (h.entries x hx).of_same rfl rfl (fun _ hopened => hopened) ?_
      simp [hne]
  · refine List.nodup_append.mpr ⟨h.distinct, List.nodup_singleton _, fun a ha b hb => ?_⟩
    obtain rfl := List.mem_singleton.mp hb
    rintro rfl
    exact hfresh ha
  · obtain rfl := List.mem_singleton.mp hc
    exact List.mem_map_of_mem hmem

theorem Accounts.read (h : Accounts dropped closed r) (hat : r.point = .read i)
    (hsocket : r.activeSockets[i]? = some socket) (de : Deserializer) (chunk : List UInt8)
    (handed : List HandedOver) :
    Accounts (dropped ++ []) closed { r with
      activeSockets := r.activeSockets.set i { socket with deserializer := de, revents := .none }
      kernel := r.kernel.read socket.fd chunk
      handed
      point := .read (i + 1) } := by
  have hmem := List.mem_of_getElem? hsocket
  refine h.same [] (map_conn_set hsocket rfl) (files_read _ _ _) Kernel.accepted_read
    (fun x hx => ?_) (fun j x hx => ?_) ?_ nofun
  · rw [List.append_nil]
    rcases of_mem_set h.conns hsocket hx with rfl | ⟨hx, -⟩
    · exact (h.entries socket hmem).of_same rfl rfl (fun _ hopened => hopened.read _ _) Iff.rfl
    · exact (h.entries x hx).of_same rfl rfl (fun _ hopened => hopened.read _ _) Iff.rfl
  · rcases of_mem_set h.conns hsocket (List.mem_of_getElem? hx) with rfl | ⟨hx, -⟩
    · exact fun _ => rfl
    · obtain ⟨j, hj⟩ := List.mem_iff_getElem?.mp hx
      have hsettled := h.settled_at hat hj
      exact hsettled
  · rw [List.append_nil]
    exact h.distinct

theorem Accounts.accept (h : Accounts dropped closed r) {hasNew : Bool}
    (hat : r.point = .connect hasNew) (hfd : 0 ≤ fd) (hfree : fd ∉ r.kernel.files.map Prod.fst) :
    Accounts dropped closed { r with
      kernel := r.kernel.accept fd
      activeSockets :=
        r.activeSockets ++ [⟨fd, .none, deserializerCreate, r.kernel.accepted.length⟩]
      point := .validate 0 } := by
  -- the number of the new connection is that of no entry
  have hactive : ∀ c,
      c ∈ (r.activeSockets ++ [ActiveSocket.mk fd .none deserializerCreate
        r.kernel.accepted.length]).map (·.conn) ↔ r.Active c ∨ c = r.kernel.accepted.length := by
    intro c
    rw [List.map_append, List.mem_append]
    exact or_congr Iff.rfl List.mem_singleton
  refine ⟨?_, fun x hx => ?_, fun x hx c hc => ?_, fun j x hx => ?_, h.distinct, fun x hx => ?_, h.once,
    fun c hc => (h.pending c hc).imp_right fun hc => (hactive c).mpr (Or.inl hc)⟩
  · show (List.map _ (_ ++ _)).Nodup
    rw [List.map_append, List.nodup_append]
    refine ⟨h.conns, List.nodup_singleton _, fun a ha b hb => ?_⟩
    obtain rfl := List.mem_singleton.mp hb
    exact Nat.ne_of_lt (h.active_lt ha)
  · rcases List.mem_append.mp hx with hx | hx
    · exact (h.entries x hx).of_same rfl rfl (fun _ hopened => hopened.accept hfree) Iff.rfl
    · obtain rfl := List.mem_singleton.mp hx
      exact Or.inl ⟨hfd, opened_accept, fun hc => Nat.lt_irrefl _ (h.dropped_lt hc)⟩
  · rcases List.mem_cons.mp hx with rfl | hx
    · cases hc
      exact ⟨Kernel.getElem?_accept.mpr (Or.inr ⟨rfl, rfl⟩), (hactive _).mpr (Or.inr rfl)⟩
    · obtain ⟨hgiven, hc⟩ := h.files x hx c hc
      exact ⟨Kernel.getElem?_accept.mpr (Or.inl hgiven), (hactive c).mpr (Or.inl hc)⟩
  · rcases List.mem_append.mp (List.mem_of_getElem? hx) with hx | hx
    · obtain ⟨j, hj⟩ := List.mem_iff_getElem?.mp hx
      have hsettled := h.settled_at hat hj
      exact hsettled
    · obtain rfl := List.mem_singleton.mp hx
      exact hfd
  · obtain ⟨c, hc, heq, hgiven, hgone⟩ := h.named x hx
    refine ⟨c, hc, heq, Kernel.getElem?_accept.mpr (Or.inl hgiven), fun hc' => ?_⟩
    rcases (hactive c).mp hc' with hc' | rfl
    · exact hgone hc'
    · exact Nat.lt_irrefl _ (h.dropped_lt hc)

theorem Accounts.close (h : Accounts dropped closed r) (hat : r.point = .cleanup i)
    (hsocket : r.activeSockets[i]? = some socket) (hdead : socket.fd < 0)
    (hreached : i + 1 < r.activeSockets.length →
      ∀ last, r.activeSockets.getLast? = some last → 0 ≤ last.fd) :
    Accounts dropped (closed ++ [(-socket.fd, r.kernel.endpoint (-socket.fd))]) { r with
      kernel := r.kernel.close (-socket.fd)
      activeSockets := removeAt r.activeSockets i
      point := .cleanup (i + 1) } := by
  have hmem := List.mem_of_getElem? hsocket
  obtain ⟨hopened, hdropped⟩ := (h.entries socket hmem).of_dead hdead
  have hconns : ((removeAt r.activeSockets i).map (·.conn)).Perm
      ((r.activeSockets.map (·.conn)).erase socket.conn) := by
    have hi : (r.activeSockets.map (·.conn))[i]? = some socket.conn := by
      rw [List.getElem?_map, hsocket]
      rfl
    obtain ⟨hlt, heq⟩ := List.getElem?_eq_some_iff.mp hi
    rw [← heq, h.conns.erase_getElem i hlt, List.eraseIdx_map]
    exact (removeAt_perm hsocket).map _
  -- the connections that keep their entry
  have hactive : ∀ c, c ∈ (removeAt r.activeSockets i).map (·.conn) ↔ c ≠ socket.conn ∧ r.Active c := by
    intro c
    rw [hconns.mem_iff, h.conns.mem_erase_iff]
    rfl
  refine ⟨?_, fun x hx => ?_, fun x hx c hc => ?_, fun j x hx => ?_, h.distinct, fun x hx => ?_, ?_,
    fun c hc => ?_⟩
  · exact hconns.nodup_iff.mpr (h.conns.erase _)
  · have hx' : x ∈ r.activeSockets := List.mem_of_mem_eraseIdx ((removeAt_perm hsocket).subset hx)
    have hne := ((hactive x.conn).mp (List.mem_map_of_mem hx)).1
    exact (h.entries x hx').of_same rfl rfl (fun _ hx => hx.close hopened hne) Iff.rfl
  · -- a connection has one descriptor, and that of this one is gone
    obtain ⟨hx, hother⟩ := List.mem_filter.mp hx
    obtain ⟨hgiven, hc⟩ := h.files x hx c hc
    refine ⟨hgiven, (hactive c).mpr ⟨?_, hc⟩⟩
    rintro rfl
    have heq := hgiven.symm.trans hopened.given
    exact of_decide_eq_true hother (Option.some.inj heq)
  · -- at `i` there is the last entry now
    intro hj
    rcases getElem?_removeAt hx with ⟨hne, hx⟩ | ⟨rfl, hlast, hx⟩
    · exact h.settled_at hat hx (by omega)
    · exact hreached hlast x hx
  · rcases List.mem_append.mp hx with hx | hx
    · obtain ⟨c, hc, heq, hgiven, hgone⟩ := h.named x hx
      exact ⟨c, hc, heq, hgiven, fun hc' => hgone ((hactive c).mp hc').2⟩
    · obtain rfl := List.mem_singleton.mp hx
      exact ⟨socket.conn, hdropped, hopened.endpoint, hopened.given,
        fun hc' => ((hactive _).mp hc').1 rfl⟩
  · rw [List.map_append, List.nodup_append]
    refine ⟨h.once, List.nodup_singleton _, fun a ha b hb => ?_⟩
    obtain rfl := List.mem_singleton.mp hb
    rintro rfl
    rw [hopened.endpoint] at ha
    exact (h.of_closed ha).2.2 (List.mem_map_of_mem hmem)
  · rw [List.map_append, List.mem_append]
    by_cases hsame : c = socket.conn
    · subst hsame
      exact Or.inl (Or.inr (List.mem_singleton.mpr hopened.endpoint.symm))
    · exact (h.pending c hc).imp Or.inl fun hc => (hactive c).mpr ⟨hsame, hc⟩

theorem Accounts.of_logs (hdropping : dropping r answer = none) (hclosing : closing r answer = none)
    (h : Accounts (dropped ++ []) closed r') :
    Accounts (dropped ++ ((dropping r answer).map (·.conn)).toList)
      (closed ++ (closing r answer).toList) r' := by
  rw [hdropping, hclosing]
  rwa [Option.toList_none, List.append_nil]

/-- An entry that can be dropped still has its descriptor. -/
theorem Accounts.droppable (h : Accounts dropped closed r) (hsocket : r.activeSockets[i]? = some socket)
    (hat : r.point = .validate i ∨ r.point = .read i ∧ socket.revents ≠ .none) : 0 ≤ socket.fd := by
  rcases hat with hat | ⟨hat, hevents⟩
  · exact h.settled_at hat hsocket
  · exact Int.not_lt.mp fun hdead => hevents (h.settled_at hat hsocket hdead)

/-- Invalid bytes and a hang-up end the call. -/
theorem Accounts.negate (h : Accounts dropped closed r) (hkept : NumberKept r .go)
    (hsocket : r.activeSockets[i]? = some socket) (hopen : 0 ≤ socket.fd)
    (hdropping : dropping r .go = some socket) (hclosing : closing r .go = none) :
    Accounts (dropped ++ ((dropping r .go).map (·.conn)).toList) (closed ++ (closing r .go).toList)
      ((r.setSocket i { socket with fd := -socket.fd }).goTo (.cleanup 0)) := by
  have hpos : 0 < socket.fd := by
    have hne := hkept.negated socket hdropping rfl
    omega
  rw [hclosing, hdropping, Option.toList_none, List.append_nil]
  exact h.drop hsocket { socket with fd := -socket.fd } rfl rfl hpos fun _ _ _ hj =>
    absurd hj (Nat.not_lt_zero _)

theorem Accounts.turn (h : Accounts dropped closed r) (hkept : NumberKept r answer)
    (hturn : Turn sent P r answer r') :
    Accounts (dropped ++ ((dropping r answer).map (·.conn)).toList)
      (closed ++ (closing r answer).toList) r' := by
  cases hturn with
  | cleaned hat hend =>
    refine .of_logs (by simp [dropping, hat]) (by simp [closing, hat, hend])
      (h.moved _ fun j x hx => ?_)
    -- the loop has seen all entries
    have hj := (List.getElem?_eq_some_iff.mp hx).1
    exact h.settled_at hat hx (Nat.lt_of_lt_of_le hj (List.getElem?_eq_none_iff.mp hend))
  | kept hat hsocket hopen =>
    refine .of_logs (by simp [dropping, hat])
      (by simp [closing, hat, hsocket, hopen]) (h.moved _ fun j x hx hj => ?_)
    rcases Nat.lt_succ_iff_lt_or_eq.mp hj with hj | rfl
    · exact h.settled_at hat hx hj
    · rwa [Option.some.inj (hx.symm.trans hsocket)]
  | closed hat hsocket hdead =>
    rename_i i socket
    have hclosing : closing r .go = some (-socket.fd, r.kernel.endpoint (-socket.fd)) := by
      simp [closing, hat, hsocket, hdead]
    have hdropping : dropping r .go = none := by simp [dropping, hat]
    rw [hclosing, hdropping, Option.map_none, Option.toList_none, List.append_nil]
    exact h.close hat hsocket hdead (hkept.reached i hat (by rw [hclosing]; nofun))
  | signalled hat =>
    refine .of_logs ?_ ?_ (h.moved _ fun _ _ _ hj => absurd hj (Nat.not_lt_zero _))
    · cases hpoint : r.point <;> simp [dropping, hpoint]
    · cases hpoint : r.point <;> simp [closing, hpoint]
  | quiet hat =>
    exact .of_logs (by simp [dropping, hat]) (by simp [closing, hat])
      (h.moved _ fun _ _ _ hj => absurd hj (Nat.not_lt_zero _))
  | polled hat hlength hpolls =>
    exact .of_logs (by simp [dropping, hat]) (by simp [closing, hat]) (h.poll hat hlength)
  | connected hat =>
    refine .of_logs (by simp [dropping, hat]) (by simp [closing, hat])
      (h.moved _ fun j x hx => ?_)
    have hsettled := h.settled_at hat hx
    exact hsettled
  | accepted hat hfd hfree =>
    refine .of_logs (by simp [dropping, hat]) (by simp [closing, hat]) ?_
    rw [List.append_nil]
    exact h.accept hat hfd hfree
  | validated hat hsocket hvalid =>
    refine .of_logs (by simp [dropping, hat, hsocket, hvalid]) (by simp [closing, hat])
      (h.moved _ fun j x hx => ?_)
    have hsettled := h.settled_at hat hx
    exact hsettled
  | allValid hat hend =>
    refine .of_logs (by simp [dropping, hat, hend]) (by simp [closing, hat])
      (h.moved _ fun j x hx hdead => ?_)
    exact absurd (h.settled_at hat hx) (Int.not_le.mpr hdead)
  | invalid hat hsocket hvalid =>
    exact h.negate hkept hsocket (h.droppable hsocket (Or.inl hat))
      (by simp [dropping, hat, hsocket, hvalid]) (by simp [closing, hat])
  | hungUp hat hsocket hevents =>
    exact h.negate hkept hsocket (h.droppable hsocket (Or.inr ⟨hat, by rw [hevents]; nofun⟩))
      (by simp [dropping, hat, hsocket, hevents]) (by simp [closing, hat])
  | skipped hat hsocket hevents =>
    refine .of_logs (by simp [dropping, hat, hsocket, hevents]) (by simp [closing, hat])
      (h.moved _ fun j x hx => ?_)
    have hsettled := h.settled_at hat hx
    exact hsettled
  | ended hanswer hat hsocket hevents hbuffer hmissing =>
    rename_i i socket de
    have hclosing : closing r answer = none := by simp [closing, hat]
    have hdropping : dropping r answer = some socket := by
      rcases hanswer with rfl | rfl <;> simp [dropping, hat, hsocket]
    -- -1 is the negative of this descriptor only
    have hone : socket.fd = 1 := by
      refine hkept.ended socket hdropping ?_
      rcases hanswer with rfl | rfl <;> nofun
    rw [hclosing, hdropping, Option.toList_none, List.append_nil]
    refine h.drop hsocket { socket with fd := -1, deserializer := de, revents := .none } rfl
      (by rw [hone]) (by omega) fun j x hx => ?_
    rcases of_mem_set h.conns hsocket (List.mem_of_getElem? hx) with rfl | ⟨hx, -⟩
    · exact fun _ => rfl
    · obtain ⟨j, hj⟩ := List.mem_iff_getElem?.mp hx
      have hsettled := h.settled_at hat hj
      exact hsettled
  | received hat hsocket hevents hbuffer hmissing hchunk hgives hfill hdetach =>
    exact .of_logs (by simp [dropping, hat]) (by simp [closing, hat]) (h.read hat hsocket _ _ _)
  | done hat hend =>
    exact .of_logs (by simp [dropping, hat, hend]) (by simp [closing, hat])
      (h.moved _ fun _ _ _ hj => absurd hj (Nat.not_lt_zero _))

/-! ## 4. The runs -/

theorem accounts_of_runs {files : List (Int × Endpoint)} {tr : List (Receiver × KernelAnswer)}
    (hrun : Runs P sent files tr r) (hkept : ∀ x ∈ tr, NumberKept x.1 x.2) :
    Accounts (droppedIn tr) (closedIn tr) r := by
  obtain ⟨hfiles, hrun⟩ := hrun
  induction hrun with
  | nil => exact accounts_start hfiles
  | snoc run next ih =>
    rename_i tr r r' answer
    have h := ih fun x hx => hkept x (List.mem_append_left _ hx)
    have hlast := hkept (r, answer) (List.mem_append_right _ (List.mem_singleton.mpr rfl))
    have hnext := h.turn hlast (turn_of_next next)
    have hdropped : droppedIn (tr ++ [(r, answer)]) =
        droppedIn tr ++ ((dropping r answer).map (·.conn)).toList := by
      simp only [droppedIn, List.filterMap_append, List.filterMap_cons, List.filterMap_nil]
      cases (dropping r answer).map (·.conn) <;> rfl
    have hclosed : closedIn (tr ++ [(r, answer)]) = closedIn tr ++ (closing r answer).toList := by
      simp only [closedIn, List.filterMap_append, List.filterMap_cons, List.filterMap_nil]
      cases closing r answer <;> rfl
    rwa [hdropped, hclosed]

/-- In every run in which the numbers are kept, `receiver_cleanup` closes the descriptors of the
dropped connections and nothing else, each once. -/
theorem closes_dropped_of_numberKept {files : List (Int × Endpoint)}
    {tr : List (Receiver × KernelAnswer)} (hrun : Runs P sent files tr r)
    (hkept : ∀ x ∈ tr, NumberKept x.1 x.2) : ClosesDropped tr r := by
  have h := accounts_of_runs hrun hkept
  refine ⟨h.distinct, fun x hx => ?_, h.once, fun hat c hc => ?_, fun c hc x hx heq => ?_⟩
  · obtain ⟨c, hc, heq, hgiven, -⟩ := h.named x hx
    exact ⟨c, hc, heq, hgiven⟩
  · -- the entries that `receiver_cleanup` leaves are those of connections that are not dropped
    refine (h.pending c hc).resolve_right fun hactive => ?_
    obtain ⟨socket, hsocket, rfl⟩ := List.mem_map.mp hactive
    obtain ⟨j, hj⟩ := List.mem_iff_getElem?.mp hsocket
    exact ((h.entries socket hsocket).of_open (h.settled_at hat hj)).2 hc
  · exact (h.of_closed hc).2.2 (h.files x hx c heq).2

/-- `NumberKept` as a test. -/
def numberKept (r : Receiver) (answer : KernelAnswer) : Bool :=
  (dropping r answer).all (fun socket => if answer = .go then socket.fd ≠ 0 else socket.fd = 1) &&
    ((closing r answer).isNone || r.activeSockets.getLast?.all fun last => 0 ≤ last.fd)

theorem numberKept_of_test (h : r.numberKept answer = true) : r.NumberKept answer := by
  obtain ⟨hdropping, hclosing⟩ := (Bool.and_eq_true _ _).mp h
  refine ⟨fun socket hsocket hend => ?_, fun socket hsocket hgo => ?_,
    fun i _ hclose _ last hlast => ?_⟩
  · rw [hsocket, Option.all_some, if_neg hend] at hdropping
    exact of_decide_eq_true hdropping
  · rw [hsocket, Option.all_some, if_pos hgo] at hdropping
    exact of_decide_eq_true hdropping
  · rw [hlast, Option.all_some, Bool.or_eq_true, Option.isNone_iff_eq_none] at hclosing
    exact of_decide_eq_true (hclosing.resolve_left hclose)

/-- Two connections; the first hangs up. -/
theorem closes_dropped_of_numberKept_two :
    ∃ tr r, Runs samplePlatform (fun _ => []) usualFiles tr r ∧
      closedIn tr = [(4, some (.connection 0))] ∧ r.point = .poll ∧ ClosesDropped tr r := by
  obtain ⟨tr, r, hrun, htest⟩ := runs_of_answers samplePlatform (fun _ => [])
    [.go, .events true [], .accepted 4, .go, .go, .go, .go,
      .go, .go, .events true [.none], .accepted 5, .go, .go, .go, .go, .go, .go,
      .go, .go, .go, .events false [.other, .none], .go, .go, .go, .go, .go,
      -- the entry of the second takes its place
      .go, .go]
    (fun tr r => closedIn tr == [(4, some (.connection 0))] && r.point == .poll &&
      tr.all fun x => x.1.numberKept x.2) (by decide +kernel)
  simp only [Bool.and_eq_true, beq_iff_eq, List.all_eq_true] at htest
  exact ⟨tr, r, hrun, htest.1.1, htest.1.2, closes_dropped_of_numberKept hrun fun x hx =>
    numberKept_of_test (htest.2 x hx)⟩

/-- The only connection ends its stream, and the standard output is closed for it. -/
theorem standard_output_closed :
    ¬∀ (P : Platform) (sent : Nat → List UInt8) (files : List (Int × Endpoint))
      (tr : List (Receiver × KernelAnswer)) (r : Receiver),
      Runs P sent files tr r → ClosesDropped tr r := by
  intro hclaim
  obtain ⟨tr, r, hrun, htest⟩ := runs_of_answers samplePlatform (fun _ => [])
    [.go, .events true [], .accepted 4, .go, .go, .go, .go,
      .go, .go, .events false [.pollin], .go, .go, .go, .eof, .go,
      .go, .go]
    (fun tr _ => (1, some .other) ∈ closedIn tr) (by decide +kernel)
  obtain ⟨c, -, hother, -⟩ := (hclaim _ _ _ _ _ hrun).closed _ (of_decide_eq_true htest)
  simp at hother

end FileStorage.Server.Receiver
