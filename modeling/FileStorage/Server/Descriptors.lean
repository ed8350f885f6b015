import FileStorage.Server.Handover

/-!
# Descriptors — which connection an entry is for

An entry of `active_sockets` has a descriptor number, and the kernel may give the number away once
it is closed.  As long as `accept` gives no number that an entry still has, an entry reads from the
connection that it was made for, or from none.
-/

namespace FileStorage.Server.Receiver

variable {P : Platform} {sent : Nat → List UInt8} {r r' : Receiver} {answer : KernelAnswer} {i : Nat}
  {socket socket' : ActiveSocket}

/-! ## 1. The invariant -/

structure Owned (r : Receiver) : Prop where
  conns : (r.activeSockets.map (·.conn)).Nodup
  known : ∀ socket ∈ r.activeSockets, socket.conn < r.kernel.accepted.length
  opened : ∀ socket ∈ r.activeSockets, 0 ≤ socket.fd → r.kernel.Gave socket.fd socket.conn
  /-- An entry that was dropped does not come back, or comes back under its own descriptor. -/
  dropped : ∀ socket ∈ r.activeSockets, socket.fd < 0 →
    deserializerValidate socket.deserializer = .ok true ∨
      r.kernel.Gave (-socket.fd) socket.conn
  quiet : r.point.early = false → ∀ socket ∈ r.activeSockets, socket.fd < 0 → socket.revents = .none
  tagged : ∀ h ∈ r.handed, r.kernel.accepted[h.conn]? = some h.fd

/-- The number that `accept` gives is not that of an entry, nor that of one which is dropped and may
come back. -/
def AcceptsFresh (r : Receiver) (answer : KernelAnswer) : Prop :=
  ∀ fd, answer = .accepted fd → ∀ socket ∈ r.activeSockets,
    socket.fd ≠ fd ∧ (socket.fd = -fd → deserializerValidate socket.deserializer = .ok true)

theorem owned_start (files : List (Int × Endpoint)) : Owned (start files) :=
  ⟨List.nodup_nil, nofun, nofun, nofun, nofun, nofun⟩

/-! ## 2. The entries after one of them was replaced -/

theorem of_mem_set {sockets : List ActiveSocket} (hnodup : (sockets.map (·.conn)).Nodup)
    (hsocket : sockets[i]? = some socket) {x : ActiveSocket} (hx : x ∈ sockets.set i socket') :
    x = socket' ∨ (x ∈ sockets ∧ x.conn ≠ socket.conn) := by
  obtain ⟨j, hj⟩ := List.mem_iff_getElem?.mp hx
  -- no two entries are of one connection, so another index is another connection
  by_cases hij : i = j
  · subst hij
    rw [List.getElem?_set_self (List.getElem?_eq_some_iff.mp hsocket).1] at hj
    exact Or.inl (Option.some.inj hj).symm
  · rw [List.getElem?_set_ne hij] at hj
    refine Or.inr ⟨List.mem_of_getElem? hj, fun hconn => hij ?_⟩
    have hi : (sockets.map (·.conn))[i]? = some socket.conn := by
      rw [List.getElem?_map, hsocket]
      rfl
    have hj' : (sockets.map (·.conn))[j]? = some socket.conn := by
      rw [List.getElem?_map, hj, ← hconn]
      rfl
    exact (List.getElem?_inj (List.getElem?_eq_some_iff.mp hi).1 hnodup).mp (hi.trans hj'.symm)

theorem map_conn_set {sockets : List ActiveSocket} (hsocket : sockets[i]? = some socket)
    (hconn : socket'.conn = socket.conn) :
    (sockets.set i socket').map (·.conn) = sockets.map (·.conn) := by
  obtain ⟨hi, rfl⟩ := List.getElem?_eq_some_iff.mp hsocket
  rw [List.map_set, hconn]
  refine List.ext_getElem (by simp) fun j _ _ => ?_
  by_cases hij : i = j
  · subst hij
    simp
  · simp [List.getElem_set_ne hij]

theorem map_conn_poll {sockets : List ActiveSocket} {revents : List Revents}
    (hlength : revents.length = sockets.length) :
    ((sockets.zip revents).map fun x => { x.1 with revents := x.2 }).map (·.conn) =
      sockets.map (·.conn) := by
  calc
    _ = ((sockets.zip revents).map Prod.fst).map (·.conn) := by
      rw [List.map_map, List.map_map]
      rfl
    _ = _ := by rw [List.map_fst_zip (Nat.le_of_eq hlength.symm)]

/-- One entry is changed; the kernel may have been read from. -/
theorem Owned.set (h : Owned r) (hsocket : r.activeSockets[i]? = some socket)
    (hsockets : r'.activeSockets = r.activeSockets.set i socket')
    (hconn : socket'.conn = socket.conn)
    (hopened : 0 ≤ socket'.fd → r.kernel.Gave socket'.fd socket.conn)
    (hdropped : socket'.fd < 0 → deserializerValidate socket'.deserializer = .ok true ∨
      r.kernel.Gave (-socket'.fd) socket.conn)
    (hkernel : ∀ fd c, r.kernel.Gave fd c → r'.kernel.Gave fd c)
    (haccepted : r'.kernel.accepted = r.kernel.accepted)
    (hhanded : ∀ x ∈ r'.handed, x ∈ r.handed ∨ r.kernel.accepted[x.conn]? = some x.fd)
    (hpoint : r'.point.early ∨ r.point.early = false ∧ socket'.revents = .none) : Owned r' := by
  refine ⟨?_, fun x hx => ?_, fun x hx hopen => ?_, fun x hx hdead => ?_, fun hlate x hx hdead => ?_,
    fun x hx => ?_⟩
  · rw [hsockets, map_conn_set hsocket hconn]
    exact h.conns
  · rw [hsockets] at hx
    rw [haccepted]
    rcases of_mem_set h.conns hsocket hx with rfl | ⟨hx, -⟩
    · rw [hconn]
      exact h.known socket (List.mem_of_getElem? hsocket)
    · exact h.known x hx
  · rw [hsockets] at hx
    rcases of_mem_set h.conns hsocket hx with rfl | ⟨hx, -⟩
    · rw [hconn]
      exact hkernel _ _ (hopened hopen)
    · exact hkernel _ _ (h.opened x hx hopen)
  · rw [hsockets] at hx
    rcases of_mem_set h.conns hsocket hx with rfl | ⟨hx, -⟩
    · rw [hconn]
      exact (hdropped hdead).imp_right (hkernel _ _)
    · exact (h.dropped x hx hdead).imp_right (hkernel _ _)
  · obtain ⟨hearly, hnone⟩ := hpoint.resolve_left (by rw [Bool.not_eq_true]; exact hlate)
    rw [hsockets] at hx
    rcases of_mem_set h.conns hsocket hx with rfl | ⟨hx, -⟩
    · exact hnone
    · exact h.quiet hearly x hx hdead
  · rw [haccepted]
    exact (hhanded x hx).elim (h.tagged x) id

/-! ## 3. The steps -/

theorem Owned.goTo (h : Owned r) (hlate : r.point.early = false) (point : PollPoint) :
    Owned (r.goTo point) :=
  ⟨h.conns, h.known, h.opened, h.dropped, fun _ => h.quiet hlate, h.tagged⟩

theorem Owned.close (h : Owned r) (hsocket : r.activeSockets[i]? = some socket) (fd : Int)
    (j : Nat) :
    Owned { r with
      kernel := r.kernel.close fd
      activeSockets := removeAt r.activeSockets i
      point := .cleanup j } := by
  have hperm := removeAt_perm hsocket
  have hmem : ∀ x ∈ removeAt r.activeSockets i, x ∈ r.activeSockets := fun x hx =>
    List.mem_of_mem_eraseIdx (hperm.subset hx)
  refine ⟨?_, fun x hx => h.known x (hmem x hx), fun x hx hopen => ?_, fun x hx hdead => ?_, nofun,
    h.tagged⟩
  · have hsub := (List.eraseIdx_sublist r.activeSockets i).map (·.conn)
    exact (hperm.map (·.conn)).nodup_iff.mpr (h.conns.sublist hsub)
  · exact (h.opened x (hmem x hx) hopen).close fd
  · exact (h.dropped x (hmem x hx) hdead).imp_right fun hgave => hgave.close fd

theorem Owned.poll (h : Owned r) {hasNew : Bool} {revents : List Revents}
    (hlength : revents.length = r.activeSockets.length)
    (hpolls : ∀ x ∈ r.activeSockets.zip revents, r.kernel.polls x.1.fd x.2) :
    Owned { r with
      activeSockets := (r.activeSockets.zip revents).map fun x => { x.1 with revents := x.2 }
      point := .connect hasNew } := by
  refine ⟨?_, fun x hx => ?_, fun x hx hopen => ?_, fun x hx hdead => ?_, fun _ x hx hdead => ?_,
    h.tagged⟩
  · show (List.map _ (List.map _ _)).Nodup
    rw [map_conn_poll hlength]
    exact h.conns
  · obtain ⟨y, hy, rfl⟩ := List.mem_map.mp hx
    exact h.known y.1 (List.of_mem_zip hy).1
  · obtain ⟨y, hy, rfl⟩ := List.mem_map.mp hx
    exact h.opened y.1 (List.of_mem_zip hy).1 hopen
  · obtain ⟨y, hy, rfl⟩ := List.mem_map.mp hx
    exact h.dropped y.1 (List.of_mem_zip hy).1 hdead
  · obtain ⟨y, hy, rfl⟩ := List.mem_map.mp hx
    have hpoll := hpolls y hy
    -- `poll` skips it
    rw [Kernel.polls, if_pos hdead] at hpoll
    exact of_decide_eq_true hpoll

theorem Owned.accept (h : Owned r) {fd : Int} (hfd : 0 ≤ fd) (hlate : r.point.early = false)
    (hfresh : r.AcceptsFresh (.accepted fd)) :
    Owned { r with
      kernel := r.kernel.accept fd
      activeSockets :=
        r.activeSockets ++ [⟨fd, .none, deserializerCreate, r.kernel.accepted.length⟩]
      point := .validate 0 } := by
  refine ⟨?_, fun x hx => ?_, fun x hx hopen => ?_, fun x hx hdead => ?_, fun _ x hx hdead => ?_,
    fun x hx => Kernel.getElem?_accept.mpr (Or.inl (h.tagged x hx))⟩
  · show (List.map _ (_ ++ _)).Nodup
    rw [List.map_append, List.nodup_append]
    refine ⟨h.conns, List.nodup_singleton _, fun a ha b hb => ?_⟩
    obtain ⟨x, hx, rfl⟩ := List.mem_map.mp ha
    obtain rfl := List.mem_singleton.mp hb
    exact Nat.ne_of_lt (h.known x hx)
  · show x.conn < (r.kernel.accepted ++ [fd]).length
    rw [List.length_append, List.length_singleton]
    rcases List.mem_append.mp hx with hx | hx
    · exact Nat.lt_succ_of_lt (h.known x hx)
    · obtain rfl := List.mem_singleton.mp hx
      exact Nat.lt_succ_self _
  · rcases List.mem_append.mp hx with hx | hx
    · exact (h.opened x hx hopen).accept (hfresh fd rfl x hx).1
    · obtain rfl := List.mem_singleton.mp hx
      exact Kernel.gave_accept_self
  · rcases List.mem_append.mp hx with hx | hx
    · rcases h.dropped x hx hdead with hvalid | hgave
      · exact Or.inl hvalid
      -- a dropped entry on the same number must not be one that comes back
      · by_cases heq : -x.fd = fd
        · exact Or.inl ((hfresh fd rfl x hx).2 (by omega))
        · exact Or.inr (hgave.accept heq)
    · obtain rfl := List.mem_singleton.mp hx
      exact absurd hdead (Int.not_lt.mpr hfd)
  · rcases List.mem_append.mp hx with hx | hx
    · exact h.quiet hlate x hx hdead
    · obtain rfl := List.mem_singleton.mp hx
      rfl

/-- A read entry still has its descriptor. -/
theorem Owned.readable (h : Owned r) (hat : r.point = .read i) (hsocket : socket ∈ r.activeSockets)
    (hevents : socket.revents ≠ .none) : 0 ≤ socket.fd := by
  refine Int.not_lt.mp fun hdead => hevents ?_
  exact h.quiet (by rw [hat]; rfl) socket hsocket hdead

/-- Entries do not change hands. -/
theorem Owned.step (h : Owned r) (hg : Guarded r) (hfresh : r.AcceptsFresh answer)
    (hstep : Step sent P r answer r') : Owned r' := by
  cases hstep with
  | moved hearly =>
    refine ⟨h.conns, h.known, h.opened, h.dropped, fun hlate => ?_, h.tagged⟩
    exact absurd hearly (by rw [Bool.not_eq_true]; exact hlate)
  | closed hat hsocket hdead => exact h.close hsocket _ _
  | polled hlength hpolls => exact h.poll hlength hpolls
  | connected hat => exact h.goTo (by rw [hat]; rfl) _
  | accepted hat hfd hfree => exact h.accept hfd (by rw [hat]; rfl) hfresh
  | validated hat hsocket hvalid => exact h.goTo (by rw [hat]; rfl) _
  | allValid hat hend => exact h.goTo (by rw [hat]; rfl) _
  | skipped hat => exact h.goTo (by rw [hat]; rfl) _
  | invalid hat hsocket hvalid =>
    rename_i i socket
    have hmem := List.mem_of_getElem? hsocket
    refine h.set hsocket rfl rfl (fun hopen => ?_) (fun hdead => Or.inr ?_) (fun _ _ hl => hl) rfl
      (fun _ hx => Or.inl hx) (Or.inl rfl)
    · change 0 ≤ -socket.fd at hopen
      rcases Int.lt_or_eq_of_le (Int.neg_nonneg.mp hopen) with hdead | hzero
      · -- it was dropped before, and is back under its own descriptor
        refine (h.dropped socket hmem hdead).resolve_left fun htrue => ?_
        rw [hvalid] at htrue
        cases htrue
      -- descriptor 0 is its own negative
      · have hself := h.opened socket hmem (by omega)
        have hsame : -socket.fd = socket.fd := by omega
        show r.kernel.Gave (-socket.fd) socket.conn
        rwa [hsame]
    · change -socket.fd < 0 at hdead
      show r.kernel.Gave (- -socket.fd) socket.conn
      rw [Int.neg_neg]
      exact h.opened socket hmem (by omega)
  | hungUp hat hsocket hevents =>
    rename_i i socket
    have hmem := List.mem_of_getElem? hsocket
    have hopen := h.readable hat hmem (by rw [hevents]; nofun)
    have hself := h.opened socket hmem hopen
    refine h.set hsocket rfl rfl (fun hback => ?_) (fun _ => Or.inr ?_) (fun _ _ hl => hl) rfl
      (fun _ hx => Or.inl hx) (Or.inl rfl)
    · change 0 ≤ -socket.fd at hback
      show r.kernel.Gave (-socket.fd) socket.conn
      have hzero : -socket.fd = socket.fd := by omega
      rw [hzero]
      exact hself
    · show r.kernel.Gave (- -socket.fd) socket.conn
      rw [Int.neg_neg]
      exact hself
  | ended hat hsocket hbuffer hmissing =>
    rename_i i socket de
    have hmem := List.mem_of_getElem? hsocket
    have hvalid := hg.valid i socket (by rw [hat]; exact Nat.le_refl i) hsocket
    -- its bytes stay valid, so no later call turns the descriptor round again
    have htrue := (hg.sound socket hmem).validate_buffer hvalid hbuffer hmissing
    refine h.set hsocket rfl rfl (fun hopen => ?_) (fun _ => Or.inl htrue) (fun _ _ hl => hl) rfl
      (fun _ hx => Or.inl hx) (Or.inr ⟨by rw [hat]; rfl, rfl⟩)
    change (0 : Int) ≤ -1 at hopen
    exact absurd hopen (by decide)
  | received hat hsocket hevents hbuffer hmissing hchunk hgives hfill hdetach =>
    rename_i i socket chunk de₁ de₂ de₃ buf
    have hmem := List.mem_of_getElem? hsocket
    have hopen := h.readable hat hmem (by rw [hevents]; nofun)
    have hself := h.opened socket hmem hopen
    refine h.set hsocket rfl rfl (fun _ => hself) (fun hdead => ?_) (fun _ _ hl => hl.read)
      Kernel.accepted_read (fun x hx => ?_) (Or.inr ⟨by rw [hat]; rfl, rfl⟩)
    · exact absurd hopen (Int.not_le.mpr hdead)
    · refine (List.mem_append.mp hx).imp_right fun hx => ?_
      obtain ⟨b, -, rfl⟩ := List.mem_map.mp hx
      exact hself.given

/-! ## 4. What a step leaves as it is -/

/-- Only an `accept` that gives the same number puts another connection on a descriptor. -/
theorem Step.gave (hstep : Step sent P r answer r') {fd : Int} {c : Nat}
    (h : r.kernel.Gave fd c) (hfresh : ∀ fd', answer = .accepted fd' → fd ≠ fd') :
    r'.kernel.Gave fd c := by
  cases hstep with
  | moved | polled | connected | validated | allValid | invalid | hungUp | skipped | ended => exact h
  | closed hat hsocket hdead => exact h.close _
  | accepted hat hfd hfree => exact h.accept (hfresh _ rfl)
  | received hat hsocket hevents hbuffer hmissing hchunk hgives hfill hdetach => exact h.read

theorem Step.latest (hstep : Step sent P r answer r') {fd : Int} {n : Nat}
    (h : ∀ c, r.kernel.accepted[c]? = some fd → c ≤ n)
    (hfresh : ∀ fd', answer = .accepted fd' → fd ≠ fd') :
    ∀ c, r'.kernel.accepted[c]? = some fd → c ≤ n := by
  cases hstep with
  | moved | closed | polled | connected | validated | allValid | invalid | hungUp | skipped | ended =>
    exact h
  | accepted hat hfd hfree =>
    intro c hc
    rcases Kernel.getElem?_accept.mp hc with hc | ⟨-, heq⟩
    · exact h c hc
    · exact absurd heq.symm (hfresh _ rfl)
  | received hat hsocket hevents hbuffer hmissing hchunk hgives hfill hdetach =>
    intro c hc
    change (r.kernel.read _ _).accepted[c]? = some fd at hc
    rw [Kernel.accepted_read] at hc
    exact h c hc

/-- The connection `c` has an entry. -/
def Active (r : Receiver) (c : Nat) : Prop := c ∈ r.activeSockets.map (·.conn)

theorem Active.set {c : Nat} (h : r.Active c) (hsocket : r.activeSockets[i]? = some socket)
    (hconn : socket'.conn = socket.conn) : c ∈ (r.activeSockets.set i socket').map (·.conn) := by
  rw [map_conn_set hsocket hconn]
  exact h

/-- What is handed over comes from the connection that is on its descriptor. -/
theorem Owned.handed_step (h : Owned r) (hstep : Step sent P r answer r') :
    ∃ new, r'.handed = r.handed ++ new ∧
      ∀ x ∈ new, r'.kernel.Gave x.fd x.conn ∧ r'.Active x.conn := by
  cases hstep with
  | received hat hsocket hevents hbuffer hmissing hchunk hgives hfill hdetach =>
    rename_i i socket chunk de₁ de₂ de₃ buf
    have hmem := List.mem_of_getElem? hsocket
    have hopen := h.readable hat hmem (by rw [hevents]; nofun)
    refine ⟨_, rfl, fun x hx => ?_⟩
    obtain ⟨b, -, rfl⟩ := List.mem_map.mp hx
    have hactive : r.Active socket.conn := List.mem_map_of_mem hmem
    exact ⟨(h.opened socket hmem hopen).read, hactive.set hsocket rfl⟩
  | moved | closed | polled | connected | accepted | validated | allValid | invalid | hungUp | skipped
  | ended => exact ⟨[], (List.append_nil _).symm, fun x hx => absurd hx List.not_mem_nil⟩

/-- A connection keeps its entry until `receiver_cleanup` removes it. -/
theorem Step.active (hstep : Step sent P r answer r') {c : Nat} (h : r.Active c)
    (hkept : ∀ i socket, answer = .go → r.point = .cleanup i → r.activeSockets[i]? = some socket →
      socket.fd < 0 → socket.conn ≠ c) : r'.Active c := by
  cases hstep with
  | moved | connected | validated | allValid | skipped => exact h
  | closed hat hsocket hdead =>
    rename_i i socket
    have hperm := (removeAt_perm hsocket).map (·.conn)
    obtain ⟨x, hx, hc⟩ := List.mem_map.mp h
    refine hperm.symm.subset (List.mem_map.mpr ⟨x, List.mem_eraseIdx_iff_getElem?.mpr ?_, hc⟩)
    obtain ⟨j, hj⟩ := List.mem_iff_getElem?.mp hx
    refine ⟨j, fun hij => ?_, hj⟩
    subst hij
    obtain rfl := Option.some.inj (hj.symm.trans hsocket)
    exact hkept _ _ rfl hat hsocket hdead hc
  | polled hlength hpolls =>
    show c ∈ List.map _ (List.map _ _)
    rw [map_conn_poll hlength]
    exact h
  | accepted hat hfd hfree =>
    show c ∈ (r.activeSockets ++ _).map _
    rw [List.map_append]
    exact List.mem_append_left _ h
  | invalid hat hsocket hvalid => exact h.set hsocket rfl
  | hungUp hat hsocket hevents => exact h.set hsocket rfl
  | ended hat hsocket hbuffer hmissing => exact h.set hsocket rfl
  | received hat hsocket hevents hbuffer hmissing hchunk hgives hfill hdetach => exact h.set hsocket rfl

end FileStorage.Server.Receiver
