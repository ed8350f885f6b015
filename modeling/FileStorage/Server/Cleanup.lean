import FileStorage.Server.Receiver
import FileStorage.SwapRemoval

/-!
# Cleanup — the two arrays of the receiver in `receiver_cleanup`

Index 0 of both arrays belongs to the main socket.  The loop starts behind it and shortens both
arrays by one whenever it finds a dropped connection.
-/

namespace FileStorage.Server

open Memory

/-! ## 1. The code -/

/-- An entry of `active_sockets`; `events` is always `POLLIN`. -/
structure PollFd where
  fd : Int
  revents : Revents
deriving DecidableEq

/-- The arrays of `struct Receiver`; `closed` and `freed` are logs of `close` and
`deserializer_free`. -/
structure Sockets where
  activeSockets : List PollFd
  deserializers : List Addr
  activeSocketsCount : Nat
  closed : List Int
  freed : List Addr
deriving DecidableEq

namespace Sockets

/-- An access to an array. -/
def entry {α : Type} (xs : List α) (i : Nat) : Exec α :=
  match xs[i]? with
  | some x => .ok x
  | none => .error .fault

/-- The loop with the counters `i` and `last_i`; without a further round it is still running. -/
def cleanupLoop : Nat → Sockets → Nat → Nat → Exec Sockets
  | 0, r, i, lastI => if i ≤ lastI then .error .diverge else .ok r
  | fuel + 1, r, i, lastI =>
      if i ≤ lastI then do
        let socket ← entry r.activeSockets i
        if socket.fd < 0 then
          let deserializer ← entry r.deserializers i
          let lastSocket ← entry r.activeSockets lastI
          let lastDeserializer ← entry r.deserializers lastI
          cleanupLoop fuel {
            activeSockets := r.activeSockets.set i lastSocket
            deserializers := r.deserializers.set i lastDeserializer
            activeSocketsCount := r.activeSocketsCount - 1
            closed := r.closed ++ [-socket.fd]
            freed := r.freed ++ [deserializer] } (i + 1) (lastI - 1)
        else
          cleanupLoop fuel r (i + 1) lastI
      else
        .ok r

def sizeofPollFd : Nat := 8

def sizeofPtr : Nat := 8

def receiverCleanup (P : Platform) (r : Sockets) : Exec Sockets := do
  let r ← cleanupLoop r.activeSocketsCount r 1 (r.activeSocketsCount - 1)
  -- both calls of `xrealloc`
  if P.grants false (sizeofPollFd * r.activeSocketsCount) ∧
      P.grants false (sizeofPtr * r.activeSocketsCount) then
    return { r with
      activeSockets := r.activeSockets.take r.activeSocketsCount
      deserializers := r.deserializers.take r.activeSocketsCount }
  else
    throw .exit

/-! ## 2. What the claim is about -/

/-- Both arrays have an entry for the main socket and one for each connection, with a deserializer
of its own. -/
structure Wf (r : Sockets) : Prop where
  main : 0 < r.activeSocketsCount
  sockets : r.activeSockets.length = r.activeSocketsCount
  deserializers : r.deserializers.length = r.activeSocketsCount

/-- The connections with their deserializers. -/
def connections (r : Sockets) : List (PollFd × Addr) := (r.activeSockets.zip r.deserializers).tail

/-- The encoding of a dropped connection. -/
def dropped (c : PollFd × Addr) : Bool := c.1.fd < 0

structure Cleaned (r r' : Sockets) : Prop where
  listening : r'.activeSockets[0]? = r.activeSockets[0]? ∧
    r'.deserializers[0]? = r.deserializers[0]?
  live : r'.connections.Perm (r.connections.filter fun c => !dropped c)
  none : ∀ c ∈ r'.connections, dropped c = false
  count : r'.activeSocketsCount = r'.connections.length + 1
  freed : ∃ new, r'.freed = r.freed ++ new ∧
    new.Perm ((r.connections.filter dropped).map Prod.snd)

/-! ## 3. The loop -/

/-- Both arrays, entry by entry. -/
def ofEntries (entries : List (PollFd × Addr)) (count : Nat) (closed : List Int)
    (freed : List Addr) : Sockets where
  activeSockets := entries.map Prod.fst
  deserializers := entries.map Prod.snd
  activeSocketsCount := count
  closed
  freed

theorem entry_map {α β : Type} {xs : List α} {i : Nat} {x : α} (h : xs[i]? = some x) (f : α → β) :
    entry (xs.map f) i = .ok (f x) := by
  rw [entry, List.getElem?_map, h]
  rfl

theorem cleanupLoop_done {fuel i lastI : Nat} {r : Sockets} (h : lastI < i) :
    cleanupLoop fuel r i lastI = .ok r := by
  cases fuel with
  | zero => rw [cleanupLoop, if_neg (Nat.not_le.mpr h)]
  | succ fuel => rw [cleanupLoop, if_neg (Nat.not_le.mpr h)]

variable {entries : List (PollFd × Addr)} {x last : PollFd × Addr} {fuel i lastI count : Nat}
  {closed : List Int} {freed : List Addr}

theorem cleanupLoop_live (hi : i ≤ lastI) (hx : entries[i]? = some x) (hlive : dropped x = false) :
    cleanupLoop (fuel + 1) (ofEntries entries count closed freed) i lastI =
      cleanupLoop fuel (ofEntries entries count closed freed) (i + 1) lastI := by
  have hsocket : entry (ofEntries entries count closed freed).activeSockets i = .ok x.1 :=
    entry_map hx Prod.fst
  rw [cleanupLoop, if_pos hi, hsocket, Exec.ok_bind, if_neg (of_decide_eq_false hlive)]

theorem cleanupLoop_dropped (hi : i ≤ lastI) (hx : entries[i]? = some x) (hdead : dropped x = true)
    (hlast : entries[lastI]? = some last) :
    cleanupLoop (fuel + 1) (ofEntries entries count closed freed) i lastI =
      cleanupLoop fuel (ofEntries (entries.set i last) (count - 1) (closed ++ [-x.1.fd])
        (freed ++ [x.2])) (i + 1) (lastI - 1) := by
  have hsocket : entry (ofEntries entries count closed freed).activeSockets i = .ok x.1 :=
    entry_map hx Prod.fst
  have hde : entry (ofEntries entries count closed freed).deserializers i = .ok x.2 :=
    entry_map hx Prod.snd
  have hlastSocket : entry (ofEntries entries count closed freed).activeSockets lastI = .ok last.1 :=
    entry_map hlast Prod.fst
  have hlastDe : entry (ofEntries entries count closed freed).deserializers lastI = .ok last.2 :=
    entry_map hlast Prod.snd
  rw [cleanupLoop, if_pos hi, hsocket, Exec.ok_bind, if_pos (of_decide_eq_true hdead)]
  simp only [hde, hlastSocket, hlastDe, Exec.ok_bind]
  simp only [ofEntries, List.map_set]

open SwapRemoval in
/-- Behind the entries that were looked at the loop makes the pass over the rest. -/
theorem cleanupLoop_eq (rest : List (PollFd × Addr)) :
    ∀ (pre junk : List (PollFd × Addr)) (closed : List Int) (freed : List Addr) (fuel lastI : Nat),
      0 < pre.length → rest.length ≤ fuel → lastI + 1 = pre.length + rest.length → ∃ junk',
        cleanupLoop fuel (ofEntries (pre ++ rest ++ junk) (lastI + 1) closed freed) pre.length lastI =
          .ok (ofEntries (pre ++ kept dropped rest ++ junk')
            (pre.length + (kept dropped rest).length)
            (closed ++ (removed dropped rest).map fun c => -c.1.fd)
            (freed ++ (removed dropped rest).map Prod.snd)) := by
  induction rest using pass_induction dropped with
  | nil =>
    intro pre junk closed freed fuel lastI hpre _ hlast
    rw [List.length_nil] at hlast
    refine ⟨junk, ?_⟩
    rw [cleanupLoop_done (by omega), hlast]
    simp
  | live x xs hx ih =>
    intro pre junk closed freed fuel lastI hpre hfuel hlast
    rw [List.length_cons] at hfuel hlast
    obtain ⟨fuel, rfl⟩ : ∃ k, fuel = k + 1 := ⟨fuel - 1, by omega⟩
    have hat : (pre ++ x :: xs ++ junk)[pre.length]? = some x := by simp
    obtain ⟨junk', hloop⟩ := ih (pre ++ [x]) junk closed freed fuel lastI (by simp) (by omega)
      (by rw [List.length_append, List.length_singleton]; omega)
    refine ⟨junk', ?_⟩
    rw [cleanupLoop_live (by omega) hat hx, kept_live hx, removed_live hx]
    simpa [Nat.add_assoc, Nat.add_comm] using hloop
  | alone x hx =>
    intro pre junk closed freed fuel lastI hpre hfuel hlast
    obtain ⟨fuel, rfl⟩ : ∃ k, fuel = k + 1 := ⟨fuel - 1, by rw [List.length_singleton] at hfuel; omega⟩
    have hat : (pre ++ [x] ++ junk)[pre.length]? = some x := by simp
    -- the last entry takes its own place
    obtain rfl : lastI = pre.length := by
      rw [List.length_singleton] at hlast
      omega
    refine ⟨x :: junk, ?_⟩
    rw [cleanupLoop_dropped (Nat.le_refl _) hat hx hat, cleanupLoop_done (by omega), kept_alone hx,
      removed_alone hx]
    simp
  | swap x xs last hx ih =>
    intro pre junk closed freed fuel lastI hpre hfuel hlast
    rw [List.length_cons, List.length_append, List.length_singleton] at hfuel hlast
    obtain ⟨fuel, rfl⟩ : ∃ k, fuel = k + 1 := ⟨fuel - 1, by omega⟩
    obtain rfl : lastI = pre.length + xs.length + 1 := by omega
    have hat : (pre ++ x :: (xs ++ [last]) ++ junk)[pre.length]? = some x := by simp
    have hatLast : (pre ++ x :: (xs ++ [last]) ++ junk)[pre.length + xs.length + 1]? = some last := by
      rw [show pre ++ x :: (xs ++ [last]) ++ junk = (pre ++ x :: xs) ++ last :: junk by simp]
      rw [List.getElem?_append_right (by simp; omega)]
      simp [Nat.add_assoc]
    obtain ⟨junk', hloop⟩ := ih (pre ++ [last]) (last :: junk) (closed ++ [-x.1.fd]) (freed ++ [x.2])
      fuel (pre.length + xs.length) (by simp) (by omega)
      (by rw [List.length_append, List.length_singleton]; omega)
    refine ⟨junk', ?_⟩
    rw [cleanupLoop_dropped (by omega) hat hx hatLast, kept_swap hx, removed_swap hx]
    simpa [Nat.add_assoc, Nat.add_comm] using hloop

/-! ## 4. The whole call -/

variable {P : Platform} {r r' : Sockets}

theorem Wf.eq_ofEntries (h : r.Wf) : ∃ main,
    r = ofEntries (main :: r.connections) (r.connections.length + 1) r.closed r.freed := by
  have hlength : (r.activeSockets.zip r.deserializers).length = r.activeSocketsCount := by
    rw [List.length_zip, h.sockets, h.deserializers, Nat.min_self]
  obtain ⟨main, hzip⟩ : ∃ main, r.activeSockets.zip r.deserializers = main :: r.connections := by
    cases hzip : r.activeSockets.zip r.deserializers with
    | nil =>
      rw [hzip] at hlength
      exact absurd hlength (Nat.ne_of_lt h.main)
    | cons main rest => exact ⟨main, by rw [connections, hzip, List.tail_cons]⟩
  have heq : r.deserializers.length = r.activeSockets.length := h.deserializers.trans h.sockets.symm
  refine ⟨main, ?_⟩
  rw [hzip, List.length_cons] at hlength
  rw [ofEntries, ← hzip, List.map_fst_zip (Nat.le_of_eq heq.symm), List.map_snd_zip (Nat.le_of_eq heq),
    hlength]

theorem connections_ofEntries (main : PollFd × Addr) (entries : List (PollFd × Addr)) (count : Nat)
    (closed : List Int) (freed : List Addr) :
    (ofEntries (main :: entries) count closed freed).connections = entries := by
  exact congrArg List.tail (List.zip_of_prod rfl rfl).symm

open SwapRemoval in
/-- The call returns, unless `xrealloc` ends the server, and makes the pass over the connections. -/
theorem receiverCleanup_eq (h : r.Wf) : ∃ main,
    r = ofEntries (main :: r.connections) (r.connections.length + 1) r.closed r.freed ∧
    (receiverCleanup P r = .error .exit ∨ receiverCleanup P r =
      .ok (ofEntries (main :: kept dropped r.connections) ((kept dropped r.connections).length + 1)
        (r.closed ++ (removed dropped r.connections).map fun c => -c.1.fd)
        (r.freed ++ (removed dropped r.connections).map Prod.snd))) := by
  obtain ⟨main, hr⟩ := h.eq_ofEntries
  refine ⟨main, hr, ?_⟩
  obtain ⟨junk, hloop⟩ := cleanupLoop_eq r.connections [main] [] r.closed r.freed
    (r.connections.length + 1) r.connections.length (by simp) (Nat.le_succ _) (by simp [Nat.add_comm])
  rw [List.append_nil, List.singleton_append, ← hr] at hloop
  have hcount : r.activeSocketsCount = r.connections.length + 1 := congrArg activeSocketsCount hr
  rw [receiverCleanup, hcount]
  change cleanupLoop _ r 1 _ = _ at hloop
  rw [Nat.add_sub_cancel, hloop, Exec.ok_bind]
  split
  · refine Or.inr (congrArg Except.ok ?_)
    have htake : ([main] ++ kept dropped r.connections ++ junk).take
        (1 + (kept dropped r.connections).length) = main :: kept dropped r.connections := by
      rw [show 1 = [main].length from rfl, ← List.length_append, List.take_left]
      rfl
    simp only [ofEntries, ← List.map_take, List.length_singleton, htake, Nat.add_comm]
  · exact Or.inl rfl

open SwapRemoval in
/-- With `n` dropped connections the call does what it should exactly when none of the last `n - 1`
entries is one of them: these are the entries that are moved into gaps. -/
theorem receiverCleanup_cleans_iff (h : r.Wf) : receiverCleanup P r = .error .exit ∨
    ∃ r', receiverCleanup P r = .ok r' ∧ (Cleaned r r' ↔
      ∀ c ∈ r.connections.drop (r.connections.length + 1 - r.connections.countP dropped),
        dropped c = false) := by
  obtain ⟨main, hr, hexit | hx⟩ := receiverCleanup_eq (P := P) h
  · exact Or.inl hexit
  · refine Or.inr ⟨_, hx, ?_⟩
    rw [← kept_clean_iff]
    constructor
    · intro hcleaned
      have hnone := hcleaned.none
      rwa [connections_ofEntries] at hnone
    · intro hclean
      refine ⟨⟨?_, ?_⟩, ?_, ?_, ?_, _, rfl, (removed_perm_of_clean hclean).map _⟩
      · rw [congrArg activeSockets hr]
        rfl
      · rw [congrArg deserializers hr]
        rfl
      · rw [connections_ofEntries]
        exact kept_perm_of_clean hclean
      · rwa [connections_ofEntries]
      · rw [connections_ofEntries]
        rfl

end Sockets

/-! ## 5. The loop of the receiver -/

namespace Receiver

open SwapRemoval

variable {P : Platform} {sent : Nat → List UInt8}

/-- The encoding of a dropped connection. -/
def isDropped (socket : ActiveSocket) : Bool := socket.fd < 0

theorem next_cleanup {r r' : Receiver} {i : Nat} (hat : r.point = .cleanup i)
    (hstep : r.cleanupStep i = r') : r.next sent P .go = .ok (some r') := by
  simp only [next, hat, hstep]

theorem cleanupStep_end {r : Receiver} {i : Nat} (h : r.activeSockets[i]? = none) :
    r.cleanupStep i = { r with point := .poll } := by
  simp only [cleanupStep, h]
  rfl

theorem cleanupStep_dropped {r : Receiver} {i : Nat} {socket : ActiveSocket}
    (h : r.activeSockets[i]? = some socket) (hdead : isDropped socket = true) :
    r.cleanupStep i = { r with
      kernel := r.kernel.close (-socket.fd)
      activeSockets := removeAt r.activeSockets i
      point := .cleanup (i + 1) } := by
  simp only [cleanupStep, h, if_pos (of_decide_eq_true hdead)]

/-- The rounds of `receiver_cleanup`, up to `poll`, make the same pass. -/
theorem cleanup_run (rest : List ActiveSocket) : ∀ (pre : List ActiveSocket) (r : Receiver),
    r.activeSockets = pre ++ rest → r.point = .cleanup pre.length →
      ∃ tr, (∀ x ∈ tr, x.2 = .go) ∧
        Run (fun r answer r' => r.next sent P answer = .ok (some r')) r tr { r with
          kernel := (removed isDropped rest).foldl (fun k x => k.close (-x.fd)) r.kernel
          activeSockets := pre ++ kept isDropped rest
          point := .poll } := by
  induction rest using pass_induction isDropped with
  | nil =>
    intro pre r hsockets hat
    have hend : r.activeSockets[pre.length]? = none := by rw [hsockets]; simp
    refine ⟨[(r, .go)], by simp, Run.cons (next_cleanup hat (cleanupStep_end hend)) ?_⟩
    rw [kept_nil, removed_nil, ← hsockets]
    exact .nil
  | live x xs hx ih =>
    intro pre r hsockets hat
    have hsocket : r.activeSockets[pre.length]? = some x := by rw [hsockets]; simp
    have hstep : r.cleanupStep pre.length = { r with point := .cleanup (pre.length + 1) } := by
      simp only [cleanupStep, hsocket, if_neg (of_decide_eq_false hx)]
      rfl
    obtain ⟨tr, hgo, hrun⟩ := ih (pre ++ [x]) { r with point := .cleanup (pre.length + 1) }
      (by simpa using hsockets) (by simp)
    rw [kept_live hx, removed_live hx]
    rw [List.append_assoc, List.singleton_append] at hrun
    exact ⟨_, List.forall_mem_cons.mpr ⟨rfl, hgo⟩, Run.cons (next_cleanup hat hstep) hrun⟩
  | alone x hx =>
    intro pre r hsockets hat
    have hsocket : r.activeSockets[pre.length]? = some x := by rw [hsockets]; simp
    have hremoved : removeAt r.activeSockets pre.length = pre := by
      rw [hsockets, removeAt, List.getLast?_concat]
      simp
    have hstep := cleanupStep_dropped hsocket hx
    rw [hremoved] at hstep
    rw [kept_alone hx, removed_alone hx, List.append_nil]
    -- one more round ends the loop
    refine ⟨_, ?_, Run.cons (next_cleanup hat hstep)
      (Run.cons (next_cleanup rfl (cleanupStep_end ?_)) .nil)⟩
    · simp
    · show pre[pre.length + 1]? = none
      simp
  | swap x xs last hx ih =>
    intro pre r hsockets hat
    have hsocket : r.activeSockets[pre.length]? = some x := by rw [hsockets]; simp
    have hremoved : removeAt r.activeSockets pre.length = pre ++ last :: xs := by
      rw [hsockets, ← List.cons_append, ← List.append_assoc, removeAt, List.getLast?_concat]
      show ((pre ++ x :: xs ++ [last]).set pre.length last).dropLast = _
      rw [List.set_append_left _ _ (by simp), List.dropLast_concat]
      simp
    have hstep := cleanupStep_dropped hsocket hx
    rw [hremoved] at hstep
    obtain ⟨tr, hgo, hrun⟩ := ih (pre ++ [last]) { r with
      kernel := r.kernel.close (-x.fd)
      activeSockets := pre ++ last :: xs
      point := .cleanup (pre.length + 1) } (by simp) (by simp)
    rw [kept_swap hx, removed_swap hx]
    rw [List.append_assoc, List.singleton_append] at hrun
    exact ⟨_, List.forall_mem_cons.mpr ⟨rfl, hgo⟩, Run.cons (next_cleanup hat hstep) hrun⟩

/-- The receiver closes the same descriptors and is left with the same ones, in the same order. -/
theorem cleanup_simulates {r : Receiver} {s s' : Sockets} (hat : r.point = .cleanup 0) (h : s.Wf)
    (hsame : s.connections.map (·.1.fd) = r.activeSockets.map (·.fd))
    (hx : Sockets.receiverCleanup P s = .ok s') :
    ∃ tr r' closed, Run (fun r answer r' => r.next sent P answer = .ok (some r')) r tr r' ∧
      r'.point = .poll ∧ s'.connections.map (·.1.fd) = r'.activeSockets.map (·.fd) ∧
      s'.closed = s.closed ++ closed ∧ r'.kernel = closed.foldl Kernel.close r.kernel := by
  obtain ⟨main, -, hexit | hs'⟩ := Sockets.receiverCleanup_eq (P := P) h
  · rw [hexit] at hx
    cases hx
  · obtain rfl := Except.ok.inj (hs'.symm.trans hx)
    obtain ⟨tr, -, hrun⟩ := @cleanup_run P sent r.activeSockets [] r rfl hat
    -- both passes look at the descriptors only
    let dead : Int → Bool := fun fd => fd < 0
    have hs := map_pass dead (·.1.fd) s.connections
    have hr := map_pass dead (·.fd) r.activeSockets
    rw [hsame] at hs
    refine ⟨tr, _, _, hrun, rfl, ?_, rfl, ?_⟩
    · rw [Sockets.connections_ofEntries]
      exact hs.1.symm.trans hr.1
    · have hclosed : ((removed Sockets.dropped s.connections).map fun c => -c.1.fd) =
          (removed isDropped r.activeSockets).map fun x => -x.fd := by
        have heq := congrArg (List.map fun fd : Int => -fd) (hs.2.symm.trans hr.2)
        rw [List.map_map, List.map_map] at heq
        exact heq
      rw [hclosed, List.foldl_map]

end Receiver

namespace Sockets

/-- The last connection takes the place of a dropped one. -/
theorem receiverCleanup_cleans_two :
    let r : Sockets := ⟨[⟨3, .none⟩, ⟨-4, .none⟩, ⟨5, .none⟩], [0, 1, 2], 3, [], []⟩
    ∃ r', receiverCleanup samplePlatform r = .ok r' ∧ r'.activeSocketsCount = 2 ∧ Cleaned r r' := by
  intro r
  have hwf : r.Wf := ⟨by decide, rfl, rfl⟩
  rcases receiverCleanup_cleans_iff (P := samplePlatform) hwf with hexit | ⟨r', hx, hiff⟩
  · have hok : (receiverCleanup samplePlatform r).any (fun _ => true) = true := by decide
    rw [hexit] at hok
    cases hok
  · refine ⟨r', hx, ?_, hiff.mpr (by decide)⟩
    have hcount : (receiverCleanup samplePlatform r).any (·.activeSocketsCount == 2) = true := by decide
    rw [hx] at hcount
    exact beq_iff_eq.mp hcount

/-- Two dropped connections at the end: the second one takes the place of the first. -/
theorem dropped_entry_stays :
    ¬∀ (P : Platform) (r r' : Sockets), r.Wf → receiverCleanup P r = .ok r' → Cleaned r r' := by
  intro hclaim
  let r : Sockets := ⟨[⟨3, .none⟩, ⟨-4, .none⟩, ⟨-5, .none⟩], [0, 1, 2], 3, [], []⟩
  have htest : (receiverCleanup samplePlatform r).any
      (fun r' => r'.connections.any dropped) = true := by decide
  obtain ⟨r', hx, htest⟩ := Exec.any_eq_true.mp htest
  obtain ⟨c, hmem, hdropped⟩ := List.any_eq_true.mp htest
  have hcleaned := hclaim samplePlatform r r' ⟨by decide, rfl, rfl⟩ hx
  rw [hcleaned.none c hmem] at hdropped
  cases hdropped

end Sockets

end FileStorage.Server
