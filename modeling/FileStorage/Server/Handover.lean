import FileStorage.Server.Receiver
import FileStorage.Server.Worker

/-!
# Handover — what the receiver hands over is a message

Whatever the clients send, a message reaches a worker complete, and its header was validated before
the first byte of its payload was read.
-/

namespace FileStorage.Server

/-! ## 1. The messages -/

/-- What a worker may rely on when it gets a message. -/
structure WellFormed (buffer : Buffer) : Prop where
  size : buffer.sizeInBytes = buffer.raw.length
  length : buffer.sizeInBytes = headerSizeInBytes + lengthPrefix buffer.raw
  /-- The header is accepted, and the operation code is a byte of the buffer. -/
  request : ∃ request, messageRequest buffer.raw = .ok request ∧
    ∀ op payload, request = some (op, payload) → buffer.raw[headerSizeInBytes]? = some op
  magic : buffer.sizeInBytes ≠ headerSizeInBytes → u64ToBigEndian headerMagicCode <+: buffer.raw

/-- The check of `worker_handle_message` on the header of a complete message. -/
theorem Complete.messageRequest {buffer : Buffer} {data : List UInt8} (h : Complete buffer data) :
    messageRequest buffer.raw = .ok ((data.drop headerSizeInBytes).head?.map
      fun op => (op, data.drop (headerSizeInBytes + 1))) := by
  have hlength := h.length
  have hfits := h.fits
  have hvalue : bigEndianToU64 (data.drop 8) = .ok (lengthPrefix data) := by
    have height : 8 ≤ (data.drop 8).length := by
      rw [List.length_drop, hlength, headerSizeInBytes]
      omega
    have hself := bigEndianToU64_eq height []
    rwa [List.append_nil] at hself
  rw [Server.messageRequest, h.raw]
  rw [headerSizeInBytes] at *
  split
  · rename_i hshort
    rw [List.drop_eq_nil_of_le (Nat.le_of_eq hshort)]
    rfl
  · rename_i hlong
    -- both sides of the comparison in the source, in 64 bits
    have hsame : wadd (lengthPrefix data) 8 = wsub data.length 8 := by
      rw [wadd_of_lt (by omega), wsub_of_le (by omega)]
      omega
    have hne : data.drop 16 ≠ [] := by
      intro hnil
      have hle := List.drop_eq_nil_iff.mp hnil
      omega
    obtain ⟨op, payload, hdrop⟩ := List.exists_cons_of_ne_nil hne
    have hpayload : data.drop (16 + 1) = payload := by
      rw [← List.drop_drop, hdrop]
      rfl
    simp only [hvalue, Exec.ok_bind, hsame, ne_eq, not_true_eq_false, if_false, List.drop_drop,
      hdrop, hpayload]
    rfl

theorem Complete.wellFormed {buffer : Buffer} {data : List UInt8} (h : Complete buffer data)
    (hmagic : headerSizeInBytes < data.length → beValue data = headerMagicCode) :
    WellFormed buffer := by
  refine ⟨?_, ?_, ⟨_, h.messageRequest, ?_⟩, ?_⟩
  · rw [h.size, h.raw]
  · rw [h.size, h.raw, Nat.add_comm]
    exact h.length
  · intro op payload heq
    obtain ⟨op', hop, heq⟩ := Option.map_eq_some_iff.mp heq
    cases heq
    rw [h.raw, ← List.head?_drop]
    exact hop
  · intro hsize
    rw [h.size] at hsize
    have hlong := Nat.lt_of_le_of_ne h.header (Ne.symm hsize)
    rw [h.raw, ← hmagic hlong]
    rw [headerSizeInBytes] at hlong
    exact u64ToBigEndian_beValue (by omega)

/-! ## 2. The bytes of every connection -/

/-- The bytes under way, as long as the code is still in bounds. -/
def Deserializer.Sound (de : Deserializer) : Prop := de.Stuck ∨ ∃ data, Holding de data

/-- What `deserializer_validate` checks. -/
def Deserializer.Valid (de : Deserializer) : Prop :=
  ∀ data, Holding de data → 8 ≤ data.length → beValue data = headerMagicCode

/-- The entries that were validated in this call and not read from since. -/
def PollPoint.Checked : PollPoint → Nat → Prop
  | .validate i, j => j < i
  | .read i, j => i ≤ j
  | _, _ => False

theorem PollPoint.not_checked_of_early {point : PollPoint} (h : point.early) (j : Nat) :
    ¬point.Checked j := by
  cases point with
  | cleanup | poll => exact id
  | connect | validate | read => cases h

theorem Deserializer.Valid.of_validate {de : Deserializer}
    (hx : deserializerValidate de = .ok true) : de.Valid := by
  intro data hdata hlong
  rw [hdata.validate] at hx
  have hor := of_decide_eq_true (Except.ok.inj hx)
  exact hor.resolve_left (Nat.not_lt.mpr hlong)

theorem Deserializer.Sound.buffer {P : Platform} {de de' : Deserializer} (h : de.Sound)
    (hx : deserializerBuffer P de = .ok de') : de'.Sound := by
  rcases h with hstuck | ⟨data, hdata⟩
  · rw [deserializerBuffer, hstuck.missing] at hx
    cases hx
  · obtain ⟨-, -, hdata' | hstuck⟩ := hdata.buffer hx
    · exact Or.inr ⟨data, hdata'⟩
    · exact Or.inl hstuck

/-- Making room for the message does not touch a header that was validated. -/
theorem Deserializer.Sound.validate_buffer {P : Platform} {de de' : Deserializer} (h : de.Sound)
    (hvalid : de.Valid) (hx : deserializerBuffer P de = .ok de')
    (hmissing : ∃ missing, deserializerMissing de' = .ok missing) :
    deserializerValidate de' = .ok true := by
  rcases h with hstuck | ⟨data, hdata⟩
  · rw [deserializerBuffer, hstuck.missing] at hx
    cases hx
  · obtain ⟨-, -, hdata' | hstuck⟩ := hdata.buffer hx
    · have hor : data.length < 8 ∨ beValue data = headerMagicCode :=
        (Nat.lt_or_ge data.length 8).imp_right fun hlong => hvalid data hdata hlong
      rw [hdata'.validate, decide_eq_true hor]
    · obtain ⟨missing, hmissing⟩ := hmissing
      rw [hstuck.missing] at hmissing
      cases hmissing

/-- A read from a validated connection gives at most one message, a well-formed one. -/
theorem Deserializer.Sound.receive {P : Platform} {de de₁ de₂ de₃ : Deserializer}
    {chunk : List UInt8} {buf : Option Buffer} (h : de.Sound) (hvalid : de.Valid)
    (hbuffer : deserializerBuffer P de = .ok de₁) (hfill : de₁.fill chunk = .ok de₂)
    (hne : chunk ≠ []) (hdetach : deserializerDetach de₂ chunk.length = .ok (buf, de₃)) :
    de₃.Sound ∧ ∀ buffer ∈ buf.toList, WellFormed buffer := by
  rcases h with hstuck | ⟨data, hdata⟩
  · rw [deserializerBuffer, hstuck.missing] at hbuffer
    cases hbuffer
  · obtain ⟨hhead, hdone⟩ := hdata.receive hbuffer hfill hne hdetach
    -- no byte of a payload is read before the header was validated
    have hmagic : headerSizeInBytes < (data ++ chunk).length →
        beValue (data ++ chunk) = headerMagicCode := by
      intro hlong
      have hdatalong := hhead.resolve_left (Nat.not_le.mpr hlong)
      rw [headerSizeInBytes] at hdatalong
      rw [beValue_append (by omega)]
      exact hvalid data hdata (by omega)
    rcases hdone with ⟨-, rfl, buffer, rfl, hcomplete⟩ | ⟨-, rfl, hmore⟩
    · refine ⟨Or.inr ⟨[], holding_create⟩, fun b hb => ?_⟩
      obtain rfl := List.mem_singleton.mp hb
      exact hcomplete.wellFormed hmagic
    · exact ⟨Or.inr ⟨_, hmore⟩, fun b hb => absurd hb (List.not_mem_nil)⟩

/-! ## 3. The runs -/

namespace Receiver

/-- In every state of the loop. -/
structure Guarded (r : Receiver) : Prop where
  sound : ∀ socket ∈ r.activeSockets, socket.deserializer.Sound
  valid : ∀ j socket, r.point.Checked j → r.activeSockets[j]? = some socket →
    socket.deserializer.Valid
  handed : ∀ h ∈ r.handed, WellFormed h.buffer

variable {P : Platform} {sent : Nat → List UInt8} {r r' : Receiver} {answer : KernelAnswer}

theorem guarded_start (files : List (Int × Endpoint)) : Guarded (start files) :=
  ⟨nofun, nofun, nofun⟩

theorem Guarded.step (h : Guarded r) (hstep : Step sent P r answer r') : Guarded r' := by
  -- an entry of which only the descriptor and the events change
  have hset : ∀ {i : Nat} {socket socket' : ActiveSocket}, r.activeSockets[i]? = some socket →
      socket'.deserializer.Sound → ∀ x ∈ r.activeSockets.set i socket', x.deserializer.Sound := by
    intro i socket socket' hsocket hsound x hx
    rcases List.mem_or_eq_of_mem_set hx with hx | rfl
    · exact h.sound x hx
    · exact hsound
  cases hstep with
  | moved hearly =>
    exact ⟨h.sound, fun j _ hj _ => absurd hj (PollPoint.not_checked_of_early hearly j), h.handed⟩
  | closed hat hsocket hdead =>
    refine ⟨fun x hx => h.sound x ?_, nofun, h.handed⟩
    exact List.mem_of_mem_eraseIdx ((removeAt_perm hsocket).subset hx)
  | polled hlength hquiet =>
    refine ⟨fun x hx => ?_, nofun, h.handed⟩
    obtain ⟨y, hy, rfl⟩ := List.mem_map.mp hx
    exact h.sound y.1 (List.of_mem_zip hy).1
  | connected hat =>
    exact ⟨h.sound, fun j _ hj _ => absurd hj (Nat.not_lt_zero j), h.handed⟩
  | accepted hat hfd hfree =>
    refine ⟨fun x hx => ?_, fun j _ hj _ => absurd hj (Nat.not_lt_zero j), h.handed⟩
    rcases List.mem_append.mp hx with hx | hx
    · exact h.sound x hx
    · obtain rfl := List.mem_singleton.mp hx
      exact Or.inr ⟨[], holding_create⟩
  | validated hat hsocket hvalid =>
    rename_i i socket
    refine ⟨h.sound, fun j x hj hx => ?_, h.handed⟩
    rcases Nat.lt_succ_iff_lt_or_eq.mp hj with hj | rfl
    · exact h.valid j x (by rw [hat]; exact hj) hx
    -- the entry that was just looked at
    · obtain rfl := Option.some.inj (hx.symm.trans hsocket)
      exact .of_validate hvalid
  | allValid hat hend =>
    rename_i i
    refine ⟨h.sound, fun j x _ hx => h.valid j x ?_ hx, h.handed⟩
    -- the loop has gone past the last entry
    rw [hat]
    have hj := (List.getElem?_eq_some_iff.mp hx).1
    exact Nat.lt_of_lt_of_le hj (List.getElem?_eq_none_iff.mp hend)
  | invalid hat hsocket hvalid =>
    have hsound := h.sound _ (List.mem_of_getElem? hsocket)
    exact ⟨hset hsocket hsound, nofun, h.handed⟩
  | hungUp hat hsocket hevents =>
    have hsound := h.sound _ (List.mem_of_getElem? hsocket)
    exact ⟨hset hsocket hsound, nofun, h.handed⟩
  | skipped hat =>
    rename_i i
    refine ⟨h.sound, fun j x hj hx => h.valid j x ?_ hx, h.handed⟩
    rw [hat]
    exact Nat.le_of_succ_le hj
  | ended hat hsocket hbuffer hmissing =>
    rename_i i socket de
    have hsound := (h.sound _ (List.mem_of_getElem? hsocket)).buffer hbuffer
    refine ⟨hset hsocket hsound, fun j x hj hx => ?_, h.handed⟩
    rw [goTo_activeSockets, setSocket_activeSockets, List.getElem?_set_ne (Nat.ne_of_lt hj)] at hx
    exact h.valid j x (by rw [hat]; exact Nat.le_of_succ_le hj) hx
  | received hat hsocket hevents hbuffer hmissing hchunk hgives hfill hdetach =>
    rename_i i socket chunk de₁ de₂ de₃ buf
    have hvalid := h.valid i socket (by rw [hat]; exact Nat.le_refl i) hsocket
    obtain ⟨hsound, hformed⟩ := (h.sound _ (List.mem_of_getElem? hsocket)).receive hvalid hbuffer
      hfill hchunk hdetach
    -- the loop goes on behind `i`, so the entry with the new bytes is not among the checked ones
    refine ⟨hset hsocket hsound, fun j x hj hx => ?_, fun x hx => ?_⟩
    · change (r.activeSockets.set i _)[j]? = some x at hx
      rw [List.getElem?_set_ne (Nat.ne_of_lt hj)] at hx
      exact h.valid j x (by rw [hat]; exact Nat.le_of_succ_le hj) hx
    · rcases List.mem_append.mp hx with hx | hx
      · exact h.handed x hx
      · obtain ⟨buffer, hbuffer, rfl⟩ := List.mem_map.mp hx
        exact hformed buffer hbuffer

theorem guarded_of_runs {files : List (Int × Endpoint)} {tr : List (Receiver × KernelAnswer)}
    (hrun : Runs P sent files tr r) : Guarded r :=
  hrun.2.invariant Guarded (fun _ _ => True) (guarded_start files)
    (fun _ _ _ h _ hnext => h.step (step_of_next hnext)) fun _ _ => trivial

/-- Whatever the clients send, and however it is split, every message that is handed over is as long
as its header says, passes the checks of `worker_handle_message`, and starts with the magic code
when it is more than a header. -/
theorem handed_over_well_formed {files : List (Int × Endpoint)} {tr : List (Receiver × KernelAnswer)}
    (hrun : Runs P sent files tr r) : ∀ h ∈ r.handed, WellFormed h.buffer :=
  (guarded_of_runs hrun).handed

/-- A `lockFile` message of 18 bytes, read in three pieces; the first ends inside the header. -/
theorem handed_over_well_formed_lock :
    ∃ tr r, Runs samplePlatform (fun _ => frame [10, 97]) usualFiles tr r ∧ r.handed.length = 1 ∧
      ∀ h ∈ r.handed, WellFormed h.buffer := by
  let stream := frame [10, 97]
  obtain ⟨tr, r, hrun, htest⟩ := runs_of_answers samplePlatform (fun _ => stream)
    ([.go, .events true [], .accepted 5, .go, .go, .go, .go] ++ pollOne (stream.take 9) ++
      pollOne ((stream.take 16).drop 9) ++ pollOne (stream.drop 16))
    (fun _ r => r.handed.length == 1) (by decide +kernel)
  exact ⟨tr, r, hrun, beq_iff_eq.mp htest, handed_over_well_formed hrun⟩

end Receiver

end FileStorage.Server
