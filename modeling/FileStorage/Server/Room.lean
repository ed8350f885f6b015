import FileStorage.Server.Handover

/-!
# Room — whether the buffer of a deserializer is large enough

The length in a header is any 64-bit number.  `deserializer_missing` adds the size of the header to
it, and `deserializer_buffer` adds the bytes that are there to what is missing.
-/

namespace FileStorage.Server

/-! ## 1. What the claim is about -/

/-- `size_in_bytes + deserializer_missing(de)` does not wrap, and after `deserializer_buffer` there is
room for the bytes that `receiver_poll` then asks `read` for. -/
structure Deserializer.HasRoom (P : Platform) (de : Deserializer) : Prop where
  sum : ∃ missing, deserializerMissing de = .ok missing ∧ de.sizeInBytes + missing < wordSize
  room : ∀ de', deserializerBuffer P de = .ok de' → ∃ missing, deserializerMissing de' = .ok missing ∧
    de'.sizeInBytes + missing ≤ de'.block.length

/-- The header, once it is complete, announces a message whose length fits. -/
def Deserializer.AnnouncesLess (de : Deserializer) : Prop :=
  headerSizeInBytes ≤ de.sizeInBytes → lengthPrefix de.block + headerSizeInBytes < wordSize

/-! ## 2. One deserializer -/

variable {P : Platform} {de : Deserializer} {data : List UInt8}

namespace Holding

theorem lengthPrefix_block (h : Holding de data) (hlong : headerSizeInBytes ≤ data.length) :
    lengthPrefix de.block = lengthPrefix data := by
  obtain ⟨more, hblock⟩ := h.bytes
  rw [← hblock, lengthPrefix_append hlong]

/-- A length that does not fit is announced as its value modulo 2^64, which is less than a header. -/
theorem sum_lt_iff (h : Holding de data) :
    data.length + missingOf data < wordSize ↔ de.AnnouncesLess := by
  rw [Deserializer.AnnouncesLess, h.size]
  by_cases hlong : headerSizeInBytes ≤ data.length
  · have hvalue := lengthPrefix_lt hlong
    have hfits := h.fits
    have hunder := h.under hlong
    have hmissing : missingOf data = wsub (wadd (lengthPrefix data) headerSizeInBytes) data.length :=
      if_neg (Nat.not_lt.mpr hlong)
    rw [h.lengthPrefix_block hlong, hmissing]
    simp only [hlong, true_implies]
    by_cases hover : lengthPrefix data + headerSizeInBytes < wordSize
    · rw [wadd_of_lt hover, wsub_of_le (Nat.le_of_lt hunder)]
      omega
    · have hwrapped : wadd (lengthPrefix data) headerSizeInBytes < data.length := by
        simp only [wadd, headerSizeInBytes, wordSize] at *
        omega
      rw [wsub, if_neg (Nat.not_le.mpr hwrapped)]
      omega
  · have hshort := Nat.not_le.mp hlong
    have hmissing : missingOf data = headerSizeInBytes - data.length := if_pos hshort
    rw [hmissing]
    refine ⟨fun _ hle => absurd hle hlong, fun _ => ?_⟩
    simp only [headerSizeInBytes, wordSize] at *
    omega

theorem announcesLess_iff (h : Holding de data) : de.HasRoom P ↔ de.AnnouncesLess := by
  rw [← h.sum_lt_iff]
  constructor
  · intro hroom
    obtain ⟨missing, hx, hsum⟩ := hroom.sum
    rw [h.missing] at hx
    rw [h.size] at hsum
    rwa [Except.ok.inj hx]
  · intro hsum
    refine ⟨⟨_, h.missing, by rwa [h.size]⟩, fun de' hx => ?_⟩
    obtain ⟨hsize, hblock, hor⟩ := h.buffer hx
    rw [wadd_of_lt hsum] at hblock
    -- the block holds all that was there, so the header is not cut off
    have hheld : Holding de' data := by
      refine hor.resolve_right fun hstuck => ?_
      obtain ⟨hlong, hshort⟩ := hstuck
      omega
    exact ⟨_, hheld.missing, by rw [hsize, hblock]⟩

end Holding

/-! ## 3. The runs -/

namespace Receiver

variable {sent : Nat → List UInt8} {r r' : Receiver} {answer : KernelAnswer}

/-- Every deserializer holds the bytes of a message under way. -/
def Holds (r : Receiver) : Prop :=
  ∀ socket ∈ r.activeSockets, ∃ data, Holding socket.deserializer data

theorem Holds.set (h : r.Holds) {i : Nat} {socket : ActiveSocket}
    (hsocket : ∃ data, Holding socket.deserializer data) :
    ∀ x ∈ r.activeSockets.set i socket, ∃ data, Holding x.deserializer data := by
  intro x hx
  rcases List.mem_or_eq_of_mem_set hx with hx | rfl
  · exact h x hx
  · exact hsocket

theorem Holds.step (h : r.Holds) (hstep : Step sent P r answer r') : r'.Holds := by
  cases hstep with
  | moved | connected | validated | allValid | skipped => exact h
  | closed hat hsocket hdead =>
    exact fun x hx => h x (List.mem_of_mem_eraseIdx ((removeAt_perm hsocket).subset hx))
  | polled hlength hpolls =>
    intro x hx
    obtain ⟨y, hy, rfl⟩ := List.mem_map.mp hx
    exact h y.1 (List.of_mem_zip hy).1
  | accepted hat hfd hfree =>
    intro x hx
    rcases List.mem_append.mp hx with hx | hx
    · exact h x hx
    · obtain rfl := List.mem_singleton.mp hx
      exact ⟨[], holding_create⟩
  | invalid hat hsocket hvalid =>
    have hheld := h _ (List.mem_of_getElem? hsocket)
    exact h.set hheld
  | hungUp hat hsocket hevents =>
    have hheld := h _ (List.mem_of_getElem? hsocket)
    exact h.set hheld
  | ended hat hsocket hbuffer hmissing =>
    obtain ⟨data, hdata⟩ := h _ (List.mem_of_getElem? hsocket)
    obtain ⟨-, -, hdata' | hstuck⟩ := hdata.buffer hbuffer
    · exact h.set ⟨data, hdata'⟩
    · -- what is missing could not be computed any more
      obtain ⟨missing, hmissing⟩ := hmissing
      rw [hstuck.missing] at hmissing
      cases hmissing
  | received hat hsocket hevents hbuffer hmissing hchunk hgives hfill hdetach =>
    obtain ⟨data, hdata⟩ := h _ (List.mem_of_getElem? hsocket)
    obtain ⟨-, ⟨-, rfl, -⟩ | ⟨-, -, hmore⟩⟩ := hdata.receive hbuffer hfill hchunk hdetach
    · exact h.set ⟨[], holding_create⟩
    · exact h.set ⟨_, hmore⟩

/-- Whatever the clients send and however it is split, the sum does not wrap and the buffer is large
enough exactly when the header does not announce a message of 2^64 bytes or more. -/
theorem hasRoom_iff {files : List (Int × Endpoint)} {tr : List (Receiver × KernelAnswer)}
    (hrun : Runs P sent files tr r) : ∀ r' ∈ statesOf tr r, ∀ socket ∈ r'.activeSockets,
      (socket.deserializer.HasRoom P ↔ socket.deserializer.AnnouncesLess) := by
  have hinv := hrun.2.invariant_states Holds (fun _ _ => True) nofun
    (fun _ _ _ h _ hnext => h.step (step_of_next hnext)) fun _ _ => trivial
  intro r' hr' socket hsocket
  obtain ⟨data, hdata⟩ := hinv r' hr' socket hsocket
  exact hdata.announcesLess_iff

/-- A message of 18 bytes is announced, and its header is there. -/
theorem hasRoom_lock :
    ∃ tr r, Runs samplePlatform (fun _ => frame [10, 97]) usualFiles tr r ∧
      ∃ socket ∈ r.activeSockets, socket.deserializer.sizeInBytes = 16 ∧
        socket.deserializer.HasRoom samplePlatform := by
  obtain ⟨tr, r, hrun, htest⟩ := runs_of_answers samplePlatform (fun _ => frame [10, 97])
    ([.go, .events true [], .accepted 4, .go, .go, .go, .go] ++ pollOne ((frame [10, 97]).take 16))
    (fun _ r => r.activeSockets.any fun x => x.deserializer.sizeInBytes == 16 &&
      decide (lengthPrefix x.deserializer.block + headerSizeInBytes < wordSize)) (by decide +kernel)
  obtain ⟨socket, hsocket, htest⟩ := List.any_eq_true.mp htest
  rw [Bool.and_eq_true, beq_iff_eq, decide_eq_true_eq] at htest
  exact ⟨tr, r, hrun, socket, hsocket, htest.1,
    (hasRoom_iff hrun r (by simp [statesOf]) socket hsocket).mpr fun _ => htest.2⟩

/-- A header that announces 2^64 - 1 bytes: there is room for 15 bytes, the 16 of the header do not
fit any more. -/
theorem sum_wraps :
    ¬∀ (P : Platform) (sent : Nat → List UInt8) (files : List (Int × Endpoint))
      (tr : List (Receiver × KernelAnswer)) (r : Receiver), Runs P sent files tr r →
        ∀ r' ∈ statesOf tr r, ∀ socket ∈ r'.activeSockets, socket.deserializer.HasRoom P := by
  intro hclaim
  let stream := u64ToBigEndian headerMagicCode ++ u64ToBigEndian (wordSize - 1)
  obtain ⟨tr, r, hrun, htest⟩ := runs_of_answers samplePlatform (fun _ => stream)
    ([.go, .events true [], .accepted 4, .go, .go, .go, .go] ++ pollOne stream)
    (fun _ r => r.activeSockets.any fun x => (deserializerMissing x.deserializer).any fun missing =>
      wordSize ≤ x.deserializer.sizeInBytes + missing) (by decide +kernel)
  obtain ⟨socket, hsocket, htest⟩ := List.any_eq_true.mp htest
  obtain ⟨missing, hmissing, htest⟩ := Exec.any_eq_true.mp htest
  obtain ⟨missing', hmissing', hsum⟩ :=
    (hclaim _ _ _ _ _ hrun r (by simp [statesOf]) socket hsocket).sum
  obtain rfl := Except.ok.inj (hmissing.symm.trans hmissing')
  exact absurd hsum (Nat.not_lt.mpr (of_decide_eq_true htest))

end Receiver

end FileStorage.Server
