import FileStorage.Framing
import FileStorage.Utilities

/-!
# Deserializer — one connection's bytes, put together to messages

A deserializer holds the bytes of the message under way.  `Holding de data` says which these are;
what the functions of the source do is described on `data`.
-/

namespace FileStorage.Server

/-! ## 1. The code -/

def headerSizeInBytes : Nat := 16

def headerMagicCodeSizeInBytes : Nat := 8

def headerMagicCode : Nat := 0x86b2f464f65e01

structure Deserializer where
  buffer : Option (List UInt8)
  sizeInBytes : Nat
deriving DecidableEq

structure Buffer where
  sizeInBytes : Nat
  raw : List UInt8
deriving DecidableEq

def deserializerCreate : Deserializer := ⟨none, 0⟩

/-- The bytes behind `buffer`, none when it is `NULL`. -/
def Deserializer.block (de : Deserializer) : List UInt8 := de.buffer.getD []

def deserializerMissing (de : Deserializer) : Exec Nat :=
  if de.sizeInBytes < headerSizeInBytes then
    .ok (headerSizeInBytes - de.sizeInBytes)
  else do
    let lengthPrefix ← bigEndianToU64 (de.block.drop headerMagicCodeSizeInBytes)
    return wsub (wadd lengthPrefix headerSizeInBytes) de.sizeInBytes

def deserializerValidate (de : Deserializer) : Exec Bool :=
  if de.sizeInBytes < headerMagicCodeSizeInBytes then
    .ok true
  else do
    let magicCode ← bigEndianToU64 de.block
    return magicCode = headerMagicCode

/-- Makes room for what is missing.  The pointer returned is that of the room, behind the bytes
that are there. -/
def deserializerBuffer (P : Platform) (de : Deserializer) : Exec Deserializer := do
  let missing ← deserializerMissing de
  let buffer ← xrealloc P de.buffer (wadd de.sizeInBytes missing)
  return { de with buffer := some buffer }

/-- The buffer and the deserializer that goes on, fresh when the message is complete. -/
def deserializerDetach (de : Deserializer) (newBytes : Nat) :
    Exec (Option Buffer × Deserializer) := do
  let de := { de with sizeInBytes := wadd de.sizeInBytes newBytes }
  let missing ← deserializerMissing de
  if missing > 0 then
    return (none, de)
  else
    return (some ⟨de.sizeInBytes, de.block⟩, deserializerCreate)

/-- What `read` does: it puts `chunk` where `deserializer_buffer` points to. -/
def Deserializer.fill (de : Deserializer) (chunk : List UInt8) : Exec Deserializer := do
  let block ← memcpy de.block de.sizeInBytes chunk
  return { de with buffer := some block }

/-! ## 2. The format -/

/-- The number that the first eight bytes are. -/
def beValue (bytes : List UInt8) : Nat := (bigEndianToU64 bytes).toOption.getD 0

/-- The message around a payload. -/
def frame (payload : List UInt8) : List UInt8 :=
  u64ToBigEndian headerMagicCode ++ u64ToBigEndian payload.length ++ payload

/-- How many bytes are asked for behind `data`. -/
def missingOf (data : List UInt8) : Nat :=
  if data.length < headerSizeInBytes then
    headerSizeInBytes - data.length
  else
    wsub (wadd (beValue (data.drop headerMagicCodeSizeInBytes)) headerSizeInBytes) data.length

theorem bigEndianToU64_eq {bytes : List UInt8} (h : 8 ≤ bytes.length) (rest : List UInt8) :
    bigEndianToU64 (bytes ++ rest) = .ok (beValue bytes) := by
  obtain ⟨n, -, hn⟩ := bigEndianToU64_of_length h
  have hself := hn []
  rw [List.append_nil] at hself
  rw [hn rest, beValue, hself]
  rfl

theorem beValue_lt {bytes : List UInt8} (h : 8 ≤ bytes.length) : beValue bytes < wordSize := by
  obtain ⟨n, hlt, hn⟩ := bigEndianToU64_of_length h
  have hself := hn []
  rw [List.append_nil] at hself
  rw [beValue, hself]
  exact hlt

/-- The first eight bytes are the number that they are read as. -/
theorem u64ToBigEndian_beValue {bytes : List UInt8} (h : 8 ≤ bytes.length) :
    u64ToBigEndian (beValue bytes) <+: bytes := by
  have hself := bigEndianToU64_eq h []
  rw [List.append_nil] at hself
  exact u64ToBigEndian_bigEndianToU64 hself

theorem beValue_append {bytes : List UInt8} (h : 8 ≤ bytes.length) (rest : List UInt8) :
    beValue (bytes ++ rest) = beValue bytes := by
  rw [beValue, bigEndianToU64_eq h]
  rfl

theorem beValue_u64ToBigEndian {n : Nat} (h : n < wordSize) (rest : List UInt8) :
    beValue (u64ToBigEndian n ++ rest) = n := by
  rw [beValue, bigEndianToU64_u64ToBigEndian h]
  rfl

theorem frame_length (payload : List UInt8) : (frame payload).length = 16 + payload.length := by
  simp [frame]
  omega

theorem beValue_of_part {payload p q : List UInt8} (hfits : payload.length < wordSize)
    (hpq : p ++ q = frame payload) (hp : 16 ≤ p.length) : beValue (p.drop 8) = payload.length := by
  have hdrop : p.drop 8 ++ q = u64ToBigEndian payload.length ++ payload := by
    rw [← List.drop_append_of_le_length (by omega), hpq, frame, List.append_assoc]
    rfl
  rw [← beValue_append (by rw [List.length_drop]; omega) q, hdrop, beValue_u64ToBigEndian hfits]

/-- First the rest of the header is asked for, then the rest of the message. -/
theorem missingOf_part {payload p q : List UInt8} (hfits : payload.length + 16 < wordSize)
    (hpq : p ++ q = frame payload) :
    missingOf p = if p.length < headerSizeInBytes then headerSizeInBytes - p.length else q.length := by
  rw [missingOf]
  split
  · rfl
  · rename_i hlong
    have hsum := congrArg List.length hpq
    rw [List.length_append, frame_length] at hsum
    rw [headerSizeInBytes] at *
    rw [headerMagicCodeSizeInBytes, beValue_of_part (by omega) hpq (by omega), wadd_of_lt hfits,
      wsub_of_le (by omega)]
    omega

/-- The header of a message says what is left of it. -/
theorem isFrame_frame {payload : List UInt8} (hfits : payload.length + 16 < wordSize) :
    Framing.IsFrame missingOf (frame payload) := by
  have hlen := frame_length payload
  refine ⟨?_, ?_, ?_⟩
  · intro hnil
    rw [hnil] at hlen
    simp at hlen
    omega
  · rw [missingOf_part hfits (List.append_nil _), if_neg (by rw [hlen, headerSizeInBytes]; omega)]
    rfl
  · intro p q hpq hq
    have hsum := congrArg List.length hpq
    rw [List.length_append, hlen] at hsum
    have hpos := List.length_pos_of_ne_nil hq
    rw [missingOf_part hfits hpq]
    split
    · rename_i hshort
      rw [headerSizeInBytes] at *
      omega
    · exact ⟨hpos, Nat.le_refl _⟩

/-! ## 3. What the code does to the bytes it holds -/

/-- The length in a complete header. -/
def lengthPrefix (data : List UInt8) : Nat := beValue (data.drop headerMagicCodeSizeInBytes)

/-- The bytes of the message under way are `data`. -/
structure Holding (de : Deserializer) (data : List UInt8) : Prop where
  size : de.sizeInBytes = data.length
  bytes : data <+: de.block
  fits : data.length < wordSize
  under : headerSizeInBytes ≤ data.length → data.length < lengthPrefix data + headerSizeInBytes

/-- The header announced a length that does not fit, and the block has lost part of the header. -/
def Deserializer.Stuck (de : Deserializer) : Prop :=
  headerSizeInBytes ≤ de.sizeInBytes ∧ de.block.length < headerSizeInBytes

theorem lengthPrefix_lt {data : List UInt8} (hlong : headerSizeInBytes ≤ data.length) :
    lengthPrefix data < wordSize := by
  refine beValue_lt ?_
  rw [headerSizeInBytes] at hlong
  rw [List.length_drop, headerMagicCodeSizeInBytes]
  omega

/-- A header that is complete stays what it is. -/
theorem lengthPrefix_append {data : List UInt8} (hlong : headerSizeInBytes ≤ data.length)
    (more : List UInt8) : lengthPrefix (data ++ more) = lengthPrefix data := by
  rw [headerSizeInBytes] at hlong
  rw [lengthPrefix, headerMagicCodeSizeInBytes, List.drop_append_of_le_length (by omega),
    beValue_append (by rw [List.length_drop]; omega)]
  rfl

theorem holding_create : Holding deserializerCreate [] :=
  ⟨rfl, List.nil_prefix, wordSize_pos, nofun⟩

theorem Deserializer.Stuck.missing {de : Deserializer} (h : de.Stuck) :
    deserializerMissing de = .error .fault := by
  obtain ⟨hsize, hblock⟩ := h
  rw [headerSizeInBytes] at hblock
  rw [deserializerMissing, if_neg (Nat.not_lt.mpr hsize), bigEndianToU64_short]
  · rfl
  · rw [List.length_drop, headerMagicCodeSizeInBytes]
    omega

theorem missing_of_bytes {de : Deserializer} {data : List UInt8}
    (hsize : de.sizeInBytes = data.length) (hbytes : data <+: de.block) :
    deserializerMissing de = .ok (missingOf data) := by
  obtain ⟨more, hblock⟩ := hbytes
  rw [deserializerMissing, missingOf, hsize]
  split
  · rfl
  · rename_i hlong
    rw [headerSizeInBytes] at hlong
    rw [← hblock, headerMagicCodeSizeInBytes, List.drop_append_of_le_length (by omega),
      bigEndianToU64_eq (by rw [List.length_drop]; omega)]
    rfl

/-- Nothing is missing at the end of the message only. -/
theorem missingOf_eq_zero {data : List UInt8} (hlong : headerSizeInBytes ≤ data.length)
    (hfits : data.length < wordSize) (hle : data.length ≤ lengthPrefix data + headerSizeInBytes) :
    missingOf data = 0 ↔ data.length = lengthPrefix data + headerSizeInBytes := by
  have hvalue := lengthPrefix_lt hlong
  rw [missingOf, if_neg (Nat.not_lt.mpr hlong)]
  show wsub (wadd (lengthPrefix data) headerSizeInBytes) data.length = 0 ↔ _
  rw [wsub_eq_zero hfits]
  -- a length that wraps leaves less than a header
  simp only [wadd, headerSizeInBytes, wordSize] at *
  omega

namespace Holding

variable {P : Platform} {de de' : Deserializer} {data chunk : List UInt8}

theorem missing (h : Holding de data) : deserializerMissing de = .ok (missingOf data) :=
  missing_of_bytes h.size h.bytes

theorem validate (h : Holding de data) :
    deserializerValidate de = .ok (decide (data.length < 8 ∨ beValue data = headerMagicCode)) := by
  obtain ⟨more, hblock⟩ := h.bytes
  rw [deserializerValidate, h.size, headerMagicCodeSizeInBytes]
  split
  · rename_i hshort
    simp [hshort]
  · rename_i hlong
    rw [← hblock, bigEndianToU64_eq (by omega)]
    simp [hlong]

/-- The room for a message is a header, or what the header asks for. -/
theorem room_eq (h : Holding de data) :
    wadd data.length (missingOf data) =
      if data.length < headerSizeInBytes then headerSizeInBytes
      else wadd (lengthPrefix data) headerSizeInBytes := by
  rw [missingOf]
  split
  · rename_i hshort
    rw [headerSizeInBytes] at *
    rw [wadd_of_lt (by simp only [wordSize]; omega)]
    omega
  · exact wadd_wsub_self (wadd_lt _ _) h.fits

theorem missing_pos (h : Holding de data) : 0 < missingOf data := by
  rw [missingOf]
  split
  · rename_i hshort
    exact Nat.sub_pos_of_lt hshort
  · rename_i hlong
    have hunder := h.under (Nat.not_lt.mp hlong)
    have hfits := h.fits
    refine wsub_pos hfits fun heq => ?_
    change wadd (lengthPrefix data) headerSizeInBytes = data.length at heq
    have hvalue := lengthPrefix_lt (Nat.not_lt.mp hlong)
    simp only [wadd, headerSizeInBytes, wordSize] at *
    omega

/-- After `deserializer_buffer` there is room for the message, or its length wraps. -/
theorem buffer (h : Holding de data) (hx : deserializerBuffer P de = .ok de') :
    de'.sizeInBytes = data.length ∧ de'.block.length = wadd data.length (missingOf data) ∧
      (Holding de' data ∨ de'.Stuck) := by
  rw [deserializerBuffer, h.missing, Exec.ok_bind] at hx
  obtain ⟨block, hblock, hx⟩ := Exec.bind_eq_ok.mp hx
  obtain rfl := Except.ok.inj hx
  obtain ⟨-, rfl⟩ := xrealloc_eq_ok.mp hblock
  have hlen := resize_length (de.buffer.getD []) (wadd de.sizeInBytes (missingOf data))
  refine ⟨h.size, hlen.trans (by rw [h.size]), ?_⟩
  -- the new block is too short for the old bytes only when the announced length wraps
  by_cases hfits : data.length ≤ wadd data.length (missingOf data)
  · refine Or.inl ⟨h.size, ?_, h.fits, h.under⟩
    have htake : data <+: de.block.take (wadd de.sizeInBytes (missingOf data)) := by
      rw [h.size]
      exact List.prefix_take_iff.mpr ⟨h.bytes, hfits⟩
    exact htake.trans (List.prefix_append _ _)
  · have hlong : headerSizeInBytes ≤ data.length := by
      refine Nat.le_of_not_lt fun hshort => hfits ?_
      rw [h.room_eq, if_pos hshort]
      exact Nat.le_of_lt hshort
    have hunder := h.under hlong
    have hvalue := lengthPrefix_lt hlong
    refine Or.inr ⟨hlong.trans (Nat.le_of_eq h.size.symm), ?_⟩
    change (resize (de.buffer.getD []) _).length < headerSizeInBytes
    rw [h.room_eq, if_neg (Nat.not_lt.mpr hlong)] at hfits
    rw [hlen, h.size, h.room_eq, if_neg (Nat.not_lt.mpr hlong)]
    simp only [wadd, headerSizeInBytes, wordSize] at *
    omega

/-- `read` puts the new bytes behind the ones that are there. -/
theorem fill (h : Holding de data) (hx : de.fill chunk = .ok de') :
    de'.sizeInBytes = data.length ∧ data ++ chunk <+: de'.block ∧
      de'.block.length = de.block.length := by
  obtain ⟨block, hcopy, hx⟩ := Exec.bind_eq_ok.mp hx
  obtain rfl := Except.ok.inj hx
  obtain ⟨more, hblock⟩ := h.bytes
  have hlen : de.block.length = data.length + more.length := by rw [← hblock, List.length_append]
  rw [memcpy, h.size] at hcopy
  split at hcopy
  · rename_i hin
    obtain rfl := Except.ok.inj hcopy
    have htake : de.block.take data.length = data := by
      rw [← hblock, List.take_left]
    refine ⟨h.size, ?_, ?_⟩
    · show data ++ chunk <+: de.block.take data.length ++ chunk ++ _
      rw [htake]
      exact List.prefix_append _ _
    · show (de.block.take data.length ++ chunk ++ de.block.drop (data.length + chunk.length)).length
        = de.block.length
      simp only [List.length_append, List.length_take, List.length_drop]
      omega
  · cases hcopy

end Holding

/-- The message is complete: it is as long as its header says. -/
structure Complete (buffer : Buffer) (data : List UInt8) : Prop where
  raw : buffer.raw = data
  size : buffer.sizeInBytes = data.length
  fits : data.length < wordSize
  header : headerSizeInBytes ≤ data.length
  length : data.length = lengthPrefix data + headerSizeInBytes

theorem frame_drop (payload : List UInt8) : (frame payload).drop headerSizeInBytes = payload :=
  List.drop_left' rfl

theorem complete_frame {payload : List UInt8} (hfits : payload.length + 16 < wordSize) :
    Complete ⟨(frame payload).length, frame payload⟩ (frame payload) := by
  have hlength := frame_length payload
  have hprefix : lengthPrefix (frame payload) = payload.length := by
    rw [lengthPrefix, frame, List.append_assoc,
      List.drop_left' (show _ = headerMagicCodeSizeInBytes from rfl)]
    exact beValue_u64ToBigEndian (by omega) _
  refine ⟨rfl, rfl, by omega, ?_, ?_⟩
  · rw [hlength, headerSizeInBytes]
    exact Nat.le_add_right _ _
  · rw [hlength, hprefix, Nat.add_comm]
    rfl

/-- The room does not let the bytes grow past the message, nor past a header that is not yet
complete. -/
theorem Holding.grow {de : Deserializer} {data : List UInt8} (h : Holding de data)
    {chunk : List UInt8} (hne : chunk ≠ [])
    (hin : (data ++ chunk).length ≤ wadd data.length (missingOf data)) :
    ((data ++ chunk).length ≤ headerSizeInBytes ∨ headerSizeInBytes ≤ data.length) ∧
      (headerSizeInBytes ≤ (data ++ chunk).length →
        (data ++ chunk).length ≤ lengthPrefix (data ++ chunk) + headerSizeInBytes) := by
  have hpos := List.length_pos_of_ne_nil hne
  rw [h.room_eq] at hin
  split at hin
  · exact ⟨Or.inl hin, fun _ => Nat.le_trans hin (Nat.le_add_left _ _)⟩
  · rename_i hlong
    have hhead := Nat.not_lt.mp hlong
    refine ⟨Or.inr hhead, fun _ => ?_⟩
    rw [lengthPrefix_append hhead]
    exact Nat.le_trans hin (Nat.mod_le _ _)

/-- What one round of `receiver_poll` does to the bytes of a connection. -/
theorem Holding.receive {P : Platform} {de de₁ de₂ de₃ : Deserializer} {data chunk : List UInt8}
    {buf : Option Buffer} (h : Holding de data) (hbuffer : deserializerBuffer P de = .ok de₁)
    (hfill : de₁.fill chunk = .ok de₂) (hne : chunk ≠ [])
    (hdetach : deserializerDetach de₂ chunk.length = .ok (buf, de₃)) :
    ((data ++ chunk).length ≤ headerSizeInBytes ∨ headerSizeInBytes ≤ data.length) ∧
      ((missingOf (data ++ chunk) = 0 ∧ de₃ = deserializerCreate ∧
          ∃ buffer, buf = some buffer ∧ Complete buffer (data ++ chunk)) ∨
        (0 < missingOf (data ++ chunk) ∧ buf = none ∧ Holding de₃ (data ++ chunk))) := by
  have hpos := List.length_pos_of_ne_nil hne
  obtain ⟨hsize₁, hroom, h₁ | hstuck⟩ := h.buffer hbuffer
  · obtain ⟨hsize₂, hbytes, hlen₂⟩ := h₁.fill hfill
    have hin := hbytes.length_le
    rw [hlen₂, hroom] at hin
    have hfits : (data ++ chunk).length < wordSize := Nat.lt_of_le_of_lt hin (wadd_lt _ _)
    have hsum : wadd de₂.sizeInBytes chunk.length = (data ++ chunk).length := by
      rw [hsize₂, wadd_of_lt (by rwa [List.length_append] at hfits), List.length_append]
    obtain ⟨hhead, hle⟩ := h.grow hne hin
    rw [deserializerDetach, hsum] at hdetach
    have hmissing : deserializerMissing ⟨de₂.buffer, (data ++ chunk).length⟩ =
        .ok (missingOf (data ++ chunk)) := missing_of_bytes rfl hbytes
    simp only [hmissing, Exec.ok_bind] at hdetach
    refine ⟨hhead, ?_⟩
    -- more is missing, or the message is complete
    split at hdetach
    · rename_i hmissing
      cases hdetach
      refine Or.inr ⟨hmissing, rfl, rfl, hbytes, hfits, fun hlong => ?_⟩
      refine Nat.lt_of_le_of_ne (hle hlong) fun heq => ?_
      rw [(missingOf_eq_zero hlong hfits (hle hlong)).mpr heq] at hmissing
      exact Nat.lt_irrefl _ hmissing
    · rename_i hmissing
      have hzero : missingOf (data ++ chunk) = 0 := Nat.eq_zero_of_not_pos hmissing
      cases hdetach
      have hlong : headerSizeInBytes ≤ (data ++ chunk).length := by
        refine Nat.le_of_not_lt fun hshort => ?_
        rw [missingOf, if_pos hshort] at hzero
        omega
      have hlast := (missingOf_eq_zero hlong hfits (hle hlong)).mp hzero
      refine Or.inl ⟨hzero, rfl, _, rfl, ?_, rfl, hfits, hlong, hlast⟩
      -- the block is no longer than the message
      refine (List.IsPrefix.eq_of_length hbytes ?_).symm
      rw [hlen₂, hroom, h.room_eq]
      split
      · rename_i hshort
        rcases hhead with hhead | hhead
        · exact Nat.le_antisymm hhead hlong
        · exact absurd hhead (Nat.not_le.mpr hshort)
      · rename_i hdata
        rw [h.room_eq, if_neg hdata] at hin
        rw [lengthPrefix_append (Nat.not_lt.mp hdata)] at hlast
        rw [hlast]
        rw [hlast] at hin
        exact Nat.le_antisymm hin (Nat.mod_le _ _)
  · -- nothing fits behind a block that is shorter than the header
    obtain ⟨hsize, hblock⟩ := hstuck
    obtain ⟨block, hcopy, -⟩ := Exec.bind_eq_ok.mp hfill
    rw [memcpy, if_neg (by omega)] at hcopy
    cases hcopy

end FileStorage.Server
