import FileStorage.Server.Delivery
import Mathlib.Algebra.BigOperators.Group.List.Basic

/-!
# Intake — one stream through one deserializer

What the rounds of `receiver_poll` do for a single connection, with the sizes of the reads as a
parameter.
-/

namespace FileStorage.Server

/-! ## 1. The code -/

/-- Every entry of `cuts` is a readable event with this many bytes waiting, of which `read` gives no
more than are missing.  A deserializer that is not valid takes nothing more. -/
def feed (P : Platform) (de : Deserializer) (stream : List UInt8) :
    List Nat → Exec (List Buffer × Deserializer)
  | [] => .ok ([], de)
  | cut :: cuts => do
      let isValid ← deserializerValidate de
      if isValid && !stream.isEmpty then
        let de ← deserializerBuffer P de
        let missing ← deserializerMissing de
        let chunk := stream.take (min cut missing)
        let de ← de.fill chunk
        let (buf, de) ← deserializerDetach de chunk.length
        let (buffers, de) ← feed P de (stream.drop (min cut missing)) cuts
        return (buf.toList ++ buffers, de)
      else
        return ([], de)

/-- The reads that are left reach the end of the header of a message of `size` bytes, of which `read`
are there, and those behind them the end of the message: no read goes past the header. -/
def Covers (size read : Nat) (cuts : List Nat) : Prop :=
  ∃ header rest, cuts = header ++ rest ∧ headerSizeInBytes ≤ read + header.sum ∧
    size ≤ max read headerSizeInBytes + rest.sum

/-! ## 2. One message -/

theorem Covers.done {size read : Nat} (h : Covers size read []) : size ≤ read := by
  obtain ⟨header, rest, hcuts, hheader, hrest⟩ := h
  obtain ⟨rfl, rfl⟩ := List.append_eq_nil_iff.mp hcuts.symm
  rw [List.sum_nil] at *
  omega

/-- A read takes what is waiting, but no more than the rest of the header or of the message. -/
theorem Covers.read {size read cut missing : Nat} {cuts : List Nat} (h : Covers size read (cut :: cuts))
    (hmissing : missing = if read < headerSizeInBytes then headerSizeInBytes - read else size - read) :
    Covers size (read + min cut missing) cuts := by
  obtain ⟨header, rest, hcuts, hheader, hrest⟩ := h
  cases header with
  | nil =>
    -- the header is there
    obtain rfl : cut :: cuts = rest := hcuts
    refine ⟨[], cuts, rfl, ?_, ?_⟩
    · rw [List.sum_nil] at *
      omega
    · rw [List.sum_nil, List.sum_cons] at *
      rw [if_neg (by omega)] at hmissing
      omega
  | cons first header =>
    obtain ⟨rfl, rfl⟩ := List.cons.inj hcuts
    refine ⟨header, rest, rfl, ?_, ?_⟩
    · rw [List.sum_cons] at hheader
      split at hmissing <;> omega
    · split at hmissing <;> omega

/-- One read for every byte is enough. -/
theorem covers_of_length {size : Nat} {cuts : List Nat} (hlong : headerSizeInBytes ≤ size)
    (hcuts : ∀ cut ∈ cuts, 0 < cut) (henough : size ≤ cuts.length) : Covers size 0 cuts := by
  have hheader := List.length_le_sum_of_one_le (cuts.take headerSizeInBytes) fun cut hmem =>
    hcuts cut (List.mem_of_mem_take hmem)
  have hrest := List.length_le_sum_of_one_le (cuts.drop headerSizeInBytes) fun cut hmem =>
    hcuts cut (List.mem_of_mem_drop hmem)
  rw [List.length_take] at hheader
  rw [List.length_drop] at hrest
  exact ⟨_, _, (List.take_append_drop headerSizeInBytes cuts).symm, by omega, by omega⟩

variable {P : Platform} {de : Deserializer} {data chunk rest payload : List UInt8}

theorem reassembled_part (hframe : data ++ rest = frame payload) (hrest : rest ≠ []) :
    Framing.Reassembled [frame payload] data [] data :=
  ⟨rfl, [frame payload], rfl, Or.inr ⟨rest, [], hrest, by rw [hframe]⟩⟩

theorem framed_frame (hfits : payload.length + 16 < wordSize) :
    Framed fun _ => [frame payload] :=
  fun _ _ hm => ⟨payload, List.mem_singleton.mp hm, hfits⟩

/-- With enough memory there is room for the rest of the message. -/
theorem Holding.buffer_ok (h : Holding de data) (hframe : data ++ rest = frame payload)
    (hrest : rest ≠ []) (hfits : payload.length + 16 < wordSize)
    (hgrants : ∀ isNull, ∀ size ≤ (frame payload).length, 0 < size → P.grants isNull size) :
    ∃ de', deserializerBuffer P de = .ok de' ∧ Holding de' data ∧
      de'.block.length = data.length + missingOf data := by
  have hpart := ((isFrame_frame hfits).part data rest hframe hrest)
  have hlength := frame_length payload
  rw [← hframe, List.length_append] at hlength
  have hsum : wadd data.length (missingOf data) = data.length + missingOf data :=
    wadd_of_lt (by omega)
  have hgrant : P.grants de.buffer.isNone (data.length + missingOf data) :=
    hgrants _ _ (by rw [← hframe, List.length_append]; omega) (by omega)
  have hx : deserializerBuffer P de =
      .ok { de with buffer := some (resize (de.buffer.getD []) (data.length + missingOf data)) } := by
    rw [deserializerBuffer, h.missing, Exec.ok_bind, h.size, hsum,
      xrealloc_eq_ok.mpr ⟨⟨by omega, hgrant⟩, rfl⟩]
    rfl
  have hbuffer := (framed_frame hfits).buffer (c := 0) (reassembled_part hframe hrest) h hx
  exact ⟨_, hx, hbuffer, (h.buffer hx).2.1.trans hsum⟩

/-- The header is valid as far as it is there. -/
theorem Holding.validate_ok (h : Holding de data) (hframe : data ++ rest = frame payload)
    (hrest : rest ≠ []) (hfits : payload.length + 16 < wordSize) :
    deserializerValidate de = .ok true := by
  rw [h.validate, decide_eq_true]
  by_cases hshort : data.length < 8
  · exact Or.inl hshort
  · exact Or.inr ((framed_frame hfits).magic (c := 0) (reassembled_part hframe hrest)
      (Nat.not_lt.mp hshort))

/-- A read that stays in the room goes through. -/
theorem Holding.fill_ok (h : Holding de data) (hfits : data.length + chunk.length < wordSize)
    (hroom : data.length + chunk.length ≤ de.block.length) :
    ∃ de', de.fill chunk = .ok de' ∧
      ∃ buf de'', deserializerDetach de' chunk.length = .ok (buf, de'') := by
  obtain ⟨de', hx⟩ : ∃ de', de.fill chunk = .ok de' := by
    rw [Deserializer.fill, memcpy, if_pos (by rw [h.size]; exact hroom)]
    exact ⟨_, rfl⟩
  obtain ⟨hsize, hbytes, -⟩ := h.fill hx
  have hsum : wadd de'.sizeInBytes chunk.length = (data ++ chunk).length := by
    rw [hsize, wadd_of_lt hfits, List.length_append]
  have hmissing : deserializerMissing { de' with sizeInBytes := wadd de'.sizeInBytes chunk.length } =
      .ok (missingOf (data ++ chunk)) := missing_of_bytes hsum hbytes
  refine ⟨de', hx, ?_⟩
  simp only [deserializerDetach, hmissing, Exec.ok_bind]
  split
  · exact ⟨_, _, rfl⟩
  · exact ⟨_, _, rfl⟩

/-- Behind the last message the deserializer stays as it was created. -/
theorem feed_nil (cuts : List Nat) : feed P deserializerCreate [] cuts = .ok ([], deserializerCreate) := by
  cases cuts with
  | nil => rfl
  | cons cut cuts => rfl

theorem feed_part {cuts : List Nat} (h : Holding de data) (hframe : data ++ rest = frame payload)
    (hrest : rest ≠ []) (hfits : payload.length + 16 < wordSize)
    (hgrants : ∀ isNull, ∀ size ≤ (frame payload).length, 0 < size → P.grants isNull size)
    (hcuts : ∀ cut ∈ cuts, 0 < cut) (hcovers : Covers (frame payload).length data.length cuts) :
    feed P de rest cuts =
      .ok ([⟨(frame payload).length, frame payload⟩], deserializerCreate) := by
  induction cuts generalizing de data rest with
  | nil =>
    have hpos := List.length_pos_of_ne_nil hrest
    have hall := hcovers.done
    rw [← hframe, List.length_append] at hall
    omega
  | cons cut cuts ih =>
    have hcut := hcuts cut (by simp)
    obtain ⟨hpos, hpart⟩ := (isFrame_frame hfits).part data rest hframe hrest
    have hlength := frame_length payload
    rw [← hframe, List.length_append] at hlength
    obtain ⟨de₁, hbuffer, h₁, hroom⟩ := h.buffer_ok hframe hrest hfits hgrants
    -- one read
    let k := min cut (missingOf data)
    have hk : 0 < k ∧ k ≤ missingOf data := by omega
    have htake : (rest.take k).length = k := by
      rw [List.length_take]
      omega
    have hchunk : rest.take k ≠ [] := List.ne_nil_of_length_pos (by omega)
    have hjoin : data ++ rest.take k ++ rest.drop k = frame payload := by
      rw [List.append_assoc, List.take_append_drop]
      exact hframe
    have hinto : data.length + (rest.take k).length ≤ de₁.block.length := by omega
    obtain ⟨de₂, hfill, buf, de₃, hdetach⟩ := h₁.fill_ok (by omega) hinto
    have hstep : feed P de rest (cut :: cuts) = (feed P de₃ (rest.drop k) cuts).map
        fun x => (buf.toList ++ x.1, x.2) := by
      rw [feed, h.validate_ok hframe hrest hfits, Exec.ok_bind, if_pos (by simp [hrest]), hbuffer, Exec.ok_bind, h₁.missing,
        Exec.ok_bind]
      simp only [show min cut (missingOf data) = k from rfl, hfill, hdetach, Exec.ok_bind]
      cases feed P de₃ (rest.drop k) cuts <;> rfl
    rw [hstep]
    obtain ⟨-, hdone⟩ := h.receive hbuffer hfill hchunk hdetach
    rcases hdone with ⟨hzero, rfl, buffer, rfl, hcomplete⟩ | ⟨hmore, rfl, h₃⟩
    · -- the message is complete, and nothing is left
      have hnil : rest.drop k = [] := by
        by_contra hne
        have hmore := ((isFrame_frame hfits).part _ _ hjoin hne).1
        omega
      rw [hnil, List.append_nil] at hjoin
      obtain ⟨size, raw⟩ := buffer
      obtain rfl : raw = frame payload := hcomplete.raw.trans hjoin
      obtain rfl : size = (frame payload).length := hcomplete.size.trans (by rw [hjoin])
      rw [hnil, feed_nil]
      rfl
    · have hne : rest.drop k ≠ [] := by
        intro hnil
        rw [hnil, List.append_nil] at hjoin
        rw [hjoin, (isFrame_frame hfits).whole] at hmore
        exact Nat.lt_irrefl 0 hmore
      have hmissing := missingOf_part hfits hframe
      have hrestlen : rest.length = (frame payload).length - data.length := by
        rw [← hframe, List.length_append]
        omega
      rw [hrestlen] at hmissing
      have hcovers' : Covers (frame payload).length (data.length + k) cuts := hcovers.read hmissing
      rw [← htake, ← List.length_append] at hcovers'
      rw [ih h₃ hjoin hne (fun cut hmem => hcuts cut (List.mem_cons_of_mem _ hmem)) hcovers']
      rfl

/-- A message comes out whole, however it is cut. -/
theorem feed_frame {cuts : List Nat} (hfits : payload.length + 16 < wordSize)
    (hgrants : ∀ isNull, ∀ size ≤ (frame payload).length, 0 < size → P.grants isNull size)
    (hcuts : ∀ cut ∈ cuts, 0 < cut) (hcovers : Covers (frame payload).length 0 cuts) :
    feed P deserializerCreate (frame payload) cuts =
      .ok ([⟨(frame payload).length, frame payload⟩], deserializerCreate) :=
  feed_part holding_create rfl (isFrame_frame hfits).nonempty hfits hgrants hcuts hcovers

/-! ## 3. Reads that may stop early -/

/-- With reads of any size, what comes out is the message or nothing. -/
theorem feed_part_cases {cuts : List Nat} {buffers : List Buffer} {de' : Deserializer}
    (h : Holding de data) (hframe : data ++ rest = frame payload) (hrest : rest ≠ [])
    (hfits : payload.length + 16 < wordSize) (hcuts : ∀ cut ∈ cuts, 0 < cut)
    (hx : feed P de rest cuts = .ok (buffers, de')) :
    buffers = [] ∨
      buffers = [⟨(frame payload).length, frame payload⟩] ∧ de' = deserializerCreate := by
  induction cuts generalizing de data rest buffers with
  | nil =>
    cases hx
    exact Or.inl rfl
  | cons cut cuts ih =>
    have hcut := hcuts cut (by simp)
    have hpart := (isFrame_frame hfits).part data rest hframe hrest
    rw [feed, h.validate_ok hframe hrest hfits, Exec.ok_bind, if_pos (by simp [hrest])] at hx
    obtain ⟨de₁, hbuffer, hx⟩ := Exec.bind_eq_ok.mp hx
    have h₁ := (framed_frame hfits).buffer (c := 0) (reassembled_part hframe hrest) h hbuffer
    rw [h₁.missing, Exec.ok_bind] at hx
    obtain ⟨de₂, hfill, hx⟩ := Exec.bind_eq_ok.mp hx
    obtain ⟨⟨buf, de₃⟩, hdetach, hx⟩ := Exec.bind_eq_ok.mp hx
    obtain ⟨⟨more, de₄⟩, hmore, hx⟩ := Exec.bind_eq_ok.mp hx
    cases hx
    have hchunk : rest.take (min cut (missingOf data)) ≠ [] := by
      refine List.ne_nil_of_length_pos ?_
      rw [List.length_take]
      omega
    have hjoin : data ++ rest.take (min cut (missingOf data)) ++
        rest.drop (min cut (missingOf data)) = frame payload := by
      rw [List.append_assoc, List.take_append_drop]
      exact hframe
    obtain ⟨-, hdone⟩ := h.receive hbuffer hfill hchunk hdetach
    rcases hdone with ⟨hzero, rfl, buffer, rfl, hcomplete⟩ | ⟨hpos, rfl, h₃⟩
    · -- the message is complete, and nothing is left
      have hnil : rest.drop (min cut (missingOf data)) = [] := by
        by_contra hne
        have hpart' := ((isFrame_frame hfits).part _ _ hjoin hne).1
        omega
      rw [hnil, List.append_nil] at hjoin
      obtain ⟨size, raw⟩ := buffer
      obtain rfl : raw = frame payload := hcomplete.raw.trans hjoin
      obtain rfl : size = (frame payload).length := hcomplete.size.trans (by rw [hjoin])
      rw [hnil, feed_nil] at hmore
      cases hmore
      exact Or.inr ⟨rfl, rfl⟩
    · have hne : rest.drop (min cut (missingOf data)) ≠ [] := by
        intro hnil
        rw [hnil, List.append_nil] at hjoin
        rw [hjoin, (isFrame_frame hfits).whole] at hpos
        exact Nat.lt_irrefl 0 hpos
      exact ih h₃ hjoin hne (fun cut hmem => hcuts cut (List.mem_cons_of_mem _ hmem)) hmore

end FileStorage.Server
