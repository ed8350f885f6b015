import Mathlib.Data.List.Basic
import Mathlib.Data.List.Infix

/-!
# Framing — a stream of messages that is read in pieces of any size

`need p` is a lower bound on what is missing behind `p` until the message that starts with `p` is
complete.  A reader that never asks for more than that stops at every message boundary, however
the stream is cut.
-/

namespace FileStorage.Framing

variable {β : Type}

/-- Nothing is missing behind the message, and behind a part of it something, but no more than
what is left. -/
structure IsFrame (need : List β → Nat) (m : List β) : Prop where
  nonempty : m ≠ []
  whole : need m = 0
  part : ∀ p q, p ++ q = m → q ≠ [] → 0 < need p ∧ need p ≤ q.length

/-- What was read of the messages `ms` are the messages `done` and then a part of the next one. -/
structure Reassembled (ms : List (List β)) (read : List β) (done : List (List β))
    (part : List β) : Prop where
  read_eq : read = done.flatten ++ part
  rest : ∃ rest, ms = done ++ rest ∧
    (part = [] ∨ ∃ q rest', q ≠ [] ∧ rest = (part ++ q) :: rest')

namespace Reassembled

variable {need : List β → Nat} {ms done : List (List β)} {read part chunk : List β}

theorem nil (ms : List (List β)) : Reassembled ms [] [] [] := ⟨rfl, ms, rfl, Or.inl rfl⟩

theorem done_initial (h : Reassembled ms read done part) : done <+: ms := by
  obtain ⟨rest, rfl, -⟩ := h.rest
  exact List.prefix_append _ _

/-- All messages are done when the whole stream was read, and only then. -/
theorem done_eq_iff (h : Reassembled ms read done part) (hms : ∀ m ∈ ms, m ≠ []) :
    done = ms ↔ read = ms.flatten := by
  obtain ⟨rest, rfl, hrest⟩ := h.rest
  have hread : read = (done ++ rest).flatten ↔ part = rest.flatten := by
    rw [h.read_eq, List.flatten_append, List.append_cancel_left_eq]
  rw [hread, List.self_eq_append_right]
  rcases hrest with rfl | ⟨q, rest', hq, rfl⟩
  · constructor
    · rintro rfl
      rfl
    · intro hnil
      refine List.eq_nil_iff_forall_not_mem.mpr fun m hm => hms m (by simp [hm]) ?_
      exact List.flatten_eq_nil_iff.mp hnil.symm m hm
  -- inside a message something is missing
  · refine iff_of_false (List.cons_ne_nil _ _) fun hpart => hq ?_
    rw [List.flatten_cons, List.append_assoc, List.self_eq_append_right] at hpart
    exact (List.append_eq_nil_iff.mp hpart).1

/-- More can only be read when a message is under way. -/
theorem next (h : Reassembled ms read done part) (hms : ∀ m ∈ ms, IsFrame need m)
    (hne : chunk ≠ []) (hnext : read ++ chunk <+: ms.flatten) :
    ∃ q rest, q ≠ [] ∧ ms = done ++ (part ++ q) :: rest ∧ IsFrame need (part ++ q) ∧
      chunk <+: q ++ rest.flatten := by
  obtain ⟨rest, rfl, hrest⟩ := h.rest
  have hahead : part ++ chunk <+: rest.flatten := by
    rw [h.read_eq, List.flatten_append, List.append_assoc] at hnext
    exact (List.prefix_append_right_inj _).mp hnext
  -- between two messages, or inside one
  rcases hrest with rfl | ⟨q, rest', hq, rfl⟩
  · cases rest with
    | nil => exact absurd (List.prefix_nil.mp hahead) hne
    | cons m rest =>
      have hm := hms m (by simp)
      exact ⟨m, rest, hm.nonempty, rfl, hm, hahead⟩
  · refine ⟨q, rest', hq, rfl, hms _ (by simp), ?_⟩
    rw [List.flatten_cons, List.append_assoc] at hahead
    exact (List.prefix_append_right_inj _).mp hahead

/-- A piece no longer than what is missing ends a message or stays inside it. -/
theorem feed (h : Reassembled ms read done part) (hms : ∀ m ∈ ms, IsFrame need m)
    (hne : chunk ≠ []) (hle : chunk.length ≤ need part) (hnext : read ++ chunk <+: ms.flatten) :
    (need (part ++ chunk) = 0 ∧ Reassembled ms (read ++ chunk) (done ++ [part ++ chunk]) []) ∨
      (0 < need (part ++ chunk) ∧ Reassembled ms (read ++ chunk) done (part ++ chunk)) := by
  obtain ⟨q, rest, hq, rfl, hframe, hchunk⟩ := h.next hms hne hnext
  have hfits : chunk.length ≤ q.length := Nat.le_trans hle (hframe.part part q rfl hq).2
  obtain ⟨q', rfl⟩ := List.prefix_of_prefix_length_le hchunk (List.prefix_append _ _) hfits
  have hread : read ++ chunk = done.flatten ++ (part ++ chunk) := by
    rw [h.read_eq, List.append_assoc]
  -- `q'` is what the message lacks behind the piece
  cases q' with
  | nil =>
    rw [List.append_nil] at *
    refine Or.inl ⟨hframe.whole, ?_, rest, ?_, Or.inl rfl⟩
    · simpa using hread
    · simp
  | cons x q' =>
    have hmore := (hframe.part (part ++ chunk) (x :: q') (by simp) (by simp)).1
    refine Or.inr ⟨hmore, hread, _, rfl, Or.inr ⟨x :: q', rest, by simp, ?_⟩⟩
    rw [List.append_assoc]

end Reassembled

end FileStorage.Framing
