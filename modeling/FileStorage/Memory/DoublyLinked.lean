import FileStorage.Memory.Path

/-!
# DoublyLinked — lists linked both ways between a head and a last pointer
-/

namespace FileStorage.Memory

/-- Following `nxt` from `head` visits `as`, following `prv` from `last` visits `as` backwards. -/
structure DList (nxt prv : Addr → Option Ptr) (head last : Ptr) (as : List Addr) : Prop where
  fwd : Path nxt head as none
  bwd : Path prv last as.reverse none

namespace DList

variable {nxt nxt' prv prv' : Addr → Option Ptr} {head last : Ptr} {a : Addr}
  {as bs : List Addr}

theorem empty : DList nxt prv none none [] := ⟨rfl, rfl⟩

theorem nodup (h : DList nxt prv head last as) : as.Nodup := h.fwd.nodup

theorem head_eq (h : DList nxt prv head last as) : head = as.head? := h.fwd.start_eq_head

theorem last_eq (h : DList nxt prv head last as) : last = as.getLast? := by
  rw [h.bwd.start_eq_head, List.head?_reverse]

theorem congr (h : DList nxt prv head last as) (hnxt : ∀ a ∈ as, nxt' a = nxt a)
    (hprv : ∀ a ∈ as, prv' a = prv a) : DList nxt' prv' head last as :=
  ⟨h.fwd.congr hnxt, h.bwd.congr fun a ha => hprv a (List.mem_reverse.mp ha)⟩

theorem nxt_eq (h : DList nxt prv head last (as ++ a :: bs)) : nxt a = some bs.head? := by
  obtain ⟨m, -, ha⟩ := Path.append_iff.mp h.fwd
  exact ha.link_head

theorem prv_eq (h : DList nxt prv head last (as ++ a :: bs)) : prv a = some as.getLast? := by
  have hbwd := h.bwd
  rw [List.reverse_append, List.reverse_cons, List.append_assoc] at hbwd
  obtain ⟨m, -, ha⟩ := Path.append_iff.mp hbwd
  rw [← List.head?_reverse]
  exact Path.link_head (by simpa using ha)

/-- A new block in front of the old head. -/
theorem pushFront (h : DList nxt prv head last as) (ha : a ∉ as)
    (hna : nxt' a = some head) (hpa : prv' a = some none)
    (hhead : ∀ b, head = some b → prv' b = some (some a))
    (hnxt : ∀ c, c ≠ a → nxt' c = nxt c)
    (hprv : ∀ c, c ≠ a → head ≠ some c → prv' c = prv c) :
    DList nxt' prv' (some a) (last.or (some a)) (a :: as) := by
  refine ⟨⟨rfl, head, hna, h.fwd.congr fun c hc => hnxt c fun he => ha (he ▸ hc)⟩, ?_⟩
  cases as with
  | nil =>
    have hlast : last = none := h.bwd
    subst hlast
    exact ⟨rfl, none, hpa, rfl⟩
  | cons b bs =>
    have hb : head = some b := h.fwd.1
    have hnodup := List.nodup_cons.mp h.nodup
    have hbwd := h.bwd
    rw [List.reverse_cons] at hbwd ⊢
    obtain ⟨m, hrev, hm⟩ := Path.append_iff.mp hbwd
    obtain ⟨rfl, -⟩ := hm
    have hrev' : Path prv' last bs.reverse (some b) := by
      refine hrev.congr fun c hc => ?_
      have hmem : c ∈ bs := List.mem_reverse.mp hc
      refine hprv c (fun he => ha (he ▸ List.mem_cons_of_mem b hmem)) ?_
      rw [hb]
      exact fun he => hnodup.1 (Option.some.inj he ▸ hmem)
    have hsome : last.or (some a) = last := by
      rw [h.last_eq, List.getLast?_cons]
      rfl
    rw [List.reverse_cons, hsome]
    exact Path.append (hrev'.append ⟨rfl, some a, hhead b hb, rfl⟩) ⟨rfl, none, hpa, rfl⟩

/-- Cutting `a` out from both sides, at the head, in the middle or at the end. -/
theorem unlink (nxt' prv' : Addr → Option Ptr) (h : DList nxt prv head last (as ++ a :: bs))
    (hp : ∀ b, as.getLast? = some b → nxt' b = some bs.head?)
    (hn : ∀ b, bs.head? = some b → prv' b = some as.getLast?)
    (hnxt : ∀ c, as.getLast? ≠ some c → c ≠ a → nxt' c = nxt c)
    (hprv : ∀ c, bs.head? ≠ some c → c ≠ a → prv' c = prv c) :
    DList nxt' prv' (if as = [] then bs.head? else head) (if bs = [] then as.getLast? else last)
      (as ++ bs) := by
  refine ⟨h.fwd.unlink hp hnxt, ?_⟩
  have hbwd := h.bwd
  rw [List.reverse_append, List.reverse_cons, List.append_assoc] at hbwd
  have hun : Path prv' (if bs.reverse = [] then as.reverse.head? else last)
      (bs.reverse ++ as.reverse) none := by
    refine Path.unlink (a := a) (by simpa using hbwd) ?_ ?_
    · intro b hb
      rw [List.head?_reverse]
      exact hn b (by simpa using hb)
    · intro c hc
      exact hprv c (by simpa using hc)
  rw [List.reverse_append]
  simpa using hun

end DList

end FileStorage.Memory
