import FileStorage.Memory.Path

/-!
# SinglyLinked — lists with a head and a last pointer that grow at the back
-/

namespace FileStorage.Memory

/-- Following `nxt` from `head` visits `as`, and `last` is the end of them. -/
structure SList (nxt : Addr → Option Ptr) (head last : Ptr) (as : List Addr) : Prop where
  fwd : Path nxt head as none
  last_eq : last = as.getLast?

namespace SList

variable {nxt nxt' : Addr → Option Ptr} {head last : Ptr} {a : Addr} {as : List Addr}

theorem empty : SList nxt none none [] := ⟨rfl, rfl⟩

theorem nodup (h : SList nxt head last as) : as.Nodup := h.fwd.nodup

theorem mem_of_last (h : SList nxt head last as) (hlast : last = some a) : a ∈ as :=
  List.mem_of_getLast? (h.last_eq ▸ hlast)

theorem head_of_last_none (h : SList nxt head last as) (hlast : last = none) : head = none := by
  obtain rfl : as = [] := List.getLast?_eq_none_iff.mp (h.last_eq.symm.trans hlast)
  exact h.fwd

theorem head_or_of_last (h : SList nxt head last as) (hlast : last = some a) (p : Ptr) :
    head.or p = head := by
  have hmem := h.mem_of_last hlast
  rw [h.fwd.start_eq_head]
  cases as with
  | nil => cases hmem
  | cons b as => rfl

/-- A new block behind the old last one. -/
theorem pushBack (h : SList nxt head last as) (ha : a ∉ as) (hna : nxt' a = some none)
    (hlast : ∀ b, last = some b → nxt' b = some (some a))
    (hnxt : ∀ c, c ≠ a → last ≠ some c → nxt' c = nxt c) :
    SList nxt' (head.or (some a)) (some a) (as ++ [a]) := by
  refine ⟨?_, by rw [List.getLast?_concat]⟩
  rcases List.eq_nil_or_concat as with rfl | ⟨bs, b, rfl⟩
  · have hhead : head = none := h.fwd
    subst hhead
    exact ⟨rfl, none, hna, rfl⟩
  · rw [List.concat_eq_append] at *
    have hb : last = some b := by rw [h.last_eq, List.getLast?_concat]
    have hdisj := (List.nodup_append.mp h.nodup).2.2
    obtain ⟨m, hbs, hend⟩ := Path.append_iff.mp h.fwd
    obtain ⟨rfl, -⟩ := hend
    have hbs' : Path nxt' head bs (some b) := by
      refine hbs.congr fun c hc => hnxt c ?_ ?_
      · exact fun he => ha (he ▸ List.mem_append_left _ hc)
      · rw [hb]
        exact fun he => hdisj c hc b List.mem_cons_self (Option.some.inj he).symm
    have hold : Path nxt' head (bs ++ [b]) (some a) := hbs'.append ⟨rfl, some a, hlast b hb, rfl⟩
    rw [h.head_or_of_last hb]
    exact hold.append ⟨rfl, none, hna, rfl⟩

end SList

end FileStorage.Memory
