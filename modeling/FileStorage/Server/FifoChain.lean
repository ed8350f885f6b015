import FileStorage.Server.Counters

/-!
# FifoChain — which files the FIFO policy can evict

A new node points back at the node before it, and the eviction loop walks the same way from
`fifo.last`.  So it never comes to the nodes that were added after `last`: what it can evict is
what the chain names from `last` on.
-/

namespace FileStorage.Server

open Memory

/-! ## 1. The chain from `last` -/

/-- The keys met from `p` along `prev`, down to `NULL` or to a node that is gone. -/
def fifoKeys (nodes : Heap FifoItem) : Nat → Ptr → List CStr
  | _, none => []
  | 0, some _ => []
  | fuel + 1, some a =>
      match nodes.read a with
      | none => []
      | some node => node.key :: fifoKeys nodes fuel node.prev

/-- The keys that `fifo_evict` would give, one call after the other. -/
def HTable.fifoOrder (t : HTable) : List CStr :=
  match t.fifo with
  | none => []
  | some fifo => fifoKeys t.fifoItems t.fifoItems.fresh fifo.last

/-- A node is younger than the node it points to. -/
def Older (nodes : Heap FifoItem) : Prop :=
  ∀ (a : Nat) node (p : Nat), nodes.read a = some node → node.prev = some p → p < a

structure FifoWf (t : HTable) : Prop where
  older : Older t.fifoItems
  head : ∀ fifo (a : Nat), t.fifo = some fifo → fifo.head = some a → a < t.fifoItems.fresh
  last : ∀ fifo (a : Nat), t.fifo = some fifo → fifo.last = some a → a < t.fifoItems.fresh

/-- Addresses go down along the chain, so `n` steps are enough below `n`. -/
theorem fifoKeys_fuel {nodes : Heap FifoItem} (h : Older nodes) {n fuel : Nat} {p : Ptr}
    (hp : ∀ a : Nat, p = some a → a < n) (hfuel : n ≤ fuel) :
    fifoKeys nodes fuel p = fifoKeys nodes n p := by
  induction n generalizing p fuel with
  | zero =>
    cases p with
    | none => cases fuel <;> rfl
    | some a => exact absurd (hp a rfl) (Nat.not_lt_zero a)
  | succ n ih =>
    cases p with
    | none => cases fuel <;> rfl
    | some a =>
      cases fuel with
      | zero => omega
      | succ fuel =>
        simp only [fifoKeys]
        cases hread : nodes.read a with
        | none => rfl
        | some node =>
          -- the node before is older
          have hprev : ∀ b : Nat, node.prev = some b → b < n := by
            intro b hb
            have hdown := h a node b hread hb
            have hbound := hp a rfl
            omega
          simp only [ih hprev (show n ≤ fuel by omega)]

/-- Freeing a node changes nothing below it. -/
theorem fifoKeys_free {nodes : Heap FifoItem} (h : Older nodes) {a fuel : Nat} {p : Ptr}
    (hp : ∀ b : Nat, p = some b → b < a) :
    fifoKeys (nodes.free a) fuel p = fifoKeys nodes fuel p := by
  induction fuel generalizing p with
  | zero => cases p <;> rfl
  | succ fuel ih =>
    cases p with
    | none => rfl
    | some b =>
      have hb := hp b rfl
      have hne : a ≠ b := Nat.ne_of_gt hb
      simp only [fifoKeys, Heap.read_free_of_ne _ hne]
      cases hread : nodes.read b with
      | none => rfl
      | some node =>
        -- all below is older than the node that was freed
        have hprev : ∀ c : Nat, node.prev = some c → c < a := by
          intro c hc
          have hdown := h b node c hread hc
          omega
        simp only [ih hprev]

/-- Taking the last node off the chain takes the first key off the order. -/
theorem fifoOrder_pop {t t' : HTable} (h : FifoWf t) {fifo : Fifo} {last : Nat} {node : FifoItem}
    (hfifo : t.fifo = some fifo) (hlast : fifo.last = some last)
    (hread : t.fifoItems.read last = some node)
    (hfifo' : t'.fifo = some { fifo with last := node.prev })
    (hitems : t'.fifoItems = t.fifoItems.free last) :
    t.fifoOrder = node.key :: t'.fifoOrder := by
  have hbound := h.last fifo last hfifo hlast
  have hdown : ∀ b : Nat, node.prev = some b → b < last := fun b => h.older last node b hread
  obtain ⟨n, hn⟩ : ∃ n : Nat, n + 1 = t.fifoItems.fresh :=
    ⟨_, Nat.succ_pred_eq_of_pos (Nat.zero_lt_of_lt hbound)⟩
  have horder : t.fifoOrder = node.key :: fifoKeys t.fifoItems n node.prev := by
    simp only [HTable.fifoOrder, hfifo, hlast, ← hn, fifoKeys, hread]
  have horder' : t'.fifoOrder = fifoKeys t.fifoItems (n + 1) node.prev := by
    simp only [HTable.fifoOrder, hfifo', hitems, Heap.fresh_free, ← hn]
    exact fifoKeys_free h.older hdown
  rw [horder, horder', fifoKeys_fuel h.older hdown (show last ≤ n by omega),
    fifoKeys_fuel h.older hdown (show last ≤ n + 1 by omega)]

/-- The first key of the order belongs to the last node. -/
theorem fifoOrder_cons {t : HTable} {key : CStr} {keys : List CStr}
    (h : t.fifoOrder = key :: keys) :
    ∃ fifo last node, t.fifo = some fifo ∧ fifo.last = some last ∧
      t.fifoItems.read last = some node ∧ node.key = key := by
  unfold HTable.fifoOrder at h
  split at h
  · cases h
  · rename_i fifo hfifo
    cases hlast : fifo.last with
    | none => simp [hlast, fifoKeys] at h
    | some last =>
      rw [hlast] at h
      cases hfuel : t.fifoItems.fresh with
      | zero => simp [hfuel, fifoKeys] at h
      | succ n =>
        simp only [hfuel, fifoKeys] at h
        cases hread : t.fifoItems.read last with
        | none => simp [hread] at h
        | some node =>
          simp only [hread, List.cons.injEq] at h
          exact ⟨fifo, last, node, hfifo, hlast, hread, h.1⟩

/-! ## 2. The chain is kept in shape -/

namespace FifoWf

variable {t t' : HTable}

theorem of_same (h : FifoWf t) (hfifo : t'.fifo = t.fifo) (hitems : t'.fifoItems = t.fifoItems) :
    FifoWf t' := by
  refine ⟨?_, ?_, ?_⟩
  · rw [hitems]
    exact h.older
  · rw [hfifo, hitems]
    exact h.head
  · rw [hfifo, hitems]
    exact h.last

theorem pop (h : FifoWf t) {fifo : Fifo} {last : Nat} {node : FifoItem}
    (hfifo : t.fifo = some fifo) (hlast : fifo.last = some last)
    (hread : t.fifoItems.read last = some node)
    (hfifo' : t'.fifo = some { fifo with last := node.prev })
    (hitems : t'.fifoItems = t.fifoItems.free last) : FifoWf t' := by
  have hbound := h.last fifo last hfifo hlast
  refine ⟨?_, ?_, ?_⟩
  · intro a other p hother hp
    rw [hitems, Heap.read_free] at hother
    split at hother
    · cases hother
    · exact h.older a other p hother hp
  · intro fifo₁ a h₁ ha
    rw [hfifo', Option.some.injEq] at h₁
    rw [hitems, Heap.fresh_free]
    exact h.head fifo a hfifo (by rw [← ha, ← h₁])
  · intro fifo₁ a h₁ ha
    rw [hfifo', Option.some.injEq] at h₁
    rw [hitems, Heap.fresh_free]
    have hdown := h.older last node a hread (by rw [← ha, ← h₁])
    omega

theorem picked (h : FifoWf t) {f : File} (hp : Linked.Picked t f t') : FifoWf t' := by
  cases hp with
  | atRandom hpolicy hfifo hitems => exact h.of_same hfifo hitems
  | inOrder hpolicy hfifo hlast hread hkey hfifo' hitems =>
    exact h.pop hfifo hlast hread hfifo' hitems

theorem add (h : FifoWf t) {key : CStr} (hx : fifoAddFile t key = .ok t') : FifoWf t' := by
  unfold fifoAddFile at hx
  split at hx
  · cases hx
  · rename_i fifo hfifo
    obtain rfl := Except.ok.inj hx
    refine ⟨?_, ?_, ?_⟩
    · intro a node p hread hp
      simp only [Heap.read_alloc] at hread
      -- the new node points to the old head, which was allocated before
      split at hread
      · rename_i ha
        obtain rfl := Option.some.inj hread
        rw [ha]
        exact h.head fifo p hfifo hp
      · exact h.older a node p hread hp
    · intro fifo₁ a h₁ ha
      obtain rfl := Option.some.inj h₁
      obtain rfl := Option.some.inj ha
      simp only [Heap.fresh_alloc]
      omega
    · intro fifo₁ a h₁ ha
      obtain rfl := Option.some.inj h₁
      simp only [Heap.fresh_alloc]
      cases hlast : fifo.last with
      | none =>
        simp only [hlast, Option.none_or, Option.some.injEq] at ha
        rw [← ha]
        exact Nat.lt_succ_self _
      | some b =>
        simp only [hlast, Option.some_or, Option.some.injEq] at ha
        rw [← ha]
        exact Nat.lt_succ_of_lt (h.last fifo b hfifo hlast)

theorem createStats (h : FifoWf t) {key : CStr} (hx : createStatsSection t key = .ok t') :
    FifoWf t' := by
  unfold createStatsSection at hx
  simp only at hx
  split at hx
  · refine FifoWf.add (h.of_same ?_ ?_) hx <;> rfl
  · obtain rfl := Except.ok.inj hx
    exact h.of_same rfl rfl

theorem evictions {P : Platform} {L L' : Contents} {evicted : List File}
    (hev : Evictions P t L evicted t' L') (h : FifoWf t) : FifoWf t' := by
  induction hev with
  | done hlimits => exact h
  | round hlimits hev rest ih => exact ih (h.picked hev.picked)

theorem effect {P : Platform} {L L' : Contents} {op : Op} {out : Outcome}
    (heffect : Effect P t L op out t' L') (h : FifoWf t) : FifoWf t' := by
  cases heffect with
  | refused hverdict => exact h
  | touched hop hlook hverdict => exact h.of_same rfl rfl
  | created hlook hlinked hsame hlive hroom hstats =>
    exact (h.of_same hsame.fifo hsame.fifoItems).createStats hstats
  | removed hlook hallowed hremoved =>
    exact h.of_same hremoved.same.fifo hremoved.same.fifoItems
  | wrote hop hlook hverdict hsize hev => exact evictions hev (h.of_same rfl rfl)

theorem create {buckets : Nat} {config : Config} (hx : htableCreate buckets config = .ok t) :
    FifoWf t := by
  unfold htableCreate at hx
  split at hx
  · obtain rfl := Except.ok.inj hx
    refine ⟨?_, ?_, ?_⟩
    · intro a node p hread
      simp at hread
    · intro fifo a hfifo ha
      simp only at hfifo
      split at hfifo
      · obtain rfl := Option.some.inj hfifo
        cases ha
      · cases hfifo
    · intro fifo a hfifo ha
      simp only at hfifo
      split at hfifo
      · obtain rfl := Option.some.inj hfifo
        cases ha
      · cases hfifo
  · cases hx

end FifoWf

end FileStorage.Server
