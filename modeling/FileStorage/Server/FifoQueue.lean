import FileStorage.Memory.Path
import FileStorage.Server.Sections

/-!
# FifoQueue — the chain of the FIFO policy as a queue

Nodes are added at `head` and each points back at the node before it, so from `last`, the oldest
node, no pointer leads to the next one to evict.  The first eviction of a key frees the node that
every other node of the chain leads to.
-/

namespace FileStorage.Server

open Memory

/-! ## 1. The chain and the queue it stands for -/

inductive FifoCall where
  | add (key : CStr)
  | evict
deriving DecidableEq

def fifoCreate (t : HTable) : HTable := { t with fifo := some ⟨none, none⟩, fifoItems := .empty }

/-- The calls one after the other, and what the `fifo_evict` among them returned. -/
def fifoRun (t : HTable) : List FifoCall → Exec (List (Option CStr) × HTable)
  | [] => .ok ([], t)
  | .add key :: calls => do
      let t ← fifoAddFile t key
      fifoRun t calls
  | .evict :: calls => do
      let (answer, t) ← fifoEvict t
      let (answers, t) ← fifoRun t calls
      return (answer :: answers, t)

/-- The loop of `fifo_free` from the node `head`; it returns the nodes that it frees. -/
def fifoFreeLoop (nodes : Heap FifoItem) : Nat → Ptr → Exec (List Addr × Heap FifoItem)
  | _, none => .ok ([], nodes)
  | 0, some _ => .error .diverge
  | fuel + 1, some head => do
      let node ← nodes.load head
      let (freed, nodes) ← fifoFreeLoop (nodes.free head) fuel node.prev
      return (head :: freed, nodes)

/-- Every turn of the loop frees a node, so `fuel` never runs out first. -/
def fifoFree (t : HTable) : Exec (List Addr × Heap FifoItem) :=
  match t.fifo with
  | none => .ok ([], t.fifoItems)
  | some fifo => fifoFreeLoop t.fifoItems t.fifoItems.live fifo.head

/-- The same calls on a queue of keys, the next key to leave first. -/
def queueRun (queue : List CStr) : List FifoCall → List (Option CStr) × List CStr
  | [] => ([], queue)
  | .add key :: calls => queueRun (queue ++ [key]) calls
  | .evict :: calls =>
      let (answers, queue') := queueRun queue.tail calls
      (queue.head? :: answers, queue')

/-- The calls return what they would return on a queue, and `fifo_free` then frees the nodes that
are left, which hold the keys that are left. -/
def ActsAsQueue (t : HTable) (calls : List FifoCall) : Prop :=
  ∃ t' freed nodes, fifoRun t calls = .ok ((queueRun [] calls).1, t') ∧
    fifoFree t' = .ok (freed, nodes) ∧
    (∀ a, a ∈ freed ↔ (t'.fifoItems.read a).isSome) ∧
    freed.reverse.map (t'.fifoItems.field FifoItem.key) = (queueRun [] calls).2.map some

/-- Nothing is evicted once a key has been added. -/
def NoEvictAfterAdd (calls : List FifoCall) : Prop :=
  calls.Pairwise fun first second => first = .evict ∨ second ≠ .evict

instance (calls : List FifoCall) : Decidable (NoEvictAfterAdd calls) :=
  inferInstanceAs (Decidable (List.Pairwise _ _))

/-- A table for the FIFO policy starts with a chain of its own. -/
theorem fifoCreate_of_create {buckets : Nat} {config : Config} {t : HTable}
    (hx : htableCreate buckets config = .ok t) (hpolicy : config.cacheEvictionPolicy = .fifo) :
    fifoCreate t = t := by
  unfold htableCreate at hx
  split at hx
  · obtain rfl := Except.ok.inj hx
    simp [fifoCreate, hpolicy]
  · cases hx

/-! ## 2. Freeing the chain -/

section

variable {nodes : Heap FifoItem} {p : Ptr} {as : List Addr}

theorem fifoFreeLoop_path (h : Path (nodes.field FifoItem.prev) p as none) {fuel : Nat}
    (hfuel : as.length ≤ fuel) : ∃ nodes', fifoFreeLoop nodes fuel p = .ok (as, nodes') := by
  induction as generalizing nodes p fuel with
  | nil =>
    have hp : p = none := h
    subst hp
    exact ⟨nodes, by cases fuel <;> rfl⟩
  | cons a as ih =>
    have hnot := (List.nodup_cons.mp h.nodup).1
    obtain ⟨rfl, n, hn, hrest⟩ := h
    obtain ⟨node, hread, rfl⟩ := Heap.field_eq_some hn
    cases fuel with
    | zero => simp at hfuel
    | succ fuel =>
      -- the nodes behind it are still there
      have hrest' : Path ((nodes.free a).field FifoItem.prev) node.prev as none :=
        hrest.congr fun b hb => Heap.field_congr
          (Heap.read_free_of_ne nodes fun (hab : a = b) => hnot (hab ▸ hb)) _
      obtain ⟨nodes', hloop⟩ := ih hrest' (Nat.le_of_succ_le_succ hfuel)
      exact ⟨nodes', by simp [fifoFreeLoop, Heap.load_of_read hread, hloop]⟩

/-- The loop comes to its end on a chain that ends in `NULL` only. -/
theorem path_of_fifoFreeLoop {fuel : Nat} {nodes' : Heap FifoItem}
    (hx : fifoFreeLoop nodes fuel p = .ok (as, nodes')) :
    Path (nodes.field FifoItem.prev) p as none := by
  induction fuel generalizing nodes p as with
  | zero =>
    cases p with
    | none =>
      obtain ⟨rfl, -⟩ : [] = as ∧ nodes = nodes' := by simpa [fifoFreeLoop] using hx
      exact rfl
    | some a => cases hx
  | succ fuel ih =>
    cases p with
    | none =>
      obtain ⟨rfl, -⟩ : [] = as ∧ nodes = nodes' := by simpa [fifoFreeLoop] using hx
      exact rfl
    | some a =>
      obtain ⟨node, hload, hx⟩ := Exec.bind_eq_ok.mp hx
      obtain ⟨⟨freed, nodes₁⟩, hloop, hx⟩ := Exec.bind_eq_ok.mp hx
      cases hx
      refine ⟨rfl, node.prev, Heap.field_eq_of_read (Heap.load_eq_ok.mp hload) _, ?_⟩
      exact (ih hloop).mono fun b n hb => Heap.field_of_free hb

end

/-! ## 3. Until the first key is evicted -/

/-- The chain leads from `head` over the nodes `as` to `NULL`; read from `last` on they hold `keys`,
and there are no other nodes. -/
structure FifoLinks (t : HTable) (as : List Addr) (keys : List CStr) : Prop where
  chain : ∃ fifo, t.fifo = some fifo ∧ fifo.last = as.getLast? ∧
    Path (t.fifoItems.field FifoItem.prev) fifo.head as none
  live : ∀ a, a ∈ as ↔ (t.fifoItems.read a).isSome
  keys : as.reverse.map (t.fifoItems.field FifoItem.key) = keys.map some

namespace FifoLinks

variable {t t' : HTable} {as : List Addr} {keys : List CStr}

theorem create (t : HTable) : FifoLinks (fifoCreate t) [] [] := by
  refine ⟨⟨⟨none, none⟩, rfl, rfl, rfl⟩, fun a => ?_, rfl⟩
  simp [fifoCreate]

theorem add (h : FifoLinks t as keys) (key : CStr) :
    ∃ t', fifoAddFile t key = .ok t' ∧
      FifoLinks t' (t.fifoItems.fresh :: as) (keys ++ [key]) := by
  obtain ⟨fifo, hfifo, hlast, hpath⟩ := h.chain
  have hold : ∀ a ∈ as, (t.fifoItems.alloc ⟨key, fifo.head⟩).read a = t.fifoItems.read a := by
    intro a ha
    obtain ⟨node, hnode⟩ := Option.isSome_iff_exists.mp ((h.live a).mp ha)
    rw [Heap.read_alloc, if_neg (Nat.ne_of_lt (Heap.lt_fresh_of_read hnode))]
  have hnew : (t.fifoItems.alloc ⟨key, fifo.head⟩).read t.fifoItems.fresh =
      some ⟨key, fifo.head⟩ := by
    rw [Heap.read_alloc, if_pos rfl]
  refine ⟨{ t with
      fifo := some ⟨some t.fifoItems.fresh, fifo.last.or (some t.fifoItems.fresh)⟩
      fifoItems := t.fifoItems.alloc ⟨key, fifo.head⟩ }, by simp [fifoAddFile, hfifo],
    ⟨⟨_, rfl, ?_, ⟨rfl, fifo.head, Heap.field_eq_of_read hnew _, ?_⟩⟩, fun a => ?_, ?_⟩⟩
  · -- the last node stays the last, unless the new one is the only one
    show fifo.last.or _ = _
    rw [hlast, List.getLast?_cons]
    cases as.getLast? <;> rfl
  · exact hpath.congr fun a ha => Heap.field_congr (hold a ha) _
  · rw [List.mem_cons, h.live]
    show _ ↔ ((t.fifoItems.alloc ⟨key, fifo.head⟩).read a).isSome
    rw [Heap.read_alloc]
    by_cases ha : a = t.fifoItems.fresh
    · simp [ha]
    · simp [ha]
  · rw [List.reverse_cons, List.map_append, List.map_append, ← h.keys]
    show _ ++ [(t.fifoItems.alloc ⟨key, fifo.head⟩).field FifoItem.key t.fifoItems.fresh] = _
    rw [Heap.field_eq_of_read hnew]
    congr 1
    exact List.map_congr_left fun a ha =>
      Heap.field_congr (hold a (List.mem_reverse.mp ha)) _

theorem evict_empty (h : FifoLinks t [] keys) : fifoEvict t = .ok (none, t) := by
  obtain ⟨fifo, hfifo, hlast, -⟩ := h.chain
  have hnone : fifo.last = none := hlast
  simp [fifoEvict, hfifo, hnone]

/-- Without evictions the chain only grows. -/
theorem run_adds (h : FifoLinks t as keys) {calls : List FifoCall} (hadds : .evict ∉ calls) :
    ∃ t' as', fifoRun t calls = .ok ((queueRun keys calls).1, t') ∧
      FifoLinks t' as' (queueRun keys calls).2 := by
  induction calls generalizing t as keys with
  | nil => exact ⟨t, as, rfl, h⟩
  | cons call calls ih =>
    have hrest : FifoCall.evict ∉ calls := fun hmem => hadds (List.mem_cons_of_mem _ hmem)
    cases call with
    | evict => exact absurd List.mem_cons_self hadds
    | add key =>
      obtain ⟨t₁, hadd, h₁⟩ := h.add key
      obtain ⟨t', as', hrun, h'⟩ := ih h₁ hrest
      exact ⟨t', as', by rw [fifoRun, hadd, Exec.ok_bind]; exact hrun, h'⟩

theorem run_of_noEvictAfterAdd (h : FifoLinks t [] []) {calls : List FifoCall}
    (hcalls : NoEvictAfterAdd calls) :
    ∃ t' as', fifoRun t calls = .ok ((queueRun [] calls).1, t') ∧
      FifoLinks t' as' (queueRun [] calls).2 := by
  induction calls with
  | nil => exact ⟨t, [], rfl, h⟩
  | cons call calls ih =>
    obtain ⟨hfirst, hrest⟩ := List.pairwise_cons.mp hcalls
    cases call with
    | evict =>
      obtain ⟨t', as', hrun, h'⟩ := ih hrest
      refine ⟨t', as', ?_, h'⟩
      rw [fifoRun, h.evict_empty, Exec.ok_bind]
      simp only [hrun, Exec.ok_bind]
      rfl
    | add key =>
      -- from here on nothing is evicted
      refine h.run_adds fun hmem => ?_
      rcases List.mem_cons.mp hmem with heq | hmem
      · cases heq
      · rcases hfirst _ hmem with heq | hne
        · cases heq
        · exact hne rfl

theorem free (h : FifoLinks t as keys) : ∃ nodes, fifoFree t = .ok (as, nodes) := by
  obtain ⟨fifo, hfifo, -, hpath⟩ := h.chain
  have hlive := t.fifoItems.length_le_live as hpath.nodup fun a ha => (h.live a).mp ha
  obtain ⟨nodes, hloop⟩ := fifoFreeLoop_path hpath hlive
  exact ⟨nodes, by rw [fifoFree, hfifo]; exact hloop⟩

end FifoLinks

/-! ## 4. From the first evicted key on -/

/-- The chain does not lead from `head` to `NULL`. -/
def FifoSevered (t : HTable) : Prop :=
  ∃ fifo, t.fifo = some fifo ∧ ∀ as, ¬Path (t.fifoItems.field FifoItem.prev) fifo.head as none

namespace FifoSevered

variable {t t' : HTable}

theorem not_free (h : FifoSevered t) {freed : List Addr} {nodes : Heap FifoItem} :
    fifoFree t ≠ .ok (freed, nodes) := by
  intro hx
  obtain ⟨fifo, hfifo, hnone⟩ := h
  rw [fifoFree, hfifo] at hx
  exact hnone freed (path_of_fifoFreeLoop hx)

/-- The new node points to the old head. -/
theorem add (h : FifoSevered t) {key : CStr} (hx : fifoAddFile t key = .ok t') : FifoSevered t' := by
  obtain ⟨fifo, hfifo, hnone⟩ := h
  rw [fifoAddFile, hfifo] at hx
  obtain rfl := Except.ok.inj hx
  refine ⟨_, rfl, fun as hpath => ?_⟩
  have hnodup := hpath.nodup
  cases as with
  | nil => cases hpath
  | cons a as =>
    obtain ⟨ha, n, hn, hrest⟩ := hpath
    obtain rfl := Option.some.inj ha
    have hnot := (List.nodup_cons.mp hnodup).1
    obtain ⟨node, hread, rfl⟩ := Heap.field_eq_some hn
    rw [Heap.read_alloc, if_pos rfl] at hread
    obtain rfl := Option.some.inj hread
    refine hnone as (hrest.congr fun b hb => ?_)
    refine (Heap.field_congr ?_ _).symm
    rw [Heap.read_alloc, if_neg fun (heq : b = t.fifoItems.fresh) => hnot (heq ▸ hb)]

theorem evict (h : FifoSevered t) {answer : Option CStr} (hx : fifoEvict t = .ok (answer, t')) :
    FifoSevered t' := by
  obtain ⟨fifo, hfifo, hnone⟩ := h
  rw [fifoEvict, hfifo] at hx
  simp only at hx
  cases hlast : fifo.last with
  | none =>
    rw [hlast] at hx
    cases hx
    exact ⟨fifo, hfifo, hnone⟩
  | some last =>
    rw [hlast] at hx
    obtain ⟨node, -, hx⟩ := Exec.bind_eq_ok.mp hx
    cases hx
    exact ⟨_, rfl, fun as hpath => hnone as (hpath.mono fun b n hb => Heap.field_of_free hb)⟩

theorem run (h : FifoSevered t) {calls : List FifoCall} {answers : List (Option CStr)}
    (hx : fifoRun t calls = .ok (answers, t')) : FifoSevered t' := by
  induction calls generalizing t answers with
  | nil =>
    cases hx
    exact h
  | cons call calls ih =>
    cases call with
    | add key =>
      obtain ⟨t₁, hadd, hx⟩ := Exec.bind_eq_ok.mp hx
      exact ih (h.add hadd) hx
    | evict =>
      obtain ⟨⟨answer, t₁⟩, hevict, hx⟩ := Exec.bind_eq_ok.mp hx
      obtain ⟨⟨answers₁, t₂⟩, hrun, hx⟩ := Exec.bind_eq_ok.mp hx
      cases hx
      exact ih (h.evict hevict) hrun

end FifoSevered

namespace FifoLinks

variable {t t' : HTable} {a : Addr} {as : List Addr} {keys : List CStr}

/-- The node that is freed is the one that all others lead to. -/
theorem evict_severs (h : FifoLinks t (a :: as) keys) {answer : Option CStr}
    (hx : fifoEvict t = .ok (answer, t')) : FifoSevered t' := by
  obtain ⟨fifo, hfifo, hlast, hpath⟩ := h.chain
  obtain ⟨b, hb⟩ : ∃ b, (a :: as).getLast? = some b := ⟨_, List.getLast?_cons⟩
  rw [hb] at hlast
  rw [fifoEvict, hfifo] at hx
  simp only [hlast] at hx
  obtain ⟨node, -, hx⟩ := Exec.bind_eq_ok.mp hx
  cases hx
  refine ⟨_, rfl, fun bs hbs => ?_⟩
  -- a chain to `NULL` would be the old one, and the last node of that one is gone
  have hsame := (hbs.mono fun c n hc => Heap.field_of_free hc).unique hpath
  obtain ⟨xs, ys, hsplit⟩ := List.append_of_mem (List.mem_of_getLast? hb)
  rw [hsame, hsplit] at hbs
  obtain ⟨m, -, hm⟩ := Path.append_iff.mp hbs
  obtain ⟨-, n, hn, -⟩ := hm
  simp [Heap.field, Heap.read_free] at hn

theorem run_severs (h : FifoLinks t (a :: as) keys) {calls : List FifoCall}
    (hevict : .evict ∈ calls) {answers : List (Option CStr)}
    (hx : fifoRun t calls = .ok (answers, t')) : FifoSevered t' := by
  induction calls generalizing t a as keys answers with
  | nil => cases hevict
  | cons call calls ih =>
    cases call with
    | add key =>
      obtain ⟨t₁, hadd, h₁⟩ := h.add key
      rw [fifoRun, hadd, Exec.ok_bind] at hx
      exact ih h₁ ((List.mem_cons.mp hevict).resolve_left nofun) hx
    | evict =>
      obtain ⟨⟨answer, t₁⟩, hfirst, hx⟩ := Exec.bind_eq_ok.mp hx
      obtain ⟨⟨answers₁, t₂⟩, hrun, hx⟩ := Exec.bind_eq_ok.mp hx
      cases hx
      exact (h.evict_severs hfirst).run hrun

theorem noEvictAfterAdd_of_run (h : FifoLinks t [] []) {calls : List FifoCall}
    {answers : List (Option CStr)} (hx : fifoRun t calls = .ok (answers, t'))
    (hfree : ¬FifoSevered t') : NoEvictAfterAdd calls := by
  induction calls generalizing answers with
  | nil => exact List.Pairwise.nil
  | cons call calls ih =>
    cases call with
    | evict =>
      rw [fifoRun, h.evict_empty, Exec.ok_bind] at hx
      obtain ⟨⟨answers₁, t₁⟩, hrun, hx⟩ := Exec.bind_eq_ok.mp hx
      cases hx
      exact List.pairwise_cons.mpr ⟨fun _ _ => Or.inl rfl, ih hrun⟩
    | add key =>
      obtain ⟨t₁, hadd, h₁⟩ := h.add key
      rw [fifoRun, hadd, Exec.ok_bind] at hx
      have hadds : FifoCall.evict ∉ calls := fun hmem => hfree (h₁.run_severs hmem hx)
      refine List.pairwise_cons.mpr ⟨fun call hmem => Or.inr fun heq => hadds (heq ▸ hmem), ?_⟩
      exact List.pairwise_of_forall_mem_list fun _ _ call hmem => Or.inr fun heq =>
        hadds (heq ▸ hmem)

end FifoLinks

/-! ## 5. Any sequence of calls -/

/-- From `fifo_create` the calls act on a queue exactly when none of them evicts after a key was
added. -/
theorem fifo_acts_as_queue_iff (t : HTable) (calls : List FifoCall) :
    ActsAsQueue (fifoCreate t) calls ↔ NoEvictAfterAdd calls := by
  have hlinks := FifoLinks.create t
  constructor
  · rintro ⟨t', freed, nodes, hrun, hfree, -, -⟩
    exact hlinks.noEvictAfterAdd_of_run hrun fun hsevered => hsevered.not_free hfree
  · intro hcalls
    obtain ⟨t', as, hrun, h'⟩ := hlinks.run_of_noEvictAfterAdd hcalls
    obtain ⟨nodes, hfree⟩ := h'.free
    exact ⟨t', as, nodes, hrun, hfree, h'.live, h'.keys⟩

/-- Two keys are added, and only the first one comes back. -/
theorem fifo_loses_second_key :
    ¬∀ (t : HTable) (calls : List FifoCall), ActsAsQueue (fifoCreate t) calls := by
  intro hclaim
  have htest : (htableCreate 1 ⟨1, 10, .fifo⟩).any (fun t =>
      (fifoRun (fifoCreate t) [.add (bufToStr [97]), .add (bufToStr [98]), .evict, .evict]).any
        fun r => decide (r.1 = [some (bufToStr [97]), none])) = true := by decide +kernel
  obtain ⟨t, -, htest⟩ := Exec.any_eq_true.mp htest
  obtain ⟨r, hcalls, htest⟩ := Exec.any_eq_true.mp htest
  obtain ⟨t', freed, nodes, hrun, -⟩ := hclaim t _
  rw [hcalls] at hrun
  have hanswers : r.1 = [some (bufToStr [97]), some (bufToStr [98])] :=
    congrArg Prod.fst (Except.ok.inj hrun)
  rw [of_decide_eq_true htest] at hanswers
  exact absurd hanswers (by decide)

end FileStorage.Server
