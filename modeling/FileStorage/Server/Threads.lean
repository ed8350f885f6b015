import FileStorage.Server.FifoEviction

/-!
# Threads — the table under several worker threads

Each operation runs as its critical sections, and between two of them any other thread may run one
of its own.  `stats_guard` is held from one section to the next only by a thread in its eviction
loop.
-/

namespace FileStorage.Server

open Memory

/-! ## 1. Phases -/

/-- Where a worker thread stands between two critical sections. -/
inductive Phase where
  | idle
  | absent (key : CStr) (fd : Int) (withLock : Bool)               -- create found no such file
  | filled (key : CStr) (fd : Int) (withLock : Bool) (head : Ptr)  -- and read the bucket's head
  | linked (key : CStr)                                            -- the item is not counted yet
  | removed (sizeInBytes : Nat)                                    -- the item is still counted
  | replaced (sizeInBytes oldSizeInBytes : Nat)
  | appended (sizeInBytes : Nat)
  | written                                                        -- before the eviction loop
  | evicting (evicted : List File)                                 -- in the eviction loop
deriving DecidableEq

namespace Phase

/-- The bucket has been changed and the counters have not. -/
def halfway : Phase → Bool
  | .linked _ | .removed _ | .replaced _ _ | .appended _ => true
  | _ => false

def holdsGuard : Phase → Bool
  | .evicting _ => true
  | _ => false

/-- By how much the buckets are ahead of the counters. -/
def itemsAhead : Phase → Int
  | .linked _ => 1
  | .removed _ => -1
  | _ => 0

def bytesAhead : Phase → Int
  | .removed sizeInBytes => -sizeInBytes
  | .replaced sizeInBytes oldSizeInBytes => sizeInBytes - oldSizeInBytes
  | .appended sizeInBytes => sizeInBytes
  | _ => 0

/-- The size that the statistics section takes off is that of a stored file. -/
def Sized : Phase → Prop
  | .removed sizeInBytes => sizeInBytes < wordSize
  | .replaced _ oldSizeInBytes => oldSizeInBytes < wordSize
  | _ => True

/-- The sum over all threads. -/
def total (f : Phase → Int) : List Phase → Int
  | [] => 0
  | p :: ps => f p + total f ps

theorem total_set {f : Phase → Int} {ps : List Phase} {i : Nat} {p : Phase}
    (hp : ps[i]? = some p) (q : Phase) : total f (ps.set i q) = total f ps - f p + f q := by
  induction ps generalizing i with
  | nil => cases hp
  | cons r ps ih =>
    cases i with
    | zero =>
      obtain rfl := Option.some.inj hp
      simp only [List.set_cons_zero, total]
      omega
    | succ i =>
      have hrest := ih hp
      simp only [List.set_cons_succ, total]
      omega

theorem total_eq_zero {f : Phase → Int} {ps : List Phase} (h : ∀ p ∈ ps, f p = 0) :
    total f ps = 0 := by
  induction ps with
  | nil => rfl
  | cons p ps ih =>
    rw [total, h p List.mem_cons_self, ih fun q hq => h q (List.mem_cons_of_mem _ hq)]
    rfl

theorem ahead_of_not_halfway {p : Phase} (h : p.halfway = false) :
    p.itemsAhead = 0 ∧ p.bytesAhead = 0 := by
  cases p with
  | linked | removed | replaced | appended => cases h
  | idle | absent | filled | written | evicting => exact ⟨rfl, rfl⟩

end Phase

/-! ## 2. Sections -/

/-- The first section of an operation: to the end of the bucket section, for `create` to the end
of the search.  The operations that leave items and bytes alone are left out. -/
def Op.start (P : Platform) (t : HTable) : Op → Exec (Option (Phase × HTable))
  | .create key fd withLock => do
      match ← htableFetchItem P t key with
      | some _ => return some (.idle, t)
      | none => return some (.absent key fd withLock, t)
  | .remove key fd => do
      match ← removeSection P t key fd with
      | (.inl _, t) => return some (.idle, t)
      | (.inr sizeInBytes, t) => return some (.removed sizeInBytes, t)
  | .replace key contents => do
      match ← replaceSection P t key contents with
      | none => return some (.idle, t)
      | some (t, oldSizeInBytes) => return some (.replaced contents.length oldSizeInBytes, t)
  | .append key contents => do
      match ← appendSection P t key contents with
      | none => return some (.idle, t)
      | some t => return some (.appended contents.length, t)
  | .open _ _ _ | .close _ _ | .lock _ _ | .unlock _ _ => .ok none

/-- The first section of the operation alters this file, when it finds it.  A refused `remove` leaves
it alone. -/
def Op.alters (f : File) : Op → Prop
  | .remove _ fd => ¬(f.lockedAgainst fd ∧ fd ≠ -1)
  | .replace _ _ | .append _ _ => True
  | .create _ _ _ | .open _ _ _ | .close _ _ | .lock _ _ | .unlock _ _ => False

/-- The statistics section. -/
def Phase.count (t : HTable) : Phase → Exec (Option (Phase × HTable))
  | .linked key => do
      let t ← createStatsSection t key
      return some (.idle, t)
  | .removed sizeInBytes => .ok (some (.idle, removeStatsSection t sizeInBytes))
  | .replaced sizeInBytes oldSizeInBytes =>
      .ok (some (.written, replaceStatsSection t sizeInBytes oldSizeInBytes))
  | .appended sizeInBytes => .ok (some (.written, appendStatsSection t sizeInBytes))
  | _ => .ok none

/-- What the first section of an operation does to a table with the contents `L`. -/
inductive Op.Started (P : Platform) (t : HTable) (L : Contents) : Op → Phase → HTable → Prop
  | returned {op : Op} (hkept : ∀ key fd, op = .remove key fd →
      (removeSection P t key fd).any (fun r => r.1.isRight) = false) : Started P t L op .idle t
  | absent {key : CStr} {fd : Int} {withLock : Bool} :
      Started P t L (.create key fd withLock) (.absent key fd withLock) t
  | removed {key : CStr} {fd : Int} {a : Addr} {f : File} {t' : HTable}
      (hlook : lookup L key = some (a, f)) (hremoved : Linked.Removed P t L a t')
      (hexec : removeSection P t key fd = .ok (.inr f.lengthInBytes, t')) :
      Started P t L (.remove key fd) (.removed f.lengthInBytes) t'
  | replaced {key : CStr} {contents : List UInt8} {a : Addr} {f : File}
      (hlook : lookup L key = some (a, f)) (hsized : (f.withBytes contents).Sized) :
      Started P t L (.replace key contents) (.replaced contents.length f.lengthInBytes)
        (t.setFile a (f.withBytes contents))
  | appended {key : CStr} {contents : List UInt8} {a : Addr} {f : File}
      (hlook : lookup L key = some (a, f)) (hsized : (f.withBytes (f.bytes ++ contents)).Sized) :
      Started P t L (.append key contents) (.appended contents.length)
        (t.setFile a (f.withBytes (f.bytes ++ contents)))

theorem Linked.started {P : Platform} {t t' : HTable} {L : Contents} (h : Linked P t L)
    (hsized : ∀ e ∈ L.flatten, e.2.Sized) {op : Op} {q : Phase}
    (hx : op.start P t = .ok (some (q, t'))) : op.Started P t L q t' := by
  cases op with
  | create key fd withLock =>
    obtain ⟨node, -, hx⟩ := Exec.bind_eq_ok.mp hx
    cases node with
    | some node =>
      cases hx
      exact .returned fun _ _ => nofun
    | none =>
      cases hx
      exact .absent
  | remove key fd =>
    rcases h.removeSection_eq key fd with
      ⟨-, hexec⟩ | ⟨a, f, hlook, ⟨-, -, hexec⟩ | ⟨-, t₁, hremoved, hexec⟩⟩
    · simp only [Op.start, hexec, Exec.ok_bind] at hx
      cases hx
      refine .returned fun key' fd' hop => ?_
      cases hop
      rw [hexec]
      rfl
    · -- locked by another descriptor
      simp only [Op.start, hexec, Exec.ok_bind] at hx
      cases hx
      refine .returned fun key' fd' hop => ?_
      cases hop
      rw [hexec]
      rfl
    · simp only [Op.start, hexec, Exec.ok_bind] at hx
      cases hx
      exact .removed hlook hremoved hexec
  | replace key contents =>
    obtain ⟨r, hsection, hx⟩ := Exec.bind_eq_ok.mp hx
    rcases h.replaceSection_ok hsection with ⟨-, rfl⟩ | ⟨a, f, hlook, hsize, rfl⟩
    · cases hx
      exact .returned fun _ _ => nofun
    · cases hx
      exact .replaced hlook ⟨rfl, hsize⟩
  | append key contents =>
    obtain ⟨r, hsection, hx⟩ := Exec.bind_eq_ok.mp hx
    rcases h.appendSection_ok hsized hsection with ⟨-, rfl⟩ | ⟨a, f, hlook, hsize, rfl⟩
    · cases hx
      exact .returned fun _ _ => nofun
    · cases hx
      refine .appended hlook ⟨rfl, ?_⟩
      show (f.bytes ++ contents).length < wordSize
      rw [List.length_append, (hsized _ (mem_of_lookup hlook)).1]
      exact hsize
  | «open» | close | lock | unlock => cases hx

/-- A file that was removed is one that the operation alters. -/
theorem Linked.alters_of_removed {P : Platform} {t t' : HTable} {L : Contents} (h : Linked P t L)
    {key : CStr} {fd : Int} {a : Addr} {f : File} {size : Nat} (hlook : lookup L key = some (a, f))
    (hx : removeSection P t key fd = .ok (.inr size, t')) : (Op.remove key fd).alters f := by
  rcases h.removeSection_eq key fd with ⟨hnone, -⟩ | ⟨b, g, hlook', hcase⟩
  · rw [hlook] at hnone
    cases hnone
  · rw [hlook] at hlook'
    cases hlook'
    rcases hcase with ⟨-, -, hexec⟩ | ⟨hallowed, -⟩
    · rw [hexec] at hx
      cases hx
    · exact hallowed

inductive Action where
  | start (op : Op)
  | fill             -- `item->next = bucket->head`, outside of any mutex
  | link
  | count
  | enter            -- lock `stats_guard` for the eviction loop
  | evict (r : Nat)  -- an access of the loop to a bucket, with a draw of `rand()`
  | leave
deriving DecidableEq

structure Threads where
  table : HTable
  phases : List Phase

namespace Threads

def guardHeld (s : Threads) : Bool := s.phases.any Phase.holdsGuard

/-- Some thread is in its eviction loop and has to go on. -/
def atWork (s : Threads) : Prop := s.guardHeld = true ∧ s.table.exceedsLimits

instance (s : Threads) : Decidable s.atWork := inferInstanceAs (Decidable (_ ∧ _))

def put (s : Threads) (i : Nat) (phase : Phase) (table : HTable) : Threads where
  table
  phases := s.phases.set i phase

/-- Thread `i` acts.  A draw that hits an empty bucket leaves the loop where it was. -/
def act (P : Platform) (s : Threads) (i : Nat) (phase : Phase) : Action → Exec (Option Threads)
  | .start op =>
      match phase with
      | .idle => do
          let r ← op.start P s.table
          return r.map fun (phase, t) => s.put i phase t
      | _ => .ok none
  | .fill =>
      match phase with
      | .absent key fd withLock => do
          let bucket ← s.table.bucket (htableBucketPtr P s.table key)
          return some (s.put i (.filled key fd withLock bucket.head) s.table)
      | _ => .ok none
  | .link =>
      match phase with
      | .filled key fd withLock head => do
          let t ← linkSection s.table (htableBucketPtr P s.table key) (newItem key fd withLock head)
          return some (s.put i (.linked key) t)
      | _ => .ok none
  | .count =>
      -- the section waits for `stats_guard`
      if s.guardHeld then
        .ok none
      else do
        let r ← phase.count s.table
        return r.map fun (phase, t) => s.put i phase t
  | .enter =>
      match phase with
      | .written => .ok (if s.guardHeld then none else some (s.put i (.evicting []) s.table))
      | _ => .ok none
  | .evict r =>
      match phase with
      | .evicting evicted =>
          if s.table.exceedsLimits then
            match evictRound P s.table evicted [r] with
            | .ok (t, evicted, _) => .ok (some (s.put i (.evicting evicted) t))
            -- an empty bucket; the loop draws again
            | .error .diverge => .ok (some s)
            | .error e => .error e
          else
            .ok none
      | _ => .ok none
  | .leave =>
      match phase with
      | .evicting _ =>
          .ok (if s.table.exceedsLimits then none else some (s.put i .idle s.table))
      | _ => .ok none

/-- `none` when the action is not the thread's next, or ends the server. -/
def next (P : Platform) (s : Threads) (e : Nat × Action) : Option Threads := do
  let phase ← s.phases[e.1]?
  let s' ← (s.act P e.1 phase e.2).toOption
  s'

/-- Thread `i` acts: one case for each action, two for a round of the eviction loop. -/
inductive Step (P : Platform) (s : Threads) (i : Nat) : Action → Threads → Prop
  | start {op : Op} {q : Phase} {t : HTable} (hphase : s.phases[i]? = some .idle)
      (hx : op.start P s.table = .ok (some (q, t))) : Step P s i (.start op) (s.put i q t)
  | fill {key : CStr} {fd : Int} {withLock : Bool} {bucket : HTableBucket}
      (hphase : s.phases[i]? = some (.absent key fd withLock))
      (hx : s.table.bucket (htableBucketPtr P s.table key) = .ok bucket) :
      Step P s i .fill (s.put i (.filled key fd withLock bucket.head) s.table)
  | link {key : CStr} {fd : Int} {withLock : Bool} {head : Ptr} {t : HTable}
      (hphase : s.phases[i]? = some (.filled key fd withLock head))
      (hx : linkSection s.table (htableBucketPtr P s.table key) (newItem key fd withLock head) =
        .ok t) : Step P s i .link (s.put i (.linked key) t)
  | count {p q : Phase} {t : HTable} (hphase : s.phases[i]? = some p)
      (hfree : s.guardHeld = false) (hx : p.count s.table = .ok (some (q, t))) :
      Step P s i .count (s.put i q t)
  | enter (hphase : s.phases[i]? = some .written) (hfree : s.guardHeld = false) :
      Step P s i .enter (s.put i (.evicting []) s.table)
  | evict {evicted evicted' : List File} {r : Nat} {t : HTable} {rands : List Nat}
      (hphase : s.phases[i]? = some (.evicting evicted)) (hexceeds : s.table.exceedsLimits)
      (hx : evictRound P s.table evicted [r] = .ok (t, evicted', rands)) :
      Step P s i (.evict r) (s.put i (.evicting evicted') t)
  | miss {evicted : List File} {r : Nat} (hphase : s.phases[i]? = some (.evicting evicted))
      (hexceeds : s.table.exceedsLimits)
      (hx : evictRound P s.table evicted [r] = .error .diverge) : Step P s i (.evict r) s
  | leave {evicted : List File} (hphase : s.phases[i]? = some (.evicting evicted))
      (hlimits : ¬s.table.exceedsLimits) : Step P s i .leave (s.put i .idle s.table)

theorem step_of_next {P : Platform} {s s' : Threads} {i : Nat} {action : Action}
    (hx : s.next P (i, action) = some s') : s.Step P i action s' := by
  obtain ⟨phase, hphase, hx⟩ := Option.bind_eq_some_iff.mp hx
  obtain ⟨r, hact, rfl⟩ := Option.bind_eq_some_iff.mp hx
  replace hact := Exec.toOption_eq_some.mp hact
  simp only at hphase hact
  cases action with
  | start op =>
    simp only [act] at hact
    split at hact
    · obtain ⟨r, hstart, hact⟩ := Exec.bind_eq_ok.mp hact
      cases r with
      | none => cases hact
      | some r =>
        cases hact
        exact .start hphase hstart
    · cases hact
  | fill =>
    simp only [act] at hact
    split at hact
    · obtain ⟨bucket, hbucket, hact⟩ := Exec.bind_eq_ok.mp hact
      cases hact
      exact .fill hphase hbucket
    · cases hact
  | link =>
    simp only [act] at hact
    split at hact
    · obtain ⟨t, hlink, hact⟩ := Exec.bind_eq_ok.mp hact
      cases hact
      exact .link hphase hlink
    · cases hact
  | count =>
    simp only [act] at hact
    split at hact
    · cases hact
    · rename_i hfree
      obtain ⟨r, hcount, hact⟩ := Exec.bind_eq_ok.mp hact
      cases r with
      | none => cases hact
      | some r =>
        cases hact
        exact .count hphase (by simpa using hfree) hcount
  | enter =>
    simp only [act] at hact
    split at hact
    · split at hact
      · cases hact
      · rename_i hfree
        cases hact
        exact .enter hphase (by simpa using hfree)
    · cases hact
  | evict r =>
    simp only [act] at hact
    split at hact
    · split at hact
      · rename_i hexceeds
        split at hact
        · rename_i hround
          cases hact
          exact .evict hphase hexceeds hround
        · -- the draw hit an empty bucket
          rename_i hround
          cases hact
          exact .miss hphase hexceeds hround
        · cases hact
      · cases hact
    · cases hact
  | leave =>
    simp only [act] at hact
    split at hact
    · split at hact
      · cases hact
      · rename_i hlimits
        cases hact
        exact .leave hphase hlimits
    · cases hact

def start (table : HTable) (workers : Nat) : Threads where
  table
  phases := List.replicate workers .idle

/-- From `htable_create`, with `workers` idle threads, the actions of `tr` lead to `s`. -/
def Runs (P : Platform) (buckets : Nat) (config : Config) (workers : Nat)
    (tr : List (Threads × (Nat × Action))) (s : Threads) : Prop :=
  ∃ t₀, htableCreate buckets config = .ok t₀ ∧
    Run (fun s e s' => s.next P e = some s') (start t₀ workers) tr s

theorem runs_of_actions (P : Platform) (buckets : Nat) (config : Config) (workers : Nat)
    (actions : List (Nat × Action)) (test : List (Threads × (Nat × Action)) → Threads → Bool)
    (hx : ((htableCreate buckets config).toOption.bind fun t =>
      replay (next P) (start t workers) actions).any (fun r => test r.1 r.2) = true) :
    ∃ tr s, Runs P buckets config workers tr s ∧ test tr s = true := by
  obtain ⟨x, hreplay, htest⟩ := (Option.any_eq_true _ _).mp hx
  obtain ⟨t₀, hcreate, hreplay⟩ := Option.bind_eq_some_iff.mp hreplay
  exact ⟨x.1, x.2, ⟨t₀, Exec.toOption_eq_some.mp hcreate,
    Run.of_replay (fun _ _ _ h => h) hreplay⟩, htest⟩

/-- What an iteration of the eviction loop relies on: some draw finds an item, and every draw that
does finds a linked one whose size is still counted. -/
structure EvictionFinds (P : Platform) (t : HTable) : Prop where
  finds : ∃ r a t' rest, htableEvictSingleFile P t [r] = .ok (some a, t', rest)
  sound : ∀ r, htableEvictSingleFile P t [r] = .error .diverge ∨
    ∃ a item t' rest, htableEvictSingleFile P t [r] = .ok (some a, t', rest) ∧
      a ∈ t.linkedItems ∧ t.items.read a = some item ∧
      item.file.lengthInBytes ≤ t.stats.totalSpaceInBytes

/-- No thread stands halfway, the sizes add up to less than 2^64, and under FIFO the chain names
the files to go. -/
structure Settled (P : Platform) (s : Threads) : Prop where
  whole : ∀ p ∈ s.phases, p.halfway = false
  bytes : s.table.linkedBytes < wordSize
  names : s.table.policy = .fifo → ∃ fs, ChainNames P s.table fs

/-- The condition on an action.  No file is altered and no item linked while an eviction loop is at
work, a loop is entered with work to do only when all is settled, and an item is linked in front of
the head that was read for it. -/
def Apart (P : Platform) (s : Threads) (e : Nat × Action) : Prop :=
  match e.2 with
  | .start op => s.atWork →
      ∀ f, htableFetchFile P s.table op.key = .ok (some f) → ¬op.alters f
  | .link => ¬s.atWork ∧ ∀ key fd withLock head bucket,
      s.phases[e.1]? = some (.filled key fd withLock head) →
        s.table.bucket (htableBucketPtr P s.table key) = .ok bucket → bucket.head = head
  | .enter => s.table.exceedsLimits → s.Settled P
  | .fill | .count | .evict _ | .leave => True

end Threads

end FileStorage.Server
