import FileStorage.Server.TablePrograms

/-!
# LockOrder — no deadlock on the table

`stats_guard` comes before every bucket guard, and no thread takes a second bucket guard: on every
path of every operation, whatever the other threads do to the table in between.
-/

namespace FileStorage.Server

open Memory Program

/-- `stats_guard` below the bucket guards. -/
def Guard.rank : Guard → Nat
  | .stats => 0
  | .bucket _ => 1

/-- The table has `n` buckets, as it had when it was created. -/
def SharedTable.HasBuckets (n : Nat) (s : SharedTable) : Prop := s.table.buckets.length = n

/-! ## 1. No section changes the number of buckets -/

/-- A section leaves the table with the buckets that it had. -/
def SameBuckets (f : HTable → Exec HTable) : Prop :=
  ∀ t t', f t = .ok t' → t'.buckets.length = t.buckets.length

theorem sameBuckets_ok {f : HTable → HTable} (h : ∀ t, (f t).buckets = t.buckets) :
    SameBuckets fun t => .ok (f t) := by
  intro t t' hx
  cases hx
  rw [h t]

theorem sameBuckets_link (i : Nat) (item : HTableItem) : SameBuckets (linkSection · i item) := by
  intro t t' hx
  simp only [linkSection] at hx
  split at hx
  · cases hx
  · obtain ⟨bucket, -, hx⟩ := Exec.bind_eq_ok.mp hx
    split at hx
    · obtain ⟨t₁, hlink, hx⟩ := Exec.bind_eq_ok.mp hx
      cases hx
      rw [Guarded.setBucket_length, Guarded.storeItem_length hlink]
    · cases hx
      exact Guarded.setBucket_length

theorem sameBuckets_createStats (key : CStr) : SameBuckets (createStatsSection · key) := by
  intro t t' hx
  unfold createStatsSection at hx
  simp only at hx
  split at hx
  · unfold fifoAddFile at hx
    split at hx
    · cases hx
    · cases hx
      rfl
  · cases hx
    rfl

theorem sameBuckets_unlink (i : Nat) (a : Addr) : SameBuckets (unlinkItem · i a) :=
  fun _ _ hx => Guarded.unlinkItem_length hx

theorem fifoEvict_length {t t' : HTable} {key : Option CStr} (hx : fifoEvict t = .ok (key, t')) :
    t'.buckets.length = t.buckets.length := by
  unfold fifoEvict at hx
  split at hx
  · cases hx
  · split at hx
    · cases hx
      rfl
    · obtain ⟨node, -, hx⟩ := Exec.bind_eq_ok.mp hx
      cases hx
      rfl

theorem segmentedTurn_length {t t' : HTable} {r : Nat} {a : Addr}
    (hx : segmentedTurn t r = .ok (some (a, t'))) : t'.buckets.length = t.buckets.length := by
  obtain ⟨bucket, -, hx⟩ := Exec.bind_eq_ok.mp hx
  simp only at hx
  split at hx
  · split at hx <;> cases hx
  · obtain ⟨item, -, hx⟩ := Exec.bind_eq_ok.mp hx
    split at hx
    · obtain ⟨t₁, hfirst, hx⟩ := Exec.bind_eq_ok.mp hx
      obtain ⟨t₂, hsecond, hx⟩ := Exec.bind_eq_ok.mp hx
      cases hx
      rw [Guarded.storeItem_length hsecond, Guarded.storeItem_length hfirst,
        Guarded.setBucket_length]
    · simp only [Exec.pure_eq_ok, Exec.ok_bind] at hx
      obtain ⟨t₁, hstore, hx⟩ := Exec.bind_eq_ok.mp hx
      cases hx
      rw [Guarded.storeItem_length hstore, Guarded.setBucket_length]

namespace TableProgram

/-! ## 2. The steps keep the order -/

/-- On a table with `n` buckets the code keeps to the order of the guards. -/
abbrev InOrder (n : Nat) {α : Type} (held : List Guard) (x : TableProgram α)
    (post : α → List Guard) : Prop :=
  x.Keeps (SharedTable.HasBuckets n) Guard.rank held post

variable {α β : Type} {P : Platform} {n : Nat} {held : List Guard} {key : CStr}
  {post : α → List Guard}

theorem readTable_inOrder {f : HTable → Exec β} {k : β → TableProgram α}
    (hk : ∀ b, InOrder n held (k b) post) : InOrder n held (readTable f >>= k) post :=
  .query fun _ b _ _ => hk b

theorem writeTable_inOrder {f : HTable → Exec HTable} {k : Unit → TableProgram α}
    (hf : SameBuckets f) (hk : InOrder n held (k ()) post) :
    InOrder n held (writeTable f >>= k) post := by
  refine .update (fun s s' hs hx => ?_) hk
  obtain ⟨t, ht, hx⟩ := Exec.bind_eq_ok.mp hx
  cases hx
  exact (hf _ _ ht).trans hs

theorem accessTable_inOrder {f : HTable → Exec (β × HTable)} {k : β → TableProgram α}
    (hf : ∀ t b t', f t = .ok (b, t') → t'.buckets.length = t.buckets.length)
    (hk : ∀ b, InOrder n held (k b) post) : InOrder n held (accessTable f >>= k) post := by
  refine .access (fun s b s' hs hx => ?_) hk
  obtain ⟨⟨b', t⟩, ht, hx⟩ := Exec.bind_eq_ok.mp hx
  cases hx
  exact (hf _ _ _ ht).trans hs

theorem rand_inOrder {k : Nat → TableProgram α} (hk : ∀ r, InOrder n held (k r) post) :
    InOrder n held (rand >>= k) post := by
  refine .access (fun s b s' hs hx => ?_) hk
  cases hx
  exact hs

/-- The guard of the bucket that `key` belongs to. -/
def home (P : Platform) (n : Nat) (key : CStr) : Guard := .bucket (P.xxh64 key % n)

/-- The bucket is the same whenever it is looked for. -/
theorem bucketPtr_inOrder {k : Nat → TableProgram α}
    (hk : InOrder n held (k (P.xxh64 key % n)) post) :
    InOrder n held (htableBucketPtr P key >>= k) post := by
  refine .query fun s i hs hi => ?_
  cases hi
  rw [Server.htableBucketPtr, show s.table.buckets.length = n from hs]
  exact hk

theorem fetchItem_inOrder (hheld : ∀ g ∈ held, g.rank < 1) :
    InOrder n held (htableFetchItem P key)
      fun node => node.elim held fun _ => home P n key :: held := by
  apply bucketPtr_inOrder
  refine .lock hheld ?_
  apply readTable_inOrder
  intro node
  cases node with
  | some p => exact rfl
  | none =>
    apply Keeps.unlock
    exact rfl

theorem releaseFile_inOrder {k : Unit → TableProgram α} (hk : InOrder n held (k ()) post) :
    InOrder n (home P n key :: held) (htableReleaseFile P key >>= k) post := by
  have hrelease : InOrder n (home P n key :: held) (htableReleaseFile P key) fun _ => held := by
    apply bucketPtr_inOrder
    exact ⟨List.mem_cons_self, List.erase_cons_head ..⟩
  exact hrelease.bind fun _ => hk

/-- A section on the counters, with nothing else held. -/
theorem stats_inOrder {f : HTable → Exec HTable} {k : Unit → TableProgram α} (hf : SameBuckets f)
    (hk : InOrder n [] (k ()) post) :
    InOrder n [] (htableStatsLock >>= fun _ => writeTable f >>= fun _ => htableStatsUnlock >>= k)
      post := by
  apply Keeps.lock (by simp)
  apply writeTable_inOrder hf
  exact .unlock hk

/-! ## 3. The operations -/

theorem lockFile_inOrder {fd : Int} : InOrder n [] (htableLockFile P key fd) fun _ => [] := by
  apply (fetchItem_inOrder (by simp)).bind
  intro node
  cases node with
  | none => exact rfl
  | some p =>
    apply Keeps.ite
    · intro _
      apply writeTable_inOrder
      · exact sameBuckets_ok fun _ => rfl
      · exact releaseFile_inOrder rfl
    · intro _
      apply Keeps.ite
      · intro _
        exact .stop _
      · intro _
        apply writeTable_inOrder
        · exact sameBuckets_ok fun _ => rfl
        · exact releaseFile_inOrder rfl

theorem unlockFile_inOrder {fd : Int} : InOrder n [] (htableUnlockFile P key fd) fun _ => [] := by
  apply (fetchItem_inOrder (by simp)).bind
  intro node
  cases node with
  | none => exact rfl
  | some p =>
    apply Keeps.ite
    · intro _
      exact releaseFile_inOrder rfl
    · intro _
      apply Keeps.ite
      · intro _
        exact releaseFile_inOrder rfl
      · intro _
        cases p.2.file.subs with
        | nil =>
          apply writeTable_inOrder
          · exact sameBuckets_ok fun _ => rfl
          · exact releaseFile_inOrder rfl
        | cons sub rest =>
          apply writeTable_inOrder
          · exact sameBuckets_ok fun _ => rfl
          · exact releaseFile_inOrder rfl

theorem openFile_inOrder {fd : Int} {lock : Bool} :
    InOrder n [] (htableOpenFile P key fd lock) fun _ => [] := by
  apply (fetchItem_inOrder (by simp)).bind
  intro node
  cases node with
  | none => exact rfl
  | some p =>
    apply Keeps.ite
    · intro _
      exact releaseFile_inOrder rfl
    · intro _
      apply Keeps.ite
      · intro _
        exact releaseFile_inOrder rfl
      · intro _
        apply writeTable_inOrder
        · exact sameBuckets_ok fun _ => rfl
        · apply releaseFile_inOrder
          apply stats_inOrder
          · exact sameBuckets_ok fun _ => rfl
          · exact rfl

theorem closeFile_inOrder {fd : Int} : InOrder n [] (htableCloseFile P key fd) fun _ => [] := by
  apply (fetchItem_inOrder (by simp)).bind
  intro node
  cases node with
  | none => exact rfl
  | some p =>
    apply Keeps.ite
    · intro _
      exact releaseFile_inOrder rfl
    · intro _
      apply Keeps.ite
      · intro _
        exact releaseFile_inOrder rfl
      · intro _
        apply writeTable_inOrder
        · exact sameBuckets_ok fun _ => rfl
        · apply releaseFile_inOrder
          apply stats_inOrder
          · exact sameBuckets_ok fun _ => rfl
          · exact rfl

theorem createFile_inOrder {fd : Int} {lock : Bool} :
    InOrder n [] (htableCreateFile P key fd lock) fun _ => [] := by
  apply (fetchItem_inOrder (by simp)).bind
  intro node
  cases node with
  | some p => exact releaseFile_inOrder rfl
  | none =>
    apply bucketPtr_inOrder
    apply readTable_inOrder
    intro bucket
    apply Keeps.lock (by simp)
    apply writeTable_inOrder
    · exact sameBuckets_link _ _
    · apply Keeps.unlock
      exact stats_inOrder (sameBuckets_createStats key) rfl

theorem removeSection_inOrder {fd : Int} : InOrder n [] (removeSection P key fd) fun _ => [] := by
  apply (fetchItem_inOrder (by simp)).bind
  intro node
  cases node with
  | none => exact rfl
  | some p =>
    apply Keeps.ite
    · intro _
      exact releaseFile_inOrder rfl
    · intro _
      apply bucketPtr_inOrder
      apply writeTable_inOrder
      · exact sameBuckets_unlink _ _
      · apply writeTable_inOrder
        · exact sameBuckets_ok fun _ => rfl
        · exact releaseFile_inOrder rfl

theorem removeFile_inOrder {fd : Int} : InOrder n [] (htableRemoveFile P key fd) fun _ => [] := by
  apply removeSection_inOrder.bind
  rintro (code | sizeInBytes)
  · exact rfl
  · apply stats_inOrder
    · exact sameBuckets_ok fun _ => rfl
    · exact rfl

/-! ## 4. The evictions, under `stats_guard` -/

theorem evictSingleFifo_inOrder :
    InOrder n [.stats] (htableEvictSingleFileFifo P) fun _ => [.stats] := by
  apply accessTable_inOrder fun _ _ _ => fifoEvict_length
  intro key
  cases key with
  | none => exact rfl
  | some key =>
    apply bucketPtr_inOrder
    apply (fetchItem_inOrder (by simp [Guard.rank])).bind
    intro node
    cases node with
    | none => exact rfl
    | some p =>
      apply writeTable_inOrder
      · exact sameBuckets_unlink _ _
      · apply Keeps.unlock
        exact rfl

theorem evictLast_length {t t' : HTable} {r : Nat} {p : Ptr} (hx : evictLast r t = .ok (p, t')) :
    t'.buckets.length = t.buckets.length := by
  obtain ⟨turn, hturn, hx⟩ := Exec.bind_eq_ok.mp hx
  cases turn with
  | none =>
    cases hx
    rfl
  | some turn =>
    cases hx
    exact segmentedTurn_length hturn

/-- An empty bucket is unlocked before the next one is drawn. -/
theorem segmentedRound_inOrder :
    InOrder n [.stats] segmentedRound (Sum.elim (fun _ => [.stats]) fun _ => [.stats]) := by
  apply readTable_inOrder
  intro itemsCount
  apply Keeps.ite
  · intro _
    apply rand_inOrder
    intro r
    apply readTable_inOrder
    intro i
    apply Keeps.lock (by simp [Guard.rank])
    apply accessTable_inOrder fun _ _ _ => evictLast_length
    intro p
    cases p with
    | none =>
      apply Keeps.unlock
      exact rfl
    | some a =>
      apply Keeps.unlock
      exact rfl
  · intro _
    exact .stop _

theorem evictSingleSegmented_inOrder :
    InOrder n [.stats] htableEvictSingleFileSegmentedFifo fun _ => [.stats] := by
  apply readTable_inOrder
  intro itemsCount
  apply Keeps.ite
  · intro _
    exact .stop _
  · intro _
    exact .repeatLoop fun _ => segmentedRound_inOrder

theorem evictSingle_inOrder : InOrder n [.stats] (htableEvictSingleFile P) fun _ => [.stats] := by
  apply readTable_inOrder
  intro policy
  cases policy with
  | fifo => exact evictSingleFifo_inOrder
  | segmentedFifo =>
    apply evictSingleSegmented_inOrder.bind
    intro a
    exact rfl

theorem evictRound_inOrder {evicted : List File} :
    InOrder n [.stats] (evictRound P evicted) fun _ => [.stats] := by
  apply Keeps.ite
  · intro _
    exact .stop _
  · intro _
    apply evictSingle_inOrder.bind
    intro p
    cases p with
    | none => exact .stop _
    | some a =>
      apply readTable_inOrder
      intro item
      apply Keeps.ite
      · intro _
        exact .stop _
      · intro _
        apply writeTable_inOrder
        · exact sameBuckets_ok fun _ => rfl
        · exact rfl

theorem evictTurn_inOrder {evicted : List File} : InOrder n [.stats] (evictTurn P evicted)
    (Sum.elim (fun _ => [.stats]) fun _ => [.stats]) := by
  apply readTable_inOrder
  intro exceeds
  apply Keeps.ite
  · intro _
    apply evictRound_inOrder.bind
    intro evicted
    exact rfl
  · intro _
    exact rfl

theorem evictFiles_inOrder : InOrder n [] (htableEvictFiles P) fun _ => [] := by
  apply Keeps.lock (by simp)
  have hloop : InOrder n [.stats] (repeatLoop (evictTurn P) []) fun _ => [.stats] :=
    .repeatLoop fun _ => evictTurn_inOrder
  apply hloop.bind
  intro evicted
  apply Keeps.unlock
  exact rfl

theorem replaceSection_inOrder {contents : List UInt8} :
    InOrder n [] (replaceSection P key contents) fun _ => [] := by
  apply (fetchItem_inOrder (by simp)).bind
  intro node
  cases node with
  | none => exact rfl
  | some p =>
    apply readTable_inOrder
    intro block
    apply readTable_inOrder
    intro block
    apply writeTable_inOrder
    · exact sameBuckets_ok fun _ => rfl
    · exact releaseFile_inOrder rfl

theorem replaceFileContents_inOrder {contents : List UInt8} :
    InOrder n [] (htableReplaceFileContents P key contents) fun _ => [] := by
  apply replaceSection_inOrder.bind
  intro oldSizeInBytes
  cases oldSizeInBytes with
  | none => exact rfl
  | some oldSizeInBytes =>
    apply stats_inOrder
    · exact sameBuckets_ok fun _ => rfl
    · exact evictFiles_inOrder.bind fun _ => rfl

theorem appendSection_inOrder {contents : List UInt8} :
    InOrder n [] (appendSection P key contents) fun _ => [] := by
  apply (fetchItem_inOrder (by simp)).bind
  intro node
  cases node with
  | none => exact rfl
  | some p =>
    apply readTable_inOrder
    intro block
    apply readTable_inOrder
    intro block
    apply writeTable_inOrder
    · exact sameBuckets_ok fun _ => rfl
    · exact releaseFile_inOrder rfl

theorem appendToFileContents_inOrder {contents : List UInt8} :
    InOrder n [] (htableAppendToFileContents P key contents) fun _ => [] := by
  apply appendSection_inOrder.bind
  intro found
  apply Keeps.ite
  · intro _
    apply stats_inOrder
    · exact sameBuckets_ok fun _ => rfl
    · exact evictFiles_inOrder.bind fun _ => rfl
  · intro _
    exact rfl

theorem exec_inOrder (op : Op) : InOrder n [] (exec P op) fun _ => [] := by
  cases op with
  | create => exact createFile_inOrder.bind fun _ => rfl
  | «open» => exact openFile_inOrder.bind fun _ => rfl
  | close => exact closeFile_inOrder.bind fun _ => rfl
  | lock => exact lockFile_inOrder.bind fun _ => rfl
  | unlock => exact unlockFile_inOrder.bind fun _ => rfl
  | remove => exact removeFile_inOrder.bind fun _ => rfl
  | replace => exact replaceFileContents_inOrder.bind fun _ => rfl
  | append => exact appendToFileContents_inOrder.bind fun _ => rfl

theorem execAll_inOrder (ops : List Op) : InOrder n [] (execAll P ops) fun _ => [] := by
  induction ops with
  | nil => exact rfl
  | cons op ops ih => exact (exec_inOrder op).bind fun _ => ih

end TableProgram

/-! ## 5. Every interleaving -/

/-- Each thread is about to run its operations on the table. -/
def tableMachine {ι : Type} (P : Platform) (t : HTable) (rands : Stream' Nat) (ops : ι → List Op) :
    Machine ι Guard SharedTable where
  shared := ⟨t, rands⟩
  owner _ := none
  code i := TableProgram.execAll P (ops i)

section

variable {ι : Type} [DecidableEq ι] {P : Platform} {t : HTable} {rands : Stream' Nat}
  {ops : ι → List Op} {m : Machine ι Guard SharedTable} {i : ι}

omit [DecidableEq ι] in
theorem tableMachine_ordered :
    (tableMachine P t rands ops).Ordered (SharedTable.HasBuckets t.buckets.length) Guard.rank
      fun _ => [] :=
  ⟨rfl, fun _ _ => ⟨nofun, nofun⟩, fun _ => List.nodup_nil,
    fun i => TableProgram.execAll_inOrder (ops i)⟩

/-- While the other threads wait, the first operation of a thread does what `Op.exec` does. -/
theorem first_op_alone {op : Op} {rest : List Op} {draws : List Nat} {out : Outcome} {t' : HTable}
    (hops : ops i = op :: rest) (hx : op.exec P t draws = .ok (out, t')) :
    ∃ m, (tableMachine P t (Stream'.appendStream' draws rands) ops).Reaches m ∧
      m.shared.table = t' ∧ m.code i = TableProgram.execAll P rest ∧
        ∀ j, j ≠ i → m.code j = TableProgram.execAll P (ops j) := by
  obtain ⟨draws', hreturns⟩ := TableProgram.exec_returns (c := rands) hx
  have hordered : (tableMachine P t (Stream'.appendStream' draws rands) ops).Ordered _ _ _ :=
    tableMachine_ordered
  have hcode : TableProgram.execAll P (ops i) =
      (TableProgram.exec P op).bind fun _ => TableProgram.execAll P rest := by
    rw [hops]
    rfl
  obtain ⟨m, hreach, hshared, hcode, hothers⟩ := hordered.runs_alone hreturns nofun hcode rfl
  exact ⟨m, hreach, by rw [hshared]; rfl, hcode, hothers⟩

/-- A thread that waits for `stats_guard` holds nothing, and one that waits for a bucket guard holds
at most `stats_guard`. -/
theorem held_while_waiting (hreach : (tableMachine P t rands ops).Reaches m) {g g' : Guard}
    (hwaits : m.WaitsOn i g) (howner : m.owner g' = some i) :
    g' = .stats ∧ ∃ k, g = .bucket k := by
  obtain ⟨held, hordered⟩ := tableMachine_ordered.reaches hreach
  have hlt := hordered.rank_lt howner hwaits
  cases g' with
  | bucket => cases g <;> simp [Guard.rank] at hlt
  | stats =>
    cases g with
    | stats => simp [Guard.rank] at hlt
    | bucket k => exact ⟨rfl, k, rfl⟩

/-- Whatever operations the threads run and in whatever order they take their steps, no threads wait
for each other in a circle. -/
theorem table_deadlockFree (hreach : (tableMachine P t rands ops).Reaches m) : m.DeadlockFree := by
  obtain ⟨held, hordered⟩ := tableMachine_ordered.reaches hreach
  exact hordered.deadlockFree

end

/-- Two threads lock the same file, and one of them has to wait. -/
theorem table_deadlockFree_contended :
    ∃ t m, htableCreate 1 ⟨1, 1, .fifo⟩ = .ok t ∧
      (tableMachine samplePlatform t (Stream'.const 0) fun fd : Bool =>
        [.lock ⟨[97], by decide⟩ fd.toNat]).Reaches m ∧
      m.WaitsFor true false ∧ m.DeadlockFree := by
  obtain ⟨t, ht⟩ : ∃ t, htableCreate 1 ⟨1, 1, .fifo⟩ = .ok t := ⟨_, rfl⟩
  let m₀ := tableMachine samplePlatform t (Stream'.const 0) fun fd : Bool =>
    [.lock ⟨[97], by decide⟩ fd.toNat]
  have hreach : m₀.Reaches _ :=
    .tail (.tail (.single ⟨false, .act rfl rfl⟩) ⟨false, .lock rfl rfl⟩) ⟨true, .act rfl rfl⟩
  exact ⟨t, _, ht, hreach, ⟨_, ⟨_, rfl⟩, Function.update_self ..⟩, table_deadlockFree hreach⟩

end FileStorage.Server
