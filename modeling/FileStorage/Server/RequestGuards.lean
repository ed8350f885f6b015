import FileStorage.Server.TableGuards
import FileStorage.Server.Worker
import Mathlib.Data.Int.Bitwise

/-!
# RequestGuards — the request handlers with their mutexes and their writes

The handlers of `Worker`, now with the mutexes that they hold, also while they write, and with what
each `write` returns.  While no write fails they answer a request as the handlers of `Worker` do.
-/

namespace FileStorage.Server

open Memory

/-! ## 1. Writes -/

/-- What a call of `write` returns. -/
inductive WriteResult where
  | interrupted      -- -1 with `EINTR`
  | failed           -- -1 with another error
  | wrote (n : Nat)  -- the number of bytes written
deriving DecidableEq, Repr

def WriteResult.toInt : WriteResult → Int
  | .interrupted | .failed => -1
  | .wrote n => n

/-- The loop of `write_bytes` over what its calls of `write` return.  Without a further result the
last call is still blocked. -/
def writeLoop : List WriteResult → Nat → Exec (Int × List WriteResult)
  | results, 0 => .ok (1, results)
  | [], _ + 1 => .error .diverge
  -- the call is made again
  | .interrupted :: results, left + 1 => writeLoop results (left + 1)
  | .failed :: results, _ + 1 => .ok (-1, results)
  -- not an error for the caller
  | .wrote 0 :: results, _ + 1 => .ok (0, results)
  | .wrote (n + 1) :: results, left + 1 => writeLoop results (left - n)

/-- What is left of the results after writes of these sizes, `none` when one of them fails. -/
def delivered : List Nat → List WriteResult → Option (List WriteResult)
  | [], results => some results
  | size :: sizes, results =>
      match writeLoop results size with
      | .ok (r, rest) => if r < 0 then none else delivered sizes rest
      | .error _ => none

def sizesOf (writes : List Write) : List Nat := writes.map (·.bytes.length)

/-- What a worker has handed to `write`, and what the calls to come return. -/
structure Connection where
  writes : List Write
  results : List WriteResult
deriving DecidableEq

abbrev Handling (α : Type) := Locking Guard Connection α

namespace Guarded

def write (w : Write) : Handling Int := do
  let s ← get
  match s.rest.results with
  | [] => throw .diverge
  | result :: results => do
      modify fun s => { s with rest := ⟨s.rest.writes ++ [w], results⟩ }
      return result.toInt

def writeBytes (w : Write) : Handling Int := do
  let s ← get
  let (r, results) ← writeLoop s.rest.results w.bytes.length
  modify fun s => { s with rest := ⟨s.rest.writes ++ [w], results⟩ }
  return r

/-- `err |= write_bytes(...)` for each of these writes. -/
def writeEach (err : Int) : List Write → Handling Int
  | [] => return err
  | w :: ws => do
      let r ← writeBytes w
      writeEach (err.lor r) ws

def writeResponseByte (fd : Int) (result : Int) : Handling Unit := do
  let _ ← write (Server.writeResponseByte fd result)

/-! ## 2. Reading -/

/-- The bucket is held while its file is sent. -/
def workerHandleReadFile (P : Platform) (t : HTable) (fd : Int) (buffer : List UInt8) :
    Handling Unit := do
  let path := bufToStr buffer
  match ← htableFetchFile P t path with
  | none => writeResponseByte fd (-1)
  | some file => do
      let contents ← fileContents file
      let _ ← writeEach 0
        [⟨fd, responseOk :: u64ToBigEndian file.lengthInBytes, .status⟩, ⟨fd, contents, .data⟩]
      htableReleaseFile P t path

/-- The visitor starts in bucket 0 and holds the bucket it stands in. -/
def htableVisit {σ : Type} (t : HTable) (maxVisits : Nat) : Locking Guard σ HTableVisitor := do
  let visitor ← Server.htableVisit t maxVisits
  pthreadMutexLock (.bucket 0)
  return visitor

def visitorBuckets {σ : Type} (t : HTable) : Nat → Nat → Locking Guard σ (Option (Nat × Nat))
  | 0, _ => throw .diverge
  | fuel + 1, i => do
      pthreadMutexUnlock (.bucket i)
      if i + 1 = t.buckets.length then
        return none
      else do
        pthreadMutexLock (.bucket (i + 1))
        let bucket ← t.bucket (i + 1)
        match bucket.head with
        | some a => return some (i + 1, a)
        | none => visitorBuckets t fuel (i + 1)

/-- Behind the last item of a bucket the visitor returns `NULL` and keeps the bucket. -/
def htableVisitorNext {σ : Type} (t : HTable) (v : HTableVisitor) :
    Locking Guard σ (Option File × HTableVisitor) := do
  if v.visits ≥ v.maxVisits ∧ v.maxVisits ≠ 0 then do
    pthreadMutexUnlock (.bucket v.bucketI)
    return (none, v)
  else do
    let visits := (v.visits + 1) % unsignedSize
    match v.next with
    | some a => do
        let item ← t.items.load a
        let v := { v with visits, next := item.next }
        -- the `file` of the next item, at offset 0: `NULL` when there is none, which looks like
        -- the end
        match item.next with
        | none => return (none, v)
        | some b => do
            let item ← t.items.load b
            return (some item.file, v)
    | none => do
        match ← visitorBuckets t t.buckets.length v.bucketI with
        | none => return (none, v)
        | some (bucketI, a) => do
            let item ← t.items.load a
            return (some item.file, { v with visits, bucketI, next := some a })

/-- A failed write ends the loop where the visitor stands. -/
def readNFilesLoop (t : HTable) (fd : Int) : Nat → HTableVisitor → Int → Handling Int
  | 0, _, _ => throw .diverge
  | fuel + 1, v, err => do
      match ← htableVisitorNext t v with
      | (none, _) => return err
      | (some file, v) => do
          let writes ← writeFileBytes fd file
          let err ← writeEach err writes
          -- the visitor is left as it is, and `htable_visitor_free` releases nothing
          if err < 0 then
            return err
          else
            readNFilesLoop t fd fuel v err

def workerHandleReadNFiles (t : HTable) (fd : Int) (buffer : List UInt8) : Handling Unit := do
  if buffer.length ≠ 8 then
    return ()
  else do
    let n ← bigEndianToU64 buffer
    let visitor ← htableVisit t n
    let err ← readNFilesLoop t fd (t.items.live + 1) visitor 0
    let _ ← writeEach err [⟨fd, List.replicate 8 0, .data⟩]

/-! ## 3. The other requests -/

def writeEvicted (fd : Int) : Int → List File → Handling Unit
  | _, [] => return ()
  | err, file :: evicted => do
      let writes ← writeFileBytes fd file
      let err ← writeEach err writes
      if err < 0 then
        return ()
      else
        writeEvicted fd err evicted

def workerHandleWriteFile (P : Platform) (t : HTable) (fd : Int) (buffer : List UInt8)
    (rands : List Nat) : Handling HTable := do
  match ← writeFileArgs buffer with
  | none => return t
  | some (path, contents) => do
      let (code, evicted, t) ← htableReplaceFileContents P t path contents rands
      let err ← writeEach code.toInt [⟨fd, [responseOk], .status⟩,
        ⟨fd, u64ToBigEndian (evicted.length % unsignedSize), .data⟩]
      if err < 0 then
        return t
      else do
        writeEvicted fd err evicted
        return t

def workerHandleOpenFile (P : Platform) (t : HTable) (fd : Int) (buffer : List UInt8)
    (create lock : Bool) : Handling HTable := do
  let path := bufToStr buffer
  let (result, t) ← htableOpenOrCreateFile P t path fd create lock
  writeResponseByte fd result.toInt
  return t

def workerHandleLockFile (P : Platform) (t : HTable) (fd : Int) (buffer : List UInt8) :
    Handling HTable := do
  let path := bufToStr buffer
  let (result, t) ← htableLockFile P t path fd
  let response := if result.toInt < 0 then responseErr else responseOk
  let _ ← write ⟨fd, [response], .status⟩
  return t

def workerHandleUnlockFile (P : Platform) (t : HTable) (fd : Int) (buffer : List UInt8) :
    Handling HTable := do
  let path := bufToStr buffer
  let (result, newFd, t) ← htableUnlockFile P t path fd
  writeResponseByte fd result.toInt
  if newFd ≠ -1 then do
    let _ ← write { Server.writeResponseByte newFd HTableError.ok.toInt with kind := .granted }
    return t
  else
    return t

def workerHandleCloseFile (P : Platform) (t : HTable) (fd : Int) (buffer : List UInt8) :
    Handling HTable := do
  let path := bufToStr buffer
  let (result, t) ← htableCloseFile P t path fd
  writeResponseByte fd result.toInt
  return t

def workerHandleRemoveFile (P : Platform) (t : HTable) (fd : Int) (buffer : List UInt8) :
    Handling HTable := do
  let path := bufToStr buffer
  let (result, t) ← htableRemoveFile P t path fd
  writeResponseByte fd result.toInt
  return t

/-! ## 4. Dispatching -/

def workerHandleRequest (P : Platform) (t : HTable) (fd : Int) (op : ApiOp) (buffer : List UInt8)
    (rands : List Nat) : Handling HTable :=
  match op with
  | .readFile => do
      workerHandleReadFile P t fd buffer
      return t
  | .readNFiles => do
      workerHandleReadNFiles t fd buffer
      return t
  | .openFile => workerHandleOpenFile P t fd buffer false false
  | .openFileCreate => workerHandleOpenFile P t fd buffer true false
  | .openFileLock => workerHandleOpenFile P t fd buffer false true
  | .openFileCreateLock => workerHandleOpenFile P t fd buffer true true
  | .writeFile => workerHandleWriteFile P t fd buffer rands
  | .unlockFile => workerHandleUnlockFile P t fd buffer
  | .lockFile => workerHandleLockFile P t fd buffer
  | .closeFile => workerHandleCloseFile P t fd buffer
  | .removeFile => workerHandleRemoveFile P t fd buffer
  | .openConnection | .closeConnection | .appendToFile => pure t

def workerHandleMessage (P : Platform) (t : HTable) (fd : Int) (raw : List UInt8)
    (rands : List Nat) : Handling HTable := do
  match ← messageRequest raw with
  | none => return t
  | some (op, payload) =>
      match ApiOp.ofByte op with
      | none => return t
      | some op => workerHandleRequest P t fd op payload rands

/-! ## 5. What writing does -/

theorem delivered_append (sizes sizes' : List Nat) (results : List WriteResult) :
    delivered (sizes ++ sizes') results = (delivered sizes results).bind (delivered sizes') := by
  induction sizes generalizing results with
  | nil => rfl
  | cons size sizes ih =>
    simp only [List.cons_append, delivered]
    cases writeLoop results size with
    | error stop => rfl
    | ok p =>
      simp only
      split
      · rfl
      · exact ih p.2

/-- A negative operand stays visible in `err |= r`. -/
theorem lor_neg {a b : Int} : a.lor b < 0 ↔ a < 0 ∨ b < 0 := by
  cases a with
  | ofNat m =>
    cases b with
    | ofNat n =>
      apply iff_of_false
      · exact Int.not_lt.mpr (Int.natCast_nonneg (m ||| n))
      · exact not_or.mpr ⟨Int.not_lt.mpr (Int.natCast_nonneg m), Int.not_lt.mpr (Int.natCast_nonneg n)⟩
    | negSucc n => simp [Int.lor, Int.negSucc_lt_zero]
  | negSucc m => cases b <;> simp [Int.lor, Int.negSucc_lt_zero]

/-- Only a failed call makes `write_bytes` return -1. -/
theorem writeLoop_of_not_failed {results rest : List WriteResult} {size : Nat} {r : Int}
    (hok : .failed ∉ results) (hx : writeLoop results size = .ok (r, rest)) :
    0 ≤ r ∧ .failed ∉ rest := by
  induction results generalizing size with
  | nil =>
    cases size with
    | zero =>
      cases hx
      exact ⟨by decide, hok⟩
    | succ left => cases hx
  | cons result results ih =>
    have hok' : WriteResult.failed ∉ results := fun h => hok (List.mem_cons_of_mem _ h)
    cases size with
    | zero =>
      cases hx
      exact ⟨by decide, hok⟩
    | succ left =>
      cases result with
      | interrupted => exact ih hok' hx
      | failed => exact absurd List.mem_cons_self hok
      | wrote n =>
        cases n with
        | zero =>
          cases hx
          exact ⟨by decide, hok'⟩
        | succ n => exact ih hok' hx

section

variable {s s' : Logged Guard Connection} {w : Write} {ws : List Write} {err err' r : Int}

theorem write_ok (hx : write w s = .ok (r, s')) :
    s'.events = s.events ∧ s'.rest.writes = s.rest.writes ++ [w] ∧
      (.failed ∉ s.rest.results → .failed ∉ s'.rest.results) := by
  obtain ⟨s₁, s₂, hget, hx⟩ := Locking.bind_eq_ok.mp hx
  cases hget
  cases hresults : s.rest.results with
  | nil =>
    rw [hresults] at hx
    cases hx
  | cons result results =>
    rw [hresults] at hx
    cases hx
    exact ⟨rfl, rfl, fun h hmem => h (List.mem_cons_of_mem _ hmem)⟩

theorem writeBytes_ok (hx : writeBytes w s = .ok (r, s')) :
    writeLoop s.rest.results w.bytes.length = .ok (r, s'.rest.results) ∧ s'.events = s.events ∧
      s'.rest.writes = s.rest.writes ++ [w] := by
  obtain ⟨s₁, s₂, hget, hx⟩ := Locking.bind_eq_ok.mp hx
  cases hget
  obtain ⟨p, hloop, hx⟩ := Locking.lift_bind_eq_ok.mp hx
  cases hx
  exact ⟨hloop, rfl, rfl⟩

theorem writeEach_frame (hx : writeEach err ws s = .ok (err', s')) :
    s'.events = s.events ∧ s'.rest.writes = s.rest.writes ++ ws := by
  induction ws generalizing err s with
  | nil =>
    cases hx
    exact ⟨rfl, (List.append_nil _).symm⟩
  | cons w ws ih =>
    obtain ⟨r, s₁, hfirst, hx⟩ := Locking.bind_eq_ok.mp hx
    obtain ⟨-, hevents, hwrites⟩ := writeBytes_ok hfirst
    obtain ⟨hevents', hwrites'⟩ := ih hx
    refine ⟨hevents'.trans hevents, ?_⟩
    rw [hwrites', hwrites, List.append_assoc, List.singleton_append]

theorem writeEach_neg (hx : writeEach err ws s = .ok (err', s')) (herr : err < 0) : err' < 0 := by
  induction ws generalizing err s with
  | nil =>
    cases hx
    exact herr
  | cons w ws ih =>
    obtain ⟨r, s₁, -, hx⟩ := Locking.bind_eq_ok.mp hx
    exact ih hx (lor_neg.mpr (Or.inl herr))

/-- After writes without an error so far, the code is negative exactly when one of these fails. -/
theorem writeEach_delivered (hx : writeEach err ws s = .ok (err', s')) (herr : 0 ≤ err) :
    delivered (sizesOf ws) s.rest.results = if err' < 0 then none else some s'.rest.results := by
  induction ws generalizing err s with
  | nil =>
    cases hx
    rw [if_neg (Int.not_lt.mpr herr)]
    rfl
  | cons w ws ih =>
    obtain ⟨r, s₁, hfirst, hx⟩ := Locking.bind_eq_ok.mp hx
    obtain ⟨hloop, -, -⟩ := writeBytes_ok hfirst
    show delivered (w.bytes.length :: sizesOf ws) _ = _
    rw [delivered, hloop]
    simp only
    -- once a write has failed the code stays negative
    by_cases hr : r < 0
    · rw [if_pos hr, if_pos (writeEach_neg hx (lor_neg.mpr (Or.inr hr)))]
    · rw [if_neg hr]
      apply ih hx
      have hlor := mt lor_neg.mp (not_or.mpr ⟨Int.not_lt.mpr herr, hr⟩)
      omega

theorem writeEach_of_not_failed (hok : .failed ∉ s.rest.results)
    (hx : writeEach err ws s = .ok (err', s')) (herr : 0 ≤ err) :
    0 ≤ err' ∧ .failed ∉ s'.rest.results := by
  induction ws generalizing err s with
  | nil =>
    cases hx
    exact ⟨herr, hok⟩
  | cons w ws ih =>
    obtain ⟨r, s₁, hfirst, hx⟩ := Locking.bind_eq_ok.mp hx
    obtain ⟨hr, hok'⟩ := writeLoop_of_not_failed hok (writeBytes_ok hfirst).1
    have hlor := mt lor_neg.mp (not_or.mpr ⟨Int.not_lt.mpr herr, Int.not_lt.mpr hr⟩)
    exact ih hok' hx (by omega)

theorem held_of_events (h : s'.events = s.events) : s'.held = s.held := congrArg (heldAfter []) h

end

/-! ## 6. While no write fails -/

/-- While no write fails the code returns what `e` returns and writes what `e` lists. -/
def Sends {α : Type} (held : List Guard) (x : Handling α) (e : Exec (List Write × α)) : Prop :=
  ∀ s a s', s.held = some held → .failed ∉ s.rest.results → x s = .ok (a, s') →
    ∃ ws, e = .ok (ws, a) ∧ s'.rest.writes = s.rest.writes ++ ws

namespace Sends

variable {α β : Type} {held : List Guard} {x : Handling α} {e : Exec (List Write × α)} {fd : Int}

theorem pure (a : α) : Sends held (pure a : Handling α) (.ok ([], a)) := by
  intro s a' s' _ _ hx
  cases hx
  exact ⟨[], rfl, (List.append_nil _).symm⟩

/-- Code that writes nothing first. -/
theorem bind {y : Handling β} {e' : Exec β} {mid : β → List Guard} {f : β → Handling α}
    {g : β → Exec (List Write × α)} (hy : Implements held y e' mid)
    (hf : ∀ b, e' = .ok b → Sends (mid b) (f b) (g b)) : Sends held (y >>= f) (e' >>= g) := by
  intro s a s' hs hok hx
  obtain ⟨b, s₁, hfirst, hx⟩ := Locking.bind_eq_ok.mp hx
  obtain ⟨he', hrest, hheld⟩ := (hy s hs).2 b s₁ hfirst
  have h := hf b he' s₁ a s' hheld (hrest ▸ hok) hx
  rwa [he', Exec.ok_bind, ← hrest]

theorem write {w : Write} {ws : List Write} {a : α} {f : Int → Handling α}
    (hf : ∀ r, Sends held (f r) (.ok (ws, a))) :
    Sends held (Guarded.write w >>= f) (.ok (w :: ws, a)) := by
  intro s a' s' hs hok hx
  obtain ⟨r, s₁, hfirst, hx⟩ := Locking.bind_eq_ok.mp hx
  obtain ⟨hevents, hwrites, hok'⟩ := write_ok hfirst
  obtain ⟨ws', he, hwrites'⟩ :=
    hf r s₁ a' s' ((held_of_events hevents).trans hs) (hok' hok) hx
  cases he
  refine ⟨w :: ws, rfl, ?_⟩
  rw [hwrites', hwrites, List.append_assoc, List.singleton_append]

theorem respond {result : Int} {ws : List Write} {a : α} {f : Unit → Handling α}
    (hf : Sends held (f ()) (.ok (ws, a))) :
    Sends held (writeResponseByte fd result >>= f)
      (.ok (Server.writeResponseByte fd result :: ws, a)) := by
  unfold writeResponseByte
  rw [bind_assoc]
  apply Sends.write
  intro r
  exact hf

theorem writeEach {err : Int} {ws : List Write} {f : Int → Handling α}
    {e' : Exec (List Write × α)} (herr : 0 ≤ err) (he' : e' = e >>= fun p => .ok (ws ++ p.1, p.2))
    (hf : ∀ err', 0 ≤ err' → Sends held (f err') e) :
    Sends held (Guarded.writeEach err ws >>= f) e' := by
  subst he'
  intro s a s' hs hok hx
  obtain ⟨err', s₁, hfirst, hx⟩ := Locking.bind_eq_ok.mp hx
  obtain ⟨hevents, hwrites⟩ := writeEach_frame hfirst
  obtain ⟨herr', hok'⟩ := writeEach_of_not_failed hok hfirst herr
  obtain ⟨ws', rfl, hwrites'⟩ :=
    hf err' herr' s₁ a s' ((held_of_events hevents).trans hs) hok' hx
  refine ⟨ws ++ ws', rfl, ?_⟩
  rw [hwrites', hwrites, List.append_assoc]

theorem unlock {g : Guard} : Sends (g :: held) (pthreadMutexUnlock g) (.ok ([], ())) := by
  intro s a s' _ _ hx
  cases hx
  exact ⟨[], rfl, (List.append_nil _).symm⟩

/-- Code that leaves the table alone. -/
theorem andReturn {y : Handling Unit} {e' : Exec (List Write)}
    (hy : Sends held y (e' >>= fun ws => .ok (ws, ()))) (a : α) :
    Sends held (y >>= fun _ => Pure.pure a) (e' >>= fun ws => .ok (ws, a)) := by
  intro s a' s' hs hok hx
  obtain ⟨u, s₁, hfirst, hx⟩ := Locking.bind_eq_ok.mp hx
  cases hx
  obtain ⟨ws, he, hwrites⟩ := hy s u s' hs hok hfirst
  obtain ⟨ws', he', hws⟩ := Exec.bind_eq_ok.mp he
  cases hws
  exact ⟨ws, by rw [he', Exec.ok_bind], hwrites⟩

end Sends

section

variable {P : Platform} {t : HTable} {fd : Int} {buffer : List UInt8} {rands : List Nat}

theorem readFile_sends :
    Sends [] (workerHandleReadFile P t fd buffer)
      (Server.workerHandleReadFile P t fd buffer >>= fun ws => .ok (ws, ())) := by
  unfold Server.workerHandleReadFile
  rw [bind_assoc]
  apply Sends.bind (fetchFile_implements List.not_mem_nil)
  intro file _
  cases file with
  | none => exact .write fun _ => .pure _
  | some file =>
    simp only [bind_assoc]
    apply Sends.bind (.lift _)
    intro contents _
    apply Sends.writeEach (e := .ok ([], ())) (by decide) rfl
    intro err _
    exact .unlock

theorem visitorBuckets_implements {σ : Type} {fuel i : Nat} :
    Implements [.bucket i] (visitorBuckets t fuel i : Locking Guard σ _)
      (Server.visitorBuckets t fuel i) fun r => r.elim [] fun p => [.bucket p.1] := by
  induction fuel generalizing i with
  | zero => exact .throw _
  | succ fuel ih =>
    apply Implements.unlock
    apply Implements.ite
    · intro _
      exact .pure _ rfl
    · intro _
      apply Implements.lock List.not_mem_nil
      apply Implements.bind (.lift _)
      intro bucket _
      cases bucket.head with
      | some a => exact .pure _ rfl
      | none => exact ih

/-- What the visitor holds after a call of `htable_visitor_next`: the bucket of the file that it
returned, and the bucket it came to the end of. -/
def heldByVisitor (v : HTableVisitor) (r : Option File × HTableVisitor) : List Guard :=
  if r.1.isSome then
    [.bucket r.2.bucketI]
  else if (v.visits ≥ v.maxVisits ∧ v.maxVisits ≠ 0) ∨ v.next = none then
    []
  else
    [.bucket v.bucketI]

theorem visitorNext_implements {σ : Type} {v : HTableVisitor} :
    Implements [.bucket v.bucketI] (htableVisitorNext t v : Locking Guard σ _)
      (Server.htableVisitorNext t v) (heldByVisitor v) := by
  apply Implements.ite
  · intro hdone
    apply Implements.unlock
    exact .pure _ (by simp [heldByVisitor, hdone])
  · intro hmore
    cases hnext : v.next with
    | some a =>
      apply Implements.bind (.lift _)
      intro item _
      cases item.next with
      -- the end of a bucket, which stays locked
      | none => exact .pure _ (by simp only [heldByVisitor]; simp [hmore, hnext])
      | some b =>
        apply Implements.bind (.lift _)
        intro item' _
        exact .pure _ rfl
    | none =>
      apply Implements.bind visitorBuckets_implements
      intro r _
      cases r with
      | none => exact .pure _ (by simp [heldByVisitor, hnext])
      | some p =>
        apply Implements.bind (.lift _)
        intro item _
        exact .pure _ rfl

theorem readNFilesLoop_sends {fuel : Nat} {v : HTableVisitor} {err err' : Int}
    {s s' : Logged Guard Connection} (hs : s.held = some [.bucket v.bucketI])
    (hok : .failed ∉ s.rest.results) (herr : 0 ≤ err)
    (hx : readNFilesLoop t fd fuel v err s = .ok (err', s')) :
    0 ≤ err' ∧ .failed ∉ s'.rest.results ∧ ∃ ws, Server.readNFilesLoop t fd fuel v = .ok ws ∧
      s'.rest.writes = s.rest.writes ++ ws := by
  induction fuel generalizing v err s with
  | zero => cases hx
  | succ fuel ih =>
    obtain ⟨⟨file, v'⟩, s₁, hfirst, hx⟩ := Locking.bind_eq_ok.mp hx
    obtain ⟨hnext, hrest, hheld⟩ := (visitorNext_implements s hs).2 _ _ hfirst
    rw [← hrest] at hok ⊢
    cases file with
    | none =>
      cases hx
      refine ⟨herr, hok, [], ?_, (List.append_nil _).symm⟩
      simp only [Server.readNFilesLoop, hnext, Exec.ok_bind, Exec.pure_eq_ok]
    | some file =>
      obtain ⟨writes, hwrites, hx⟩ := Locking.lift_bind_eq_ok.mp hx
      obtain ⟨err₁, s₂, heach, hx⟩ := Locking.bind_eq_ok.mp hx
      obtain ⟨herr₁, hok₁⟩ := writeEach_of_not_failed hok heach herr
      obtain ⟨hevents, hsent⟩ := writeEach_frame heach
      rw [if_neg (Int.not_lt.mpr herr₁)] at hx
      obtain ⟨herr', hok', ws, hloop, hsent'⟩ :=
        ih ((held_of_events hevents).trans hheld) hok₁ herr₁ hx
      refine ⟨herr', hok', writes ++ ws, ?_, ?_⟩
      · simp only [Server.readNFilesLoop, hnext, hwrites, hloop, Exec.ok_bind, Exec.pure_eq_ok]
      · rw [hsent', hsent, List.append_assoc]

theorem visit_implements {σ : Type} {n : Nat} :
    Implements [] (htableVisit t n : Locking Guard σ _) (Server.htableVisit t n)
      fun _ => [.bucket 0] := by
  rw [← bind_pure (Server.htableVisit t n)]
  apply Implements.bind (.lift _)
  intro visitor _
  apply Implements.lock List.not_mem_nil
  exact .pure _ rfl

theorem visit_eq_ok {n : Nat} {v : HTableVisitor} (hx : Server.htableVisit t n = .ok v) :
    ∃ b, t.bucket 0 = .ok b ∧ v = ⟨n % unsignedSize, 0, 0, b.head⟩ := by
  obtain ⟨b, hb, hx⟩ := Exec.bind_eq_ok.mp hx
  cases hx
  exact ⟨b, hb, rfl⟩

theorem readNFiles_sends :
    Sends [] (workerHandleReadNFiles t fd buffer)
      (Server.workerHandleReadNFiles t fd buffer >>= fun ws => .ok (ws, ())) := by
  intro s u s' hs hok hx
  unfold workerHandleReadNFiles at hx
  unfold Server.workerHandleReadNFiles
  split at hx
  · rename_i hlength
    cases hx
    refine ⟨[], ?_, (List.append_nil _).symm⟩
    rw [if_pos hlength]
    rfl
  · rename_i hlength
    obtain ⟨n, hn, hx⟩ := Locking.lift_bind_eq_ok.mp hx
    obtain ⟨v, s₂, hvisit, hx⟩ := Locking.bind_eq_ok.mp hx
    obtain ⟨hvisit, hrest, hheld⟩ := (visit_implements _ hs).2 _ _ hvisit
    obtain ⟨err, s₃, hloop, hx⟩ := Locking.bind_eq_ok.mp hx
    obtain ⟨err', s₄, hlast, hx⟩ := Locking.bind_eq_ok.mp hx
    cases hx
    -- the visitor starts in bucket 0, the one that is held
    obtain ⟨b, -, rfl⟩ := visit_eq_ok hvisit
    obtain ⟨-, -, ws, hws, hsent⟩ :=
      readNFilesLoop_sends hheld (hrest ▸ hok) (Int.le_refl 0) hloop
    refine ⟨ws ++ [⟨fd, List.replicate 8 0, .data⟩], ?_, ?_⟩
    · rw [if_neg hlength]
      simp only [hn, hvisit, hws, Exec.ok_bind, Exec.pure_eq_ok]
    · rw [(writeEach_frame hlast).2, hsent, hrest, List.append_assoc]

theorem writeEvicted_sends {evicted : List File} {err : Int} (herr : 0 ≤ err) :
    Sends [] (writeEvicted fd err evicted)
      (Server.writeEvicted fd evicted >>= fun ws => .ok (ws, ())) := by
  induction evicted generalizing err with
  | nil => exact .pure _
  | cons file evicted ih =>
    unfold Server.writeEvicted
    simp only [bind_assoc]
    apply Sends.bind (.lift _)
    intro writes _
    apply Sends.writeEach (e := Server.writeEvicted fd evicted >>= fun ws => .ok (ws, ())) herr
    · rw [bind_assoc]
      rfl
    · intro err' herr'
      rw [if_neg (Int.not_lt.mpr herr')]
      exact ih herr'

theorem writeFile_sends :
    Sends [] (workerHandleWriteFile P t fd buffer rands)
      (Server.workerHandleWriteFile P t fd buffer rands) := by
  apply Sends.bind (.lift _)
  intro args _
  cases args with
  | none => exact .pure _
  | some args =>
    apply Sends.bind replaceFileContents_implements
    rintro ⟨code, evicted, t'⟩ _
    apply Sends.writeEach (e := Server.writeEvicted fd evicted >>= fun ws => .ok (ws, t'))
      (Int.natCast_nonneg _)
    · rw [bind_assoc]
      rfl
    · intro err herr
      rw [if_neg (Int.not_lt.mpr herr)]
      exact (writeEvicted_sends herr).andReturn t'

theorem openFile_sends {create lock : Bool} :
    Sends [] (workerHandleOpenFile P t fd buffer create lock)
      (Server.workerHandleOpenFile P t fd buffer create lock) := by
  apply Sends.bind openOrCreateFile_implements
  rintro ⟨result, t'⟩ _
  apply Sends.respond
  exact .pure _

theorem lockFile_sends :
    Sends [] (workerHandleLockFile P t fd buffer) (Server.workerHandleLockFile P t fd buffer) := by
  apply Sends.bind lockFile_implements
  rintro ⟨result, t'⟩ _
  apply Sends.write
  intro r
  exact .pure _

theorem unlockFile_sends :
    Sends [] (workerHandleUnlockFile P t fd buffer)
      (Server.workerHandleUnlockFile P t fd buffer) := by
  apply Sends.bind unlockFile_implements
  rintro ⟨result, newFd, t'⟩ _
  apply Sends.respond
  by_cases hnew : newFd ≠ -1
  · rw [if_pos hnew, if_pos hnew]
    apply Sends.write
    intro r
    exact .pure _
  · rw [if_neg hnew, if_neg hnew]
    exact .pure _

theorem closeFile_sends :
    Sends [] (workerHandleCloseFile P t fd buffer)
      (Server.workerHandleCloseFile P t fd buffer) := by
  apply Sends.bind closeFile_implements
  rintro ⟨result, t'⟩ _
  apply Sends.respond
  exact .pure _

theorem removeFile_sends :
    Sends [] (workerHandleRemoveFile P t fd buffer)
      (Server.workerHandleRemoveFile P t fd buffer) := by
  apply Sends.bind removeFile_implements
  rintro ⟨result, t'⟩ _
  apply Sends.respond
  exact .pure _

theorem request_sends (op : ApiOp) :
    Sends [] (workerHandleRequest P t fd op buffer rands)
      (Server.workerHandleRequest P t fd op buffer rands) := by
  cases op with
  | openConnection | closeConnection | appendToFile => exact .pure _
  | readFile => exact readFile_sends.andReturn t
  | readNFiles => exact readNFiles_sends.andReturn t
  | openFile | openFileCreate | openFileLock | openFileCreateLock => exact openFile_sends
  | writeFile => exact writeFile_sends
  | lockFile => exact lockFile_sends
  | unlockFile => exact unlockFile_sends
  | closeFile => exact closeFile_sends
  | removeFile => exact removeFile_sends

/-- While no write fails, a message is answered as the handlers without mutexes answer it. -/
theorem message_sends (raw : List UInt8) :
    Sends [] (workerHandleMessage P t fd raw rands)
      (Server.workerHandleMessage P t fd raw rands) := by
  apply Sends.bind (.lift _)
  intro request _
  cases request with
  | none => exact .pure _
  | some request =>
    simp only
    cases ApiOp.ofByte request.1 with
    | none => exact .pure _
    | some op => exact request_sends op

end

end Guarded

end FileStorage.Server
