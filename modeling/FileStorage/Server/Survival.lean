import FileStorage.Server.Handover
import FileStorage.Server.Reallocation
import FileStorage.Server.Release
import FileStorage.Server.SegmentedEviction
import FileStorage.Server.WriteSizes

/-!
# Survival — the messages that a server survives

Under segmented FIFO the eviction loop waits for `rand()` to hit a bucket that holds something.  When
every bucket is hit again and again the loop ends, so what is left to end a server are the checks and
the reads of the handlers themselves.
-/

namespace FileStorage.Server

open Memory

/-! ## 1. Draws that hit every bucket -/

/-- The results of the calls `k`, …, `k + n - 1` of `rand()`. -/
def drawsFrom (draws : Nat → Nat) (k n : Nat) : List Nat := (List.range' k n).map draws

/-- However many draws are behind, every bucket is still to come. -/
def FairDraws (buckets : Nat) (draws : Nat → Nat) : Prop :=
  ∀ i < buckets, ∀ k, ∃ n, k ≤ n ∧ draws n % buckets = i

section

variable {draws : Nat → Nat}

theorem drawsFrom_succ (k n : Nat) :
    drawsFrom draws k (n + 1) = draws k :: drawsFrom draws (k + 1) n := rfl

theorem drawsFrom_add (k m n : Nat) :
    drawsFrom draws k (m + n) = drawsFrom draws k m ++ drawsFrom draws (k + m) n := by
  rw [drawsFrom, drawsFrom, drawsFrom, ← List.map_append, ← List.range'_append, Nat.one_mul]

end

/-! ## 2. The loop ends -/

section

variable {P : Platform} {t : HTable} {L : Contents} {draws : Nat → Nat}

/-- A draw of a bucket that holds something takes its last item. -/
theorem Linked.segmentedTurn_hit (h : Linked P t L) {r : Nat} {l : List Entry}
    (hl : L[r % t.buckets.length]? = some l) (hne : l ≠ []) :
    ∃ a f t', Linked.Unlinked P t L a f t' ∧ segmentedTurn t r = .ok (some (a, t')) := by
  obtain ⟨front, ⟨a, f⟩, rfl⟩ := (List.eq_nil_or_concat l).resolve_left hne
  rw [List.concat_eq_append] at hl
  obtain ⟨t', hhit, hun⟩ := h.segmentedLoop_hit hl []
  refine ⟨a, f, t', hun, ?_⟩
  rw [segmentedLoop_cons] at hhit
  cases hturn : segmentedTurn t r with
  | error stop => simp [hturn] at hhit
  | ok turn =>
    cases turn with
    | none => simp [hturn, segmentedLoop] at hhit
    | some turn =>
      obtain ⟨b, t₁⟩ := turn
      obtain ⟨rfl, rfl⟩ : b = a ∧ t₁ = t' := by simpa [hturn] using hhit
      rfl

/-- The loop goes on to the first draw of a bucket that holds something. -/
theorem Linked.segmentedLoop_hits (h : Linked P t L) (d k : Nat) {l : List Entry}
    (hl : L[draws (k + d) % t.buckets.length]? = some l) (hne : l ≠ []) :
    ∃ n a f t', Linked.Unlinked P t L a f t' ∧
      ∀ more, segmentedLoop t (drawsFrom draws k n ++ more) = .ok (a, t', more) := by
  induction d generalizing k with
  | zero =>
    rw [Nat.add_zero] at hl
    obtain ⟨a, f, t', hun, hturn⟩ := h.segmentedTurn_hit hl hne
    refine ⟨1, a, f, t', hun, fun more => ?_⟩
    rw [drawsFrom_succ, List.cons_append, segmentedLoop_cons, hturn]
    rfl
  | succ d ih =>
    have hlt : draws k % t.buckets.length < L.length := by
      rw [h.length]
      exact Nat.mod_lt _ (h.length ▸ h.pos)
    have hfirst : L[draws k % t.buckets.length]? = some L[draws k % t.buckets.length] :=
      List.getElem?_eq_getElem hlt
    by_cases hempty : L[draws k % t.buckets.length] = []
    · rw [Nat.add_comm d 1, ← Nat.add_assoc] at hl
      obtain ⟨n, a, f, t', hun, hloop⟩ := ih (k + 1) hl
      refine ⟨n + 1, a, f, t', hun, fun more => ?_⟩
      rw [drawsFrom_succ, List.cons_append, h.segmentedLoop_miss (hempty ▸ hfirst)]
      exact hloop more
    · obtain ⟨a, f, t', hun, hturn⟩ := h.segmentedTurn_hit hfirst hempty
      refine ⟨1, a, f, t', hun, fun more => ?_⟩
      rw [drawsFrom_succ, List.cons_append, segmentedLoop_cons, hturn]
      rfl

/-- A table over its limits has a bucket that holds something. -/
theorem SegmentedReady.exists_bucket {age : CStr → Nat} (h : SegmentedReady P age t L)
    (hlimits : t.exceedsLimits) : ∃ l ∈ L, l ≠ [] := by
  have hitems := h.items_pos hlimits
  rw [h.counted.items] at hitems
  by_contra hnone
  have hflat : L.flatten = [] := List.flatten_eq_nil_iff.mpr fun l hl =>
    Classical.not_not.mp fun hne => hnone ⟨l, hl, hne⟩
  rw [hflat] at hitems
  exact absurd hitems (Nat.not_lt_zero _)

/-- A round of the eviction loop ends. -/
theorem SegmentedReady.round_ends {age : CStr → Nat} (h : SegmentedReady P age t L)
    (hglibc : ReallocFreesEmpty P) (hfair : FairDraws L.length draws) (hlimits : t.exceedsLimits)
    {evicted : List File} (hcount : evicted.length + 1 < unsignedSize) (k : Nat) :
    ∃ n f t', ∀ more,
      evictRound P t evicted (drawsFrom draws k n ++ more) = .ok (t', evicted ++ [f], more) := by
  have hitems := h.items_pos hlimits
  obtain ⟨l, hl, hne⟩ := h.exists_bucket hlimits
  obtain ⟨i, hi⟩ := List.mem_iff_getElem?.mp hl
  obtain ⟨hlt, -⟩ := List.getElem?_eq_some_iff.mp hi
  -- the bucket is drawn again, after at most `n₀ - k` draws of empty ones
  obtain ⟨n₀, hle, hdraw⟩ := hfair i hlt k
  have hat : L[draws (k + (n₀ - k)) % t.buckets.length]? = some l := by
    rw [Nat.add_sub_cancel' hle, ← h.length, hdraw]
    exact hi
  obtain ⟨n, a, f, t', hun, hloop⟩ := h.toLinked.segmentedLoop_hits (n₀ - k) k hat hne
  obtain ⟨item, hread, hfile⟩ := Heap.field_eq_some hun.file
  refine ⟨n, f, { t' with stats := evictStats t'.stats f, items := t'.items.free a },
    fun more => ?_⟩
  have hgrants : P.grants evicted.isEmpty (sizeofFile * (evicted.length + 1)) = true := by
    rw [hglibc]
    simp [sizeofFile]
  have hsingle : htableEvictSingleFile P t (drawsFrom draws k n ++ more) =
      .ok (some a, t', more) := by
    simp only [htableEvictSingleFile, h.policy, htableEvictSingleFileSegmentedFifo,
      if_neg (Nat.ne_of_gt hitems), hloop more, Exec.ok_bind, Exec.pure_eq_ok]
  simp [evictRound, Nat.mod_eq_of_lt hcount, hgrants, hsingle, Heap.load_of_read hread, hfile]

/-- So does the loop: every round frees an item. -/
theorem SegmentedReady.loop_ends {age : CStr → Nat} (hglibc : ReallocFreesEmpty P) {fuel : Nat}
    (h : SegmentedReady P age t L) (hfair : FairDraws L.length draws) (hfuel : t.items.live < fuel)
    (evicted : List File) (hcount : evicted.length + t.items.live < unsignedSize) (k : Nat) :
    ∃ n t' evicted', ∀ more, evictLoop P fuel t evicted (drawsFrom draws k n ++ more) =
      .ok (t', evicted', more) := by
  induction fuel generalizing t L evicted k with
  | zero => exact absurd hfuel (Nat.not_lt_zero _)
  | succ fuel ih =>
    by_cases hlimits : t.exceedsLimits
    · have hpos := h.items_pos hlimits
      rw [h.counted.items] at hpos
      have hle := h.length_le_live
      have hcount₁ : evicted.length + 1 < unsignedSize := by
        have hlive : 0 < t.items.live := hpos.trans_le hle
        omega
      obtain ⟨n, f, t₁, hround⟩ := h.round_ends hglibc hfair hlimits hcount₁ k
      obtain ⟨a, g, -, -, -, h₁⟩ := h.round (hround [])
      obtain ⟨b, g', hev, -, -, -⟩ := h.evictRound_ok (hround [])
      have hfreed := hev.live
      have hlength : (L.drop a).length = L.length := List.length_map _
      obtain ⟨m, t', evicted', hloop⟩ := ih h₁ (hlength ▸ hfair) (by omega) (evicted ++ [f])
        (by rw [List.length_append, List.length_singleton]; omega) (k + n)
      refine ⟨n + m, t', evicted', fun more => ?_⟩
      rw [evictLoop, if_pos hlimits, drawsFrom_add, List.append_assoc, hround, Exec.ok_bind]
      exact hloop more
    · exact ⟨0, t, evicted, fun more => by rw [evictLoop, if_neg hlimits]; rfl⟩

/-- The eviction of a write ends after some number of draws. -/
theorem SegmentedReady.evictFiles_ends {age : CStr → Nat} (h : SegmentedReady P age t L)
    (hglibc : ReallocFreesEmpty P) (hfair : FairDraws L.length draws)
    (hcount : t.items.live < unsignedSize) :
    ∃ n r, htableEvictFiles P t (drawsFrom draws 0 n) = .ok r := by
  obtain ⟨n, t', evicted, hloop⟩ := h.loop_ends hglibc hfair (Nat.lt_succ_self _) []
    (by rw [List.length_nil, Nat.zero_add]; exact hcount) 0
  have hx := hloop []
  rw [List.append_nil] at hx
  exact ⟨n, (evicted, t'), by rw [htableEvictFiles, hx]; rfl⟩

end

/-! ## 3. The handlers -/

section

variable {P : Platform} {t : HTable} {L : Contents} {fd : Int} {rands : List Nat}

theorem File.Sized.contents_returns {file : File} (h : file.Sized) :
    ∃ contents, fileContents file = .ok contents :=
  ⟨_, by rw [fileContents, if_pos (Nat.le_of_eq h.1.symm)]⟩

theorem File.Sized.writeFileBytes_returns {file : File} (h : file.Sized) (fd : Int) :
    ∃ writes, writeFileBytes fd file = .ok writes := by
  obtain ⟨contents, hcontents⟩ := h.contents_returns
  exact ⟨_, by rw [writeFileBytes, hcontents]; rfl⟩

theorem writeEvicted_returns {evicted : List File} (h : ∀ f ∈ evicted, f.Sized) (fd : Int) :
    ∃ writes, writeEvicted fd evicted = .ok writes := by
  induction evicted with
  | nil => exact ⟨[], rfl⟩
  | cons file evicted ih =>
    obtain ⟨first, hfirst⟩ := (h file List.mem_cons_self).writeFileBytes_returns fd
    obtain ⟨rest, hrest⟩ := ih fun f hf => h f (List.mem_cons_of_mem _ hf)
    exact ⟨first ++ rest, by rw [writeEvicted, hfirst, Exec.ok_bind, hrest]; rfl⟩

theorem Yields.readNFilesLoop_returns {visitor : HTableVisitor} {files : List File}
    (h : Yields (htableVisitorNext t) visitor files) (hsized : ∀ f ∈ files, f.Sized) {fuel : Nat}
    (hfuel : files.length < fuel) (fd : Int) :
    ∃ writes, readNFilesLoop t fd fuel visitor = .ok writes := by
  induction h generalizing fuel with
  | nil hnext =>
    cases fuel with
    | zero => exact absurd hfuel (Nat.not_lt_zero _)
    | succ fuel => exact ⟨[], by rw [readNFilesLoop, hnext]; rfl⟩
  | cons hnext rest ih =>
    rename_i file files
    cases fuel with
    | zero => exact absurd hfuel (Nat.not_lt_zero _)
    | succ fuel =>
      obtain ⟨first, hfirst⟩ := (hsized file List.mem_cons_self).writeFileBytes_returns fd
      obtain ⟨more, hmore⟩ := ih (fun f hf => hsized f (List.mem_cons_of_mem _ hf))
        (Nat.lt_of_succ_lt_succ hfuel)
      refine ⟨first ++ more, ?_⟩
      rw [readNFilesLoop, hnext, Exec.ok_bind]
      simp only [hfirst, hmore, Exec.ok_bind, Exec.pure_eq_ok]

theorem Op.touches_ne_drop {op : Op} (hop : op.touches) (f : File) : op.verdict (some f) ≠ .drop := by
  cases op with
  | create | remove | replace | append => cases hop
  | «open» | close | lock | unlock =>
    simp only [Op.verdict]
    grind

/-- Only `htable_lock_file` has an assertion that can fail. -/
theorem Op.abort_iff {op : Op} {f : File} : op.verdict (some f) = .abort ↔
    ∃ key fd, op = .lock key fd ∧ f.isLocked = false ∧ f.subs ≠ [] := by
  cases op with
  | create | replace | append => simp [Op.verdict]
  | «open» | close | unlock | remove =>
    simp only [Op.verdict]
    grind
  | lock key fd =>
    simp only [Op.verdict]
    grind

theorem Stored.touch_returns_iff (h : Stored P t L) {op : Op} (hop : op.touches) :
    (∃ r, op.exec P t rands = .ok r) ↔ op.verdict (fileAt L op.key) ≠ .abort := by
  rcases h.exec_touch hop rands with ⟨hnone, hexec⟩ | ⟨a, f, hsome, hexec⟩
  · rw [hexec, fileAt_of_lookup_none hnone]
    cases op with
    | create | remove | replace | append => cases hop
    | «open» | close | lock | unlock => simp [Op.verdict]
  · rw [hexec, fileAt_of_lookup hsome]
    cases hverdict : op.verdict (some f) with
    | refuse code => simp
    | put code newOwner f' => simp
    | abort => simp
    | drop => exact absurd hverdict (Op.touches_ne_drop hop f)

theorem Stored.create_returns (h : Stored P t L) (hpolicy : t.policy = .segmentedFifo)
    (hroom : t.items.live + 1 < wordSize) (key : CStr) (fd : Int) (withLock : Bool) :
    ∃ r, htableCreateFile P t key fd withLock = .ok r := by
  rcases h.exec_create key fd withLock with
    ⟨e, -, hexec⟩ | ⟨-, hfull, -⟩ | ⟨t', -, -, hsame, -, -, hexec⟩
  · exact ⟨_, hexec⟩
  · omega
  · have hne : t'.policy ≠ .fifo := by
      rw [hsame.policy, hpolicy]
      decide
    rw [createStatsSection, if_neg hne] at hexec
    exact ⟨_, hexec⟩

theorem Stored.remove_returns (h : Stored P t L) (key : CStr) (fd : Int) :
    ∃ r, htableRemoveFile P t key fd = .ok r := by
  unfold htableRemoveFile
  rcases h.removeSection_eq key fd with
    ⟨-, hexec⟩ | ⟨a, f, -, ⟨-, -, hexec⟩ | ⟨-, t₁, -, hexec⟩⟩
  · exact ⟨_, by rw [hexec]; rfl⟩
  · exact ⟨_, by rw [hexec]; rfl⟩
  · exact ⟨_, by rw [hexec]; rfl⟩

theorem budget_sublist (maxVisits visits : Nat) (files : List File) :
    (budget maxVisits visits files).Sublist files := by
  rw [budget]
  split
  · exact List.Sublist.refl _
  · exact List.take_sublist _ _

/-- Whatever limit the client sends, the visit ends and every file of it can be sent. -/
theorem Stored.readNFiles_returns (h : Stored P t L) (n : Nat) (fd : Int) (rands : List Nat) :
    ∃ r, (ParsedRequest.readNFiles n).handle P t fd rands = .ok r := by
  obtain ⟨visitor, hvisit, hyields⟩ := h.toLinked.visit (UInt32.ofNat n)
  have hsame : htableVisit t n = .ok visitor := by
    rw [← hvisit, htableVisit, htableVisit, UInt32.toNat_ofNat', Nat.mod_mod]
  have hsub := (budget_sublist (UInt32.ofNat n).toNat 0 t.reachedFiles).trans
    h.toLinked.reachedFiles_sublist
  have hsized : ∀ f ∈ budget (UInt32.ofNat n).toNat 0 t.reachedFiles, f.Sized := by
    intro f hf
    have hmem := hsub.subset hf
    rw [h.linkedFiles_eq] at hmem
    obtain ⟨e, he, rfl⟩ := List.mem_map.mp hmem
    exact h.sized e he
  have hfuel : (budget (UInt32.ofNat n).toNat 0 t.reachedFiles).length < t.items.live + 1 := by
    have hlive := h.length_le_live
    have hle := hsub.length_le
    rw [h.linkedFiles_length] at hle
    omega
  obtain ⟨writes, hwrites⟩ := hyields.readNFilesLoop_returns hsized hfuel fd
  exact ⟨_, by
    rw [ParsedRequest.handle, hsame, Exec.ok_bind, hwrites]
    rfl⟩

/-- The sections of a write end the server or leave the table for the eviction loop. -/
theorem Stored.replaceSections_returns (h : Stored P t L) (key : CStr) (contents : List UInt8)
    (hexit : (Op.replace key contents).writeSections P t ≠ .error .exit) :
    ∃ r, (Op.replace key contents).writeSections P t = .ok r := by
  rcases h.fetchItem key with ⟨hnone, hfetch⟩ | ⟨a, item, hsome, -, -, hfetch⟩
  · exact ⟨none, by simp [Op.writeSections, replaceSection, hfetch]⟩
  · simp only [Op.writeSections, replaceSection, hfetch, Exec.ok_bind, bind_assoc] at hexit ⊢
    rcases xrealloc_cases P item.file.contents contents.length with hx | ⟨block, hx⟩
    · rw [hx] at hexit
      exact absurd rfl hexit
    · obtain ⟨-, rfl⟩ := xrealloc_eq_ok.mp hx
      rw [hx, Exec.ok_bind, memcpy_zero (resize_length _ _)]
      exact ⟨_, rfl⟩

end

/-! ## 4. What a server survives -/

/-- The request ends the server: it asks for the lock of an unlocked file that has waiters, or it
leaves a file empty that was written before. -/
def ParsedRequest.EndsServer (P : Platform) (tr : List (HTable × Call)) (t : HTable) :
    ParsedRequest → Prop
  | .lockFile path =>
      ∃ f, htableFetchFile P t path = .ok (some f) ∧ f.isLocked = false ∧ f.subs ≠ []
  | .writeFile path contents => contents = [] ∧ WrittenSince P path tr t
  | .readFile _ | .readNFiles _ | .openFile _ _ _ | .unlockFile _ | .closeFile _ | .removeFile _ =>
      False

/-- A `writeFile` payload that passes the check of its length with sizes whose sum wraps. -/
def ReadsBehind (raw : List UInt8) : Prop :=
  ∃ op payload arg1Size arg2Size, messageRequest raw = .ok (some (op, payload)) ∧
    ApiOp.ofByte op = some .writeFile ∧ HasSizes payload arg1Size arg2Size ∧
    payload.length = wadd (wadd 16 arg1Size) arg2Size ∧ wordSize ≤ 16 + arg1Size + arg2Size

section

variable {P : Platform} {buckets : Nat} {config : Config} {tr : List (HTable × Call)} {t : HTable}
  {fd : Int} {draws : Nat → Nat}

/-- A handler returns when its table operation does: the evicted files can be sent. -/
theorem Stored.handle_returns_iff {L : Contents} (h : Stored P t L) {request : ParsedRequest}
    {o : Op} (hop : request.tableOp fd = some o) {rands : List Nat} :
    (∃ r, request.handle P t fd rands = .ok r) ↔ ∃ r, o.exec P t rands = .ok r := by
  constructor
  · rintro ⟨⟨writes, t'⟩, hx⟩
    rcases ParsedRequest.handle_cases hx with ⟨hnone, -, -⟩ | ⟨o', out, hop', hexec, -⟩
    · rw [hop] at hnone
      cases hnone
    · rw [hop] at hop'
      obtain rfl := Option.some.inj hop'
      exact ⟨_, hexec⟩
  · rintro ⟨⟨out, t'⟩, hexec⟩
    cases request with
    | readFile | readNFiles => cases hop
    | openFile path create lock =>
      have hopen : ∃ r, htableOpenOrCreateFile P t path fd create lock = .ok r := by
        cases create with
        | true | false =>
          obtain rfl := Option.some.inj hop
          obtain ⟨r, hr, -⟩ := Exec.bind_eq_ok.mp hexec
          exact ⟨r, hr⟩
      obtain ⟨r, hr⟩ := hopen
      exact ⟨_, by rw [ParsedRequest.handle, hr]; rfl⟩
    | writeFile path contents =>
      obtain rfl := Option.some.inj hop
      obtain ⟨L', heffect⟩ := effect_of_exec h hexec
      obtain ⟨⟨code, evicted, t₁⟩, hr, hout⟩ := Exec.bind_eq_ok.mp hexec
      cases hout
      obtain ⟨writes, hwrites⟩ := writeEvicted_returns (heffect.evicted_sized h) fd
      simp only at hwrites
      rw [ParsedRequest.handle, hr, Exec.ok_bind]
      simp only [hwrites, Exec.ok_bind]
      exact ⟨_, rfl⟩
    | unlockFile path | lockFile path | closeFile path | removeFile path =>
      obtain rfl := Option.some.inj hop
      obtain ⟨r, hr, -⟩ := Exec.bind_eq_ok.mp hexec
      exact ⟨_, by rw [ParsedRequest.handle, hr]; rfl⟩

theorem SequentialRun.write_returns_iff (run : SequentialRun P buckets config tr t)
    (hpolicy : config.cacheEvictionPolicy = .segmentedFifo) (hglibc : ReallocFreesEmpty P)
    (hfew : t.linkedFiles.length + 1 < unsignedSize) (hfair : FairDraws t.buckets.length draws)
    {path : CStr} {contents : List UInt8} (hsize : contents.length < wordSize) :
    (∃ n r, (Op.replace path contents).exec P t (drawsFrom draws 0 n) = .ok r) ↔
      ¬(contents = [] ∧ WrittenSince P path tr t) := by
  obtain ⟨L, hs, hc, hy⟩ := run.youngestFirst
  have hexits := hs.exits_iff_block hglibc (.replace path contents) hsize
  have hop : (Op.replace path contents).writes = true := rfl
  constructor
  · rintro ⟨n, r, hx⟩ ⟨hnone, hwritten⟩
    obtain ⟨f, hf⟩ := hwritten.holds
    have hexit := hexits.mpr
      ⟨f, hf, (run.block_iff hf).mpr hwritten, by rw [Op.requestedSize, hnone]; rfl⟩
    rw [Op.exec_write hop, hexit] at hx
    cases hx
  · intro hnot
    obtain ⟨-, L₀, hs₀, hlive⟩ := run.left
    have hne : (Op.replace path contents).writeSections P t ≠ .error .exit := by
      intro hexit
      obtain ⟨f, hf, hblock, hzero⟩ := hexits.mp hexit
      exact hnot ⟨List.length_eq_zero_iff.mp (Option.some.inj hzero), (run.block_iff hf).mp hblock⟩
    obtain ⟨r, hsections⟩ := hs.replaceSections_returns path contents hne
    rcases writeSections_ok hs hop hsections with
      ⟨-, rfl⟩ | ⟨a, f, f', hlook, hverdict, hlength, rfl⟩
    · exact ⟨0, _, by rw [Op.exec_write hop, hsections]; rfl⟩
    · have hready : SegmentedReady P (createdAt P tr) (t.written (.replace path contents) a f f')
          (L.setFile a f') :=
        .written hs hc hy (run.policy.trans hpolicy) hop hlook hverdict hlength
      have hcount : (t.written (.replace path contents) a f f').items.live < unsignedSize := by
        have hsame : (t.written (.replace path contents) a f f').items.live = t.items.live :=
          Heap.live_modify _ _ _
        rw [hs₀.linkedFiles_length, ← hlive] at hfew
        omega
      have hbuckets : (L.setFile a f').length = t.buckets.length := hready.length
      obtain ⟨n, ⟨evicted, t'⟩, hloop⟩ := hready.evictFiles_ends hglibc (hbuckets ▸ hfair) hcount
      exact ⟨n, _, by rw [Op.exec_write hop, hsections, Exec.ok_bind]; simp only [hloop]; rfl⟩

/-- A request that looks at one file returns unless an assertion fails. -/
theorem Stored.touch_request_returns_iff {L : Contents} (h : Stored P t L) {request : ParsedRequest}
    {o : Op} (hop : request.tableOp fd = some o) (htouch : o.touches) :
    (∃ n r, request.handle P t fd (drawsFrom draws 0 n) = .ok r) ↔
      ¬∃ f, htableFetchFile P t o.key = .ok (some f) ∧ o.verdict (some f) = .abort := by
  have hone : ∀ n, (∃ r, request.handle P t fd (drawsFrom draws 0 n) = .ok r) ↔
      ¬∃ f, htableFetchFile P t o.key = .ok (some f) ∧ o.verdict (some f) = .abort := by
    intro n
    rw [h.handle_returns_iff hop, h.touch_returns_iff htouch, h.fetchFile]
    cases hfile : fileAt L o.key with
    | some f => simp
    | none =>
      cases o with
      | create | remove | replace | append => cases htouch
      | «open» | close | lock | unlock => simp [Op.verdict]
  constructor
  · rintro ⟨n, r⟩
    exact (hone n).mp r
  · intro hnot
    exact ⟨0, (hone 0).mpr hnot⟩

/-- The handler of a request returns, after some number of draws, unless the request ends the
server. -/
theorem SequentialRun.request_returns_iff (run : SequentialRun P buckets config tr t)
    (hpolicy : config.cacheEvictionPolicy = .segmentedFifo) (hglibc : ReallocFreesEmpty P)
    (hfew : t.linkedFiles.length + 1 < unsignedSize) (hfair : FairDraws t.buckets.length draws)
    {request : ParsedRequest}
    (hsize : ∀ path contents, request = .writeFile path contents → contents.length < wordSize)
    (fd : Int) :
    (∃ n r, request.handle P t fd (drawsFrom draws 0 n) = .ok r) ↔ ¬request.EndsServer P tr t := by
  obtain ⟨-, L, hs, hlive⟩ := run.left
  -- of the requests that look at one file only `lockFile` has an assertion
  have hnever : ∀ o, request.tableOp fd = some o → o.touches = true →
      (∀ key fd, o ≠ .lock key fd) →
        ∃ n r, request.handle P t fd (drawsFrom draws 0 n) = .ok r := by
    intro o hop htouch hlock
    refine (hs.touch_request_returns_iff hop htouch).mpr ?_
    rintro ⟨f, -, habort⟩
    obtain ⟨key, fd', rfl, -⟩ := Op.abort_iff.mp habort
    exact hlock key fd' rfl
  cases request with
  | readFile path =>
    refine ⟨fun _ h => h, fun _ => ⟨0, ?_⟩⟩
    rw [ParsedRequest.handle, hs.fetchFile, Exec.ok_bind]
    cases hfile : fileAt L path with
    | none => exact ⟨_, rfl⟩
    | some f =>
      obtain ⟨a, hmem, -⟩ := hs.fileAt_iff.mp hfile
      obtain ⟨contents, hcontents⟩ := (hs.sized _ hmem).contents_returns
      simp only at hcontents
      exact ⟨_, by simp only [hcontents]; rfl⟩
  | readNFiles n =>
    obtain ⟨r, hr⟩ := hs.readNFiles_returns n fd (drawsFrom draws 0 0)
    exact ⟨fun _ h => h, fun _ => ⟨0, r, hr⟩⟩
  | openFile path create lock =>
    refine ⟨fun _ h => h, fun _ => ?_⟩
    cases create with
    | false => exact hnever _ rfl rfl fun _ _ h => by cases h
    | true =>
      have hroom : t.items.live + 1 < wordSize := by
        rw [hs.linkedFiles_length, ← hlive] at hfew
        exact hfew.trans (by decide)
      obtain ⟨r, hr⟩ := hs.create_returns (run.policy.trans hpolicy) hroom path fd lock
      refine ⟨0, (hs.handle_returns_iff rfl).mpr ?_⟩
      exact ⟨_, by
        rw [Op.exec, htableOpenOrCreateFile, if_pos rfl, hr]
        rfl⟩
  | writeFile path contents =>
    refine Iff.trans (exists_congr fun n => hs.handle_returns_iff rfl) ?_
    exact run.write_returns_iff hpolicy hglibc hfew hfair (hsize path contents rfl)
  | lockFile path =>
    rw [hs.touch_request_returns_iff (o := .lock path fd) rfl rfl]
    refine not_congr (exists_congr fun f => and_congr Iff.rfl ?_)
    rw [Op.abort_iff]
    simp
  | unlockFile path =>
    exact ⟨fun _ h => h, fun _ => hnever _ rfl rfl fun _ _ h => by cases h⟩
  | closeFile path =>
    exact ⟨fun _ h => h, fun _ => hnever _ rfl rfl fun _ _ h => by cases h⟩
  | removeFile path =>
    refine ⟨fun _ h => h, fun _ => ⟨0, (hs.handle_returns_iff rfl).mpr ?_⟩⟩
    obtain ⟨r, hr⟩ := hs.remove_returns path fd
    exact ⟨_, by
      rw [Op.exec, hr]
      rfl⟩

end

/-! ## 5. Messages -/

theorem exists_hasSizes {buffer : List UInt8} (h : 16 ≤ buffer.length) :
    ∃ arg1Size arg2Size, HasSizes buffer arg1Size arg2Size := by
  refine ⟨_, _, h, bigEndianToU64_eq_ok.mpr ⟨by omega, rfl⟩, bigEndianToU64_eq_ok.mpr ⟨?_, rfl⟩⟩
  rw [List.length_drop]
  omega

/-- The arguments of a `writeFile` payload are read unless its sizes wrap. -/
theorem writeFileArgs_returns_iff (payload : List UInt8) :
    (∃ r, writeFileArgs payload = .ok r) ↔
      ¬∃ arg1Size arg2Size, HasSizes payload arg1Size arg2Size ∧
        payload.length = wadd (wadd 16 arg1Size) arg2Size ∧ wordSize ≤ 16 + arg1Size + arg2Size := by
  by_cases hshort : payload.length < 16
  · have hnone : writeFileArgs payload = .ok none := by
      rw [writeFileArgs, if_pos hshort]
      rfl
    refine ⟨fun _ hwrap => ?_, fun _ => ⟨none, hnone⟩⟩
    obtain ⟨arg1Size, arg2Size, hsizes, -⟩ := hwrap
    exact absurd hsizes.header (Nat.not_le.mpr hshort)
  · obtain ⟨arg1Size, arg2Size, hsizes⟩ := exists_hasSizes (Nat.not_lt.mp hshort)
    rw [hsizes.writeFileArgs_eq]
    constructor
    · rintro ⟨r, hr⟩ ⟨arg1Size', arg2Size', hsizes', hpass, hwrap⟩
      obtain rfl : arg1Size' = arg1Size := Except.ok.inj (hsizes'.arg1.symm.trans hsizes.arg1)
      obtain rfl : arg2Size' = arg2Size := Except.ok.inj (hsizes'.arg2.symm.trans hsizes.arg2)
      rw [if_neg (by simpa using hpass), if_pos (hsizes.behind_of_wrap hpass hwrap)] at hr
      cases hr
    · intro hnot
      by_cases hpass : payload.length = wadd (wadd 16 arg1Size) arg2Size
      · have hlt : 16 + arg1Size + arg2Size < wordSize :=
          Nat.lt_of_not_le fun hwrap => hnot ⟨_, _, hsizes, hpass, hwrap⟩
        rw [wadd_of_lt (show 16 + arg1Size < wordSize by omega), wadd_of_lt hlt] at hpass
        rw [if_neg (by
          rw [wadd_of_lt (show 16 + arg1Size < wordSize by omega), wadd_of_lt hlt]
          simpa using hpass), if_neg (by omega)]
        exact ⟨_, rfl⟩
      · exact ⟨none, if_pos hpass⟩

/-- The arguments of every message that a worker gets can be read, unless the sizes in it wrap. -/
theorem requestOf_returns_iff {raw : List UInt8} {request : Option (UInt8 × List UInt8)}
    (hx : messageRequest raw = .ok request) :
    (∃ r, requestOf raw = .ok r) ↔ ¬ReadsBehind raw := by
  rw [requestOf, hx, Exec.ok_bind]
  cases request with
  | none =>
    refine ⟨fun _ hbehind => ?_, fun _ => ⟨none, rfl⟩⟩
    obtain ⟨op, payload, -, -, hx', -⟩ := hbehind
    rw [hx] at hx'
    cases hx'
  | some request =>
    obtain ⟨op, payload⟩ := request
    have hbehind : ReadsBehind raw ↔ ApiOp.ofByte op = some .writeFile ∧
        ∃ arg1Size arg2Size, HasSizes payload arg1Size arg2Size ∧
          payload.length = wadd (wadd 16 arg1Size) arg2Size ∧
            wordSize ≤ 16 + arg1Size + arg2Size := by
      simp [ReadsBehind, hx]
    rw [hbehind]
    cases hop : ApiOp.ofByte op with
    | none => simp [hop]
    | some api =>
      cases api with
      | writeFile =>
        simp only [hop, ApiOp.request, true_and]
        rw [← writeFileArgs_returns_iff]
        cases hargs : writeFileArgs payload with
        | error e => simp
        | ok args =>
          refine ⟨fun _ => ⟨args, rfl⟩, fun _ => ?_⟩
          cases args with
          | none => exact ⟨none, rfl⟩
          | some args => exact ⟨_, rfl⟩
      | readNFiles =>
        simp only [hop, ApiOp.request]
        by_cases hlength : payload.length = 8
        · have hn := bigEndianToU64_eq_ok.mpr ⟨Nat.le_of_eq hlength.symm, rfl⟩
          rw [if_neg (not_not.mpr hlength), hn]
          simp
        · rw [if_pos hlength]
          simp
      | openConnection | closeConnection | openFile | openFileCreate | openFileLock
      | openFileCreateLock | readFile | appendToFile | lockFile | unlockFile | closeFile
      | removeFile => simp [hop, ApiOp.request]

/-- The contents are as long as a size in the payload says, or shorter. -/
theorem writeFileArgs_size {payload : List UInt8} {path : CStr} {contents : List UInt8}
    (hx : writeFileArgs payload = .ok (some (path, contents))) : contents.length < wordSize := by
  by_cases hshort : payload.length < 16
  · rw [writeFileArgs, if_pos hshort] at hx
    cases hx
  · obtain ⟨arg1Size, arg2Size, hsizes⟩ := exists_hasSizes (Nat.not_lt.mp hshort)
    have harg2 := bigEndianToU64_lt hsizes.arg2
    rw [hsizes.writeFileArgs_eq] at hx
    split at hx
    · cases hx
    · split at hx
      · cases hx
      · cases hx
        exact (List.length_take_le _ _).trans_lt harg2

theorem requestOf_writeFile_size {raw : List UInt8} {path : CStr} {contents : List UInt8}
    (hx : requestOf raw = .ok (some (.writeFile path contents))) : contents.length < wordSize := by
  obtain ⟨request, -, hx⟩ := Exec.bind_eq_ok.mp hx
  cases request with
  | none => cases hx
  | some request =>
    obtain ⟨op, payload⟩ := request
    simp only at hx
    cases hop : ApiOp.ofByte op with
    | none =>
      rw [hop] at hx
      cases hx
    | some api =>
      rw [hop] at hx
      cases api with
      | writeFile =>
        obtain ⟨args, hargs, hx⟩ := Exec.bind_eq_ok.mp hx
        cases args with
        | none => cases hx
        | some args =>
          cases hx
          exact writeFileArgs_size hargs
      | readNFiles =>
        simp only [ApiOp.request] at hx
        split at hx
        · cases hx
        · obtain ⟨n, -, hx⟩ := Exec.bind_eq_ok.mp hx
          cases hx
      | openConnection | closeConnection | openFile | openFileCreate | openFileLock
      | openFileCreateLock | readFile | appendToFile | lockFile | unlockFile | closeFile
      | removeFile => cases hx

/-- Under segmented FIFO, with memory available and draws that hit every bucket again and again, a
worker that gets a message comes back for the next one, unless the message is one of those that end
the server. -/
theorem message_survived_iff {P : Platform} {buckets : Nat} {config : Config}
    {tr : List (HTable × Call)} {t : HTable} (run : SequentialRun P buckets config tr t)
    (hpolicy : config.cacheEvictionPolicy = .segmentedFifo) (hglibc : ReallocFreesEmpty P)
    (hfew : t.linkedFiles.length + 1 < unsignedSize) {draws : Nat → Nat}
    (hfair : FairDraws t.buckets.length draws) {buffer : Buffer} (hbuffer : WellFormed buffer)
    (fd : Int) :
    (∃ n r, workerHandleMessage P t fd buffer.raw (drawsFrom draws 0 n) = .ok r) ↔
      ¬ReadsBehind buffer.raw ∧
        ∀ request, requestOf buffer.raw = .ok (some request) → ¬request.EndsServer P tr t := by
  obtain ⟨parsed, hparsed, -⟩ := hbuffer.request
  rw [← requestOf_returns_iff hparsed]
  simp only [workerHandleMessage_parsed]
  cases hrequest : requestOf buffer.raw with
  | error e => simp
  | ok request =>
    cases request with
    | none => exact ⟨fun _ => ⟨⟨none, rfl⟩, fun _ h => by cases h⟩, fun _ => ⟨0, _, rfl⟩⟩
    | some request =>
      have hsize : ∀ path contents, request = .writeFile path contents →
          contents.length < wordSize :=
        fun path contents heq => requestOf_writeFile_size (heq ▸ hrequest)
      have hiff := run.request_returns_iff hpolicy hglibc hfew hfair hsize fd
      refine Iff.trans hiff ⟨fun h => ⟨⟨_, rfl⟩, fun request' heq => ?_⟩, fun h => h.2 request rfl⟩
      cases heq
      exact h

/-- Draws that go round the buckets. -/
theorem fairDraws_id (buckets : Nat) : FairDraws buckets id := by
  intro i hi k
  refine ⟨k * buckets + i, (Nat.le_mul_of_pos_right k (by omega)).trans (Nat.le_add_right _ _), ?_⟩
  rw [id, Nat.mul_comm, Nat.mul_add_mod, Nat.mod_eq_of_lt hi]

/-- The message by which a client writes the file of a path of one byte. -/
def writeMessage (path : UInt8) (contents : List UInt8) : Buffer :=
  let raw := u64ToBigEndian headerMagicCode ++ u64ToBigEndian (18 + contents.length) ++ [8] ++
    u64ToBigEndian 1 ++ u64ToBigEndian contents.length ++ path :: contents
  ⟨raw.length, raw⟩

/-- A message that has one file evict another, and one that leaves a file empty. -/
theorem message_survived_iff_evicting :
    ∃ tr t, SequentialRun samplePlatform 2 ⟨3, 2, .segmentedFifo⟩ tr t ∧
      (∃ n r, workerHandleMessage samplePlatform t 3 (writeMessage 98 [8, 8]).raw
        (drawsFrom id 0 n) = .ok r) ∧
      ∀ n r, workerHandleMessage samplePlatform t 3 (writeMessage 97 []).raw
        (drawsFrom id 0 n) ≠ .ok r := by
  obtain ⟨tr, t, run, htest⟩ := SequentialRun.of_run_test samplePlatform 2 ⟨3, 2, .segmentedFifo⟩
    [⟨.create (bufToStr [97]) 3 false, []⟩, ⟨.replace (bufToStr [97]) [7, 7], []⟩,
      ⟨.create (bufToStr [98]) 3 false, []⟩]
    (fun tr t => decide (t.linkedFiles.length + 1 < unsignedSize ∧ t.buckets.length = 2) &&
      (htableFetchFile samplePlatform t (bufToStr [97])).anySome fun f => f.contents.isSome)
    (by decide +kernel)
  simp only [Bool.and_eq_true, decide_eq_true_eq] at htest
  obtain ⟨⟨hfew, hbuckets⟩, htest⟩ := htest
  obtain ⟨f, hf, hblock⟩ := Exec.anySome_eq_true.mp htest
  have hfair : FairDraws t.buckets.length id := hbuckets ▸ fairDraws_id 2
  have hsome : requestOf (writeMessage 98 [8, 8]).raw =
      .ok (some (.writeFile (bufToStr [98]) [8, 8])) := by decide +kernel
  have hnone : requestOf (writeMessage 97 []).raw =
      .ok (some (.writeFile (bufToStr [97]) [])) := by decide +kernel
  have hraw : messageRequest (writeMessage 98 [8, 8]).raw =
      .ok (some (8, (writeMessage 98 [8, 8]).raw.drop 17)) := by decide +kernel
  have hraw' : messageRequest (writeMessage 97 []).raw =
      .ok (some (8, (writeMessage 97 []).raw.drop 17)) := by decide +kernel
  have hwf : WellFormed (writeMessage 98 [8, 8]) :=
    ⟨rfl, by decide +kernel, ⟨_, hraw, fun _ _ h => by cases h; rfl⟩, fun _ => by decide +kernel⟩
  have hwf' : WellFormed (writeMessage 97 []) :=
    ⟨rfl, by decide +kernel, ⟨_, hraw', fun _ _ h => by cases h; rfl⟩, fun _ => by decide +kernel⟩
  refine ⟨tr, t, run, ?_, fun n r hx => ?_⟩
  · refine (message_survived_iff run rfl samplePlatform_reallocFreesEmpty hfew hfair hwf 3).mpr
      ⟨(requestOf_returns_iff hraw).mp ⟨_, hsome⟩, fun request hrequest => ?_⟩
    rw [hsome, Except.ok.injEq, Option.some.injEq] at hrequest
    subst hrequest
    exact fun hends => absurd hends.1 (by decide)
  · refine ((message_survived_iff run rfl samplePlatform_reallocFreesEmpty hfew hfair hwf' 3).mp
      ⟨n, r, hx⟩).2 _ hnone ⟨rfl, (run.block_iff hf).mp hblock⟩

end FileStorage.Server
