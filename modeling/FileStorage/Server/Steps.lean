import FileStorage.Server.Stored

/-!
# Steps — one operation as a step on the contents

`Effect` says once everything an operation that returns can do to the table.  What holds over
runs is proved from it and never from the code again.
-/

namespace FileStorage.Server

open Memory

/-! ## 1. The eviction loop -/

/-- The rounds of the eviction loop, down to a table within its limits. -/
inductive Evictions (P : Platform) : HTable → Contents → List File → HTable → Contents → Prop
  | done {t : HTable} {L : Contents} (hlimits : ¬t.exceedsLimits) : Evictions P t L [] t L
  | round {t t₁ t' : HTable} {L L' : Contents} {a : Addr} {f : File} {evicted : List File}
      (hlimits : t.exceedsLimits) (hev : Linked.Evicted P t L a f t₁)
      (rest : Evictions P t₁ (L.drop a) evicted t' L') : Evictions P t L (f :: evicted) t' L'

theorem evictRound_length {P : Platform} {t t' : HTable} {evicted evicted' : List File}
    {rands rands' : List Nat} (hx : evictRound P t evicted rands = .ok (t', evicted', rands')) :
    evicted'.length = evicted.length + 1 ∧ (evicted.length + 1) % unsignedSize ≠ 0 := by
  unfold evictRound at hx
  simp only at hx
  split at hx
  · cases hx
  · obtain ⟨⟨p, t₁, rands₁⟩, -, hx⟩ := Exec.bind_eq_ok.mp hx
    cases p with
    | none => cases hx
    | some a =>
      obtain ⟨item, -, hx⟩ := Exec.bind_eq_ok.mp hx
      split at hx
      · cases hx
      · rename_i hcount
        cases hx
        exact ⟨List.length_append, hcount⟩

/-- The counter of the evicted files does not wrap: the round in which it would is a fault. -/
theorem evictFiles_length_lt {P : Platform} {t t' : HTable} {evicted : List File}
    {rands : List Nat} (hx : htableEvictFiles P t rands = .ok (evicted, t')) :
    evicted.length < unsignedSize := by
  have hloop : ∀ {fuel : Nat} {t t' : HTable} {evicted evicted' : List File}
      {rands rands' : List Nat}, evicted.length < unsignedSize →
      evictLoop P fuel t evicted rands = .ok (t', evicted', rands') →
        evicted'.length < unsignedSize := by
    -- on the rounds, with the files that are evicted already
    intro fuel
    induction fuel with
    | zero =>
      intro t t' evicted evicted' rands rands' hlt hx
      unfold evictLoop at hx
      split at hx
      · cases hx
      · cases hx
        exact hlt
    | succ fuel ih =>
      intro t t' evicted evicted' rands rands' hlt hx
      unfold evictLoop at hx
      split at hx
      · obtain ⟨⟨t₁, evicted₁, rands₁⟩, hround, hx⟩ := Exec.bind_eq_ok.mp hx
        obtain ⟨hlength, hcount⟩ := evictRound_length hround
        refine ih ?_ hx
        rw [hlength]
        -- the next length is 2^32 only if the counter is zero
        refine Nat.lt_of_le_of_ne hlt fun heq => hcount ?_
        rw [heq, Nat.mod_self]
      · cases hx
        exact hlt
  obtain ⟨⟨t₁, evicted₁, rands₁⟩, hx, hret⟩ := Exec.bind_eq_ok.mp hx
  cases hret
  exact hloop (by decide) hx

theorem replace_evicted_length {P : Platform} {t t' : HTable} {key : CStr} {contents : List UInt8}
    {rands : List Nat} {code : HTableError} {evicted : List File}
    (hx : htableReplaceFileContents P t key contents rands = .ok (code, evicted, t')) :
    evicted.length < unsignedSize := by
  obtain ⟨found, -, hx⟩ := Exec.bind_eq_ok.mp hx
  cases found with
  | none =>
    cases hx
    decide
  | some replaced =>
    obtain ⟨⟨evicted₁, t₁⟩, hevict, hx⟩ := Exec.bind_eq_ok.mp hx
    cases hx
    exact evictFiles_length_lt hevict

theorem evictLoop_ok {P : Platform} {fuel : Nat} {t t' : HTable} {L : Contents}
    {evicted evicted' : List File} {rands rands' : List Nat} (h : Linked P t L)
    (hx : evictLoop P fuel t evicted rands = .ok (t', evicted', rands')) :
    ∃ more L', evicted' = evicted ++ more ∧ Evictions P t L more t' L' := by
  induction fuel generalizing t L evicted rands with
  | zero =>
    unfold evictLoop at hx
    split at hx
    · cases hx
    · rename_i hlimits
      simp only [Except.ok.injEq, Prod.mk.injEq] at hx
      obtain ⟨rfl, rfl, -⟩ := hx
      exact ⟨[], L, (List.append_nil _).symm, .done hlimits⟩
  | succ fuel ih =>
    unfold evictLoop at hx
    split at hx
    · rename_i hlimits
      obtain ⟨⟨t₁, evicted₁, rands₁⟩, hround, hx⟩ := Exec.bind_eq_ok.mp hx
      obtain ⟨a, f, hev, rfl, -, -⟩ := h.evictRound_ok hround
      obtain ⟨more, L', rfl, hrest⟩ := ih hev.linked hx
      exact ⟨f :: more, L', List.append_assoc _ _ _, .round hlimits hev hrest⟩
    · rename_i hlimits
      simp only [Except.ok.injEq, Prod.mk.injEq] at hx
      obtain ⟨rfl, rfl, -⟩ := hx
      exact ⟨[], L, (List.append_nil _).symm, .done hlimits⟩

theorem evictFiles_ok {P : Platform} {t t' : HTable} {L : Contents} {evicted : List File}
    {rands : List Nat} (h : Linked P t L)
    (hx : htableEvictFiles P t rands = .ok (evicted, t')) :
    ∃ L', Evictions P t L evicted t' L' := by
  obtain ⟨⟨t₁, evicted₁, rands₁⟩, hloop, hx⟩ := Exec.bind_eq_ok.mp hx
  simp only [Exec.pure_eq_ok, Except.ok.injEq, Prod.mk.injEq] at hx
  obtain ⟨rfl, rfl⟩ := hx
  obtain ⟨more, L', hmore, hrounds⟩ := evictLoop_ok h hloop
  rw [List.nil_append] at hmore
  exact ⟨L', hmore ▸ hrounds⟩

namespace Evictions

variable {P : Platform} {t t' : HTable} {L L' : Contents} {evicted : List File}

theorem stored (h : Evictions P t L evicted t' L') (hs : Stored P t L) : Stored P t' L' := by
  induction h with
  | done hlimits => exact hs
  | round hlimits hev rest ih => exact ih (hs.drop hev.mem hev.linked hev.live)

theorem limits (h : Evictions P t L evicted t' L') : ¬t'.exceedsLimits := by
  induction h with
  | done hlimits => exact hlimits
  | round hlimits hev rest ih => exact ih

theorem settings (h : Evictions P t L evicted t' L') : SameSettings t t' := by
  induction h with
  | done hlimits => exact ⟨rfl, rfl, rfl⟩
  | round hlimits hev rest ih => exact hev.settings.trans ih

theorem sized (h : Evictions P t L evicted t' L') (hs : Stored P t L) :
    ∀ f ∈ evicted, f.Sized := by
  induction h with
  | done hlimits => exact nofun
  | round hlimits hev rest ih =>
    intro g hg
    rcases List.mem_cons.mp hg with rfl | hg
    · exact hs.sized _ hev.mem
    · exact ih (hs.drop hev.mem hev.linked hev.live) g hg

/-- The evicted files leave the map one after the other. -/
theorem evicts (h : Evictions P t L evicted t' L') (hs : Stored P t L) :
    Evicts (fileAt L) evicted (fileAt L') := by
  induction h with
  | done hlimits => exact .nil _
  | round hlimits hev rest ih =>
    have hrest := ih (hs.drop hev.mem hev.linked hev.live)
    rw [hs.fileAt_drop hev.mem] at hrest
    exact .cons (hs.fileAt_mem hev.mem) hrest

end Evictions

/-! ## 2. One operation -/

/-- The operations that change one file in place leave its contents alone. -/
theorem Op.verdict_put_contents {op : Op} (hop : op.touches) {f f' : File} {code : HTableError}
    {newOwner : Int} (h : op.verdict (some f) = .put code newOwner f') :
    f'.contents = f.contents ∧ f'.lengthInBytes = f.lengthInBytes := by
  cases op with
  | create | remove | replace | append => simp [Op.touches] at hop
  | «open» | close | lock | unlock => simp only [Op.verdict] at h; grind

theorem Op.verdict_some_key {op : Op} {f f' : File} {code : HTableError} {newOwner : Int}
    (h : op.verdict (some f) = .put code newOwner f') : f'.key = f.key := by
  cases op <;> simp only [Op.verdict] at h <;> grind [File.withBytes]

theorem Op.verdict_write_sized {op : Op} (hop : op.writes) {f f' : File} {code : HTableError}
    {newOwner : Int} (h : op.verdict (some f) = .put code newOwner f')
    (hsize : f'.lengthInBytes < wordSize) : f'.Sized := by
  refine ⟨?_, hsize⟩
  cases op with
  | create | «open» | close | lock | unlock | remove => simp [Op.writes] at hop
  | replace key contents =>
    simp only [Op.verdict, Verdict.put.injEq] at h
    rw [← h.2.2]
    rfl
  | append key contents =>
    simp only [Op.verdict, Verdict.put.injEq] at h
    rw [← h.2.2]
    rfl

/-- What the statistics section of a write that found `old` does. -/
def Op.writeStats (op : Op) (old : File) (s : HTableStats) : HTableStats :=
  match op with
  | .replace _ contents =>
      ((s.addSpace contents.length).subSpace old.lengthInBytes).raiseMaxSpace
  | .append _ contents => (s.addSpace contents.length).raiseMaxSpace
  | _ => s

/-- The table when the eviction loop of a write starts. -/
def HTable.written (t : HTable) (op : Op) (a : Addr) (old file : File) : HTable :=
  { t.setFile a file with stats := op.writeStats old t.stats }

/-- The sections of a write before its eviction loop; `none` when there is no such file. -/
def Op.writeSections (P : Platform) (t : HTable) : Op → Exec (Option HTable)
  | .replace key contents => do
      match ← replaceSection P t key contents with
      | none => return none
      | some (t, oldSizeInBytes) =>
          return some (replaceStatsSection t contents.length oldSizeInBytes)
  | .append key contents => do
      match ← appendSection P t key contents with
      | none => return none
      | some t => return some (appendStatsSection t contents.length)
  | _ => return none

theorem Op.writeSections_of_not_writes {op : Op} (hop : op.writes = false) (P : Platform)
    (t : HTable) : op.writeSections P t = .ok none := by
  cases op with
  | replace | append => cases hop
  | create | «open» | close | lock | unlock | remove => rfl

/-- A write is its sections and then the eviction loop. -/
theorem Op.exec_write {op : Op} (hop : op.writes) (P : Platform) (t : HTable) (rands : List Nat) :
    op.exec P t rands = (do
      match ← op.writeSections P t with
      | none => return (⟨.fileNotFound, -1, []⟩, t)
      | some t₁ =>
          let (evicted, t') ← htableEvictFiles P t₁ rands
          return (⟨.ok, -1, evicted⟩, t')) := by
  cases op with
  | create | «open» | close | lock | unlock | remove => simp [Op.writes] at hop
  | replace key contents =>
    simp only [Op.exec, htableReplaceFileContents, Op.writeSections, bind_assoc]
    cases replaceSection P t key contents with
    | error e => rfl
    | ok r =>
      cases r with
      | none => rfl
      | some r =>
        simp only [Exec.ok_bind, Exec.pure_eq_ok]
        cases htableEvictFiles P (replaceStatsSection r.1 contents.length r.2) rands <;> rfl
  | append key contents =>
    simp only [Op.exec, htableAppendToFileContents, Op.writeSections, bind_assoc]
    cases appendSection P t key contents with
    | error e => rfl
    | ok r =>
      cases r with
      | none => rfl
      | some r =>
        simp only [Exec.ok_bind, Exec.pure_eq_ok]
        cases htableEvictFiles P (appendStatsSection r contents.length) rands <;> rfl

/-- What an operation that returned did to the table. -/
inductive Effect (P : Platform) (t : HTable) (L : Contents) :
    Op → Outcome → HTable → Contents → Prop
  | refused {op : Op} {code : HTableError}
      (hverdict : op.verdict (fileAt L op.key) = .refuse code) :
      Effect P t L op ⟨code, -1, []⟩ t L
  | touched {op : Op} {code : HTableError} {newOwner : Int} {a : Addr} {f f' : File}
      (hop : op.touches) (hlook : lookup L op.key = some (a, f))
      (hverdict : op.verdict (some f) = .put code newOwner f') :
      Effect P t L op ⟨code, newOwner, []⟩
        { t.setFile a f' with stats := op.touchStats t.stats } (L.setFile a f')
  | created {key : CStr} {fd : Int} {withLock : Bool} {t₁ t' : HTable}
      (hlook : lookup L key = none)
      (hlinked : Linked P t₁
        (L.push (P.xxh64 key % L.length) (t.items.fresh, newFile key fd withLock)))
      (hsame : SameElse t t₁) (hlive : t₁.items.live = t.items.live + 1)
      (hroom : t₁.items.live < wordSize) (hstats : createStatsSection t₁ key = .ok t') :
      Effect P t L (.create key fd withLock) ⟨.ok, -1, []⟩ t'
        (L.push (P.xxh64 key % L.length) (t.items.fresh, newFile key fd withLock))
  | removed {key : CStr} {fd : Int} {a : Addr} {f : File} {t₁ : HTable}
      (hlook : lookup L key = some (a, f)) (hallowed : ¬(f.lockedAgainst fd ∧ fd ≠ -1))
      (hremoved : Linked.Removed P t L a t₁) :
      Effect P t L (.remove key fd) ⟨.ok, -1, []⟩ (removeStatsSection t₁ f.lengthInBytes)
        (L.drop a)
  | wrote {op : Op} {a : Addr} {f f' : File} {evicted : List File} {t' : HTable} {L' : Contents}
      (hop : op.writes) (hlook : lookup L op.key = some (a, f))
      (hverdict : op.verdict (some f) = .put .ok (-1) f') (hsize : f'.lengthInBytes < wordSize)
      (hev : Evictions P (t.written op a f f') (L.setFile a f') evicted t' L') :
      Effect P t L op ⟨.ok, -1, evicted⟩ t' L'

section

variable {P : Platform} {t t' : HTable} {L : Contents} {out : Outcome} {rands : List Nat}

theorem effect_of_touches (h : Stored P t L) {op : Op} (hop : op.touches)
    (hx : op.exec P t rands = .ok (out, t')) : ∃ L', Effect P t L op out t' L' := by
  rcases h.exec_touch hop rands with ⟨hnone, hexec⟩ | ⟨a, f, hsome, hexec⟩
  · rw [hexec] at hx
    simp only [Except.ok.injEq, Prod.mk.injEq] at hx
    obtain ⟨rfl, rfl⟩ := hx
    refine ⟨L, .refused ?_⟩
    rw [fileAt_of_lookup_none hnone]
    cases op <;> first | rfl | simp [Op.touches] at hop
  · rw [hexec] at hx
    cases hverdict : op.verdict (some f) with
    | refuse code =>
      simp only [hverdict, Except.ok.injEq, Prod.mk.injEq] at hx
      obtain ⟨rfl, rfl⟩ := hx
      exact ⟨L, .refused (by rw [fileAt_of_lookup hsome, hverdict])⟩
    | put code newOwner f' =>
      simp only [hverdict, Except.ok.injEq, Prod.mk.injEq] at hx
      obtain ⟨rfl, rfl⟩ := hx
      exact ⟨_, .touched hop hsome hverdict⟩
    | abort => simp [hverdict] at hx
    | drop => simp [hverdict] at hx

theorem effect_of_create (h : Stored P t L) {key : CStr} {fd : Int} {withLock : Bool}
    (hx : (Op.create key fd withLock).exec P t rands = .ok (out, t')) :
    ∃ L', Effect P t L (.create key fd withLock) out t' L' := by
  obtain ⟨⟨code, t₂⟩, hcreate, hx⟩ := Exec.bind_eq_ok.mp hx
  simp only [Exec.pure_eq_ok, Except.ok.injEq, Prod.mk.injEq] at hx
  obtain ⟨rfl, rfl⟩ := hx
  simp only [htableOpenOrCreateFile, if_true] at hcreate
  rcases h.exec_create key fd withLock with
    ⟨⟨a, f⟩, hsome, hexec⟩ | ⟨-, -, hexec⟩ | ⟨t₁, hnone, hlinked, hsame, hlive, hroom, hexec⟩
  · rw [hexec] at hcreate
    simp only [Except.ok.injEq, Prod.mk.injEq] at hcreate
    obtain ⟨rfl, rfl⟩ := hcreate
    exact ⟨L, .refused (by simp [Op.key, fileAt_of_lookup hsome, Op.verdict])⟩
  · rw [hexec] at hcreate
    cases hcreate
  · rw [hexec] at hcreate
    obtain ⟨t₂', hstats, hok⟩ := Exec.bind_eq_ok.mp hcreate
    simp only [Except.ok.injEq, Prod.mk.injEq] at hok
    obtain ⟨rfl, rfl⟩ := hok
    exact ⟨_, .created hnone hlinked hsame hlive hroom hstats⟩

theorem effect_of_remove (h : Stored P t L) {key : CStr} {fd : Int}
    (hx : (Op.remove key fd).exec P t rands = .ok (out, t')) :
    ∃ L', Effect P t L (.remove key fd) out t' L' := by
  obtain ⟨⟨code, t₂⟩, hremove, hx⟩ := Exec.bind_eq_ok.mp hx
  simp only [Exec.pure_eq_ok, Except.ok.injEq, Prod.mk.injEq] at hx
  obtain ⟨rfl, rfl⟩ := hx
  unfold htableRemoveFile at hremove
  rcases h.removeSection_eq key fd with
    ⟨hnone, hexec⟩ | ⟨a, f, hsome, ⟨hlocked, hfd, hexec⟩ | ⟨hallowed, t₁, hremoved, hexec⟩⟩
  · simp only [hexec, Exec.ok_bind, Exec.pure_eq_ok, Except.ok.injEq, Prod.mk.injEq] at hremove
    obtain ⟨rfl, rfl⟩ := hremove
    exact ⟨L, .refused (by simp [Op.key, fileAt_of_lookup_none hnone, Op.verdict])⟩
  · simp only [hexec, Exec.ok_bind, Exec.pure_eq_ok, Except.ok.injEq, Prod.mk.injEq] at hremove
    obtain ⟨rfl, rfl⟩ := hremove
    exact ⟨L, .refused (by simp [Op.key, fileAt_of_lookup hsome, Op.verdict, hlocked, hfd])⟩
  · simp only [hexec, Exec.ok_bind, Exec.pure_eq_ok, Except.ok.injEq, Prod.mk.injEq] at hremove
    obtain ⟨rfl, rfl⟩ := hremove
    exact ⟨_, .removed hsome hallowed hremoved⟩

/-- What the sections of a write leave for the eviction loop. -/
theorem writeSections_ok (h : Stored P t L) {op : Op} (hop : op.writes) {r : Option HTable}
    (hx : op.writeSections P t = .ok r) :
    (lookup L op.key = none ∧ r = none) ∨
      ∃ a f f', lookup L op.key = some (a, f) ∧ op.verdict (some f) = .put .ok (-1) f' ∧
        f'.lengthInBytes < wordSize ∧ r = some (t.written op a f f') := by
  cases op with
  | create | «open» | close | lock | unlock | remove => simp [Op.writes] at hop
  | replace key contents =>
    obtain ⟨r₁, hsection, hx⟩ := Exec.bind_eq_ok.mp hx
    rcases h.replaceSection_ok hsection with ⟨hnone, rfl⟩ | ⟨a, f, hsome, hsize, rfl⟩
    · exact Or.inl ⟨hnone, (Except.ok.inj hx).symm⟩
    · exact Or.inr ⟨a, f, f.withBytes contents, hsome, rfl, hsize, (Except.ok.inj hx).symm⟩
  | append key contents =>
    obtain ⟨r₁, hsection, hx⟩ := Exec.bind_eq_ok.mp hx
    rcases h.appendSection_ok h.sized hsection with ⟨hnone, rfl⟩ | ⟨a, f, hsome, hsize, rfl⟩
    · exact Or.inl ⟨hnone, (Except.ok.inj hx).symm⟩
    · obtain ⟨hlen, -⟩ := h.sized _ (mem_of_lookup hsome)
      refine Or.inr ⟨a, f, f.withBytes (f.bytes ++ contents), hsome, rfl, ?_,
        (Except.ok.inj hx).symm⟩
      rw [← hlen] at hsize
      simpa [File.withBytes] using hsize

theorem stored_written (h : Stored P t L) {op : Op} (hop : op.writes) {a : Addr} {f f' : File}
    (hlook : lookup L op.key = some (a, f)) (hverdict : op.verdict (some f) = .put .ok (-1) f')
    (hsize : f'.lengthInBytes < wordSize) :
    Stored P (t.written op a f f') (L.setFile a f') := by
  have hset := h.setFile (mem_of_lookup hlook) _ (Op.verdict_some_key hverdict)
    (Op.verdict_write_sized hop hverdict hsize)
  exact hset.of_same rfl rfl

theorem effect_of_write (h : Stored P t L) {op : Op} (hop : op.writes)
    (hx : op.exec P t rands = .ok (out, t')) : ∃ L', Effect P t L op out t' L' := by
  rw [Op.exec_write hop] at hx
  obtain ⟨r, hsections, hx⟩ := Exec.bind_eq_ok.mp hx
  rcases writeSections_ok h hop hsections with
    ⟨hnone, rfl⟩ | ⟨a, f, f', hsome, hverdict, hsize, rfl⟩
  · simp only [Exec.pure_eq_ok, Except.ok.injEq, Prod.mk.injEq] at hx
    obtain ⟨rfl, rfl⟩ := hx
    refine ⟨L, .refused ?_⟩
    rw [fileAt_of_lookup_none hnone]
    exact (Op.verdict_of_writes hop).1
  · obtain ⟨⟨evicted, t₁⟩, hloop, hx⟩ := Exec.bind_eq_ok.mp hx
    simp only [Exec.pure_eq_ok, Except.ok.injEq, Prod.mk.injEq] at hx
    obtain ⟨rfl, rfl⟩ := hx
    have hstored := stored_written h hop hsome hverdict hsize
    obtain ⟨L', hev⟩ := evictFiles_ok hstored.toLinked hloop
    exact ⟨L', .wrote hop hsome hverdict hsize hev⟩

/-- Every operation that returns has one of the effects. -/
theorem effect_of_exec (h : Stored P t L) {op : Op} (hx : op.exec P t rands = .ok (out, t')) :
    ∃ L', Effect P t L op out t' L' := by
  cases op with
  | create key fd withLock => exact effect_of_create h hx
  | remove key fd => exact effect_of_remove h hx
  | replace key contents => exact effect_of_write h rfl hx
  | append key contents => exact effect_of_write h rfl hx
  | «open» | close | lock | unlock => exact effect_of_touches h rfl hx

end

/-! ## 3. What an effect keeps -/

theorem newFile_sized (key : CStr) (fd : Int) (withLock : Bool) :
    (newFile key fd withLock).Sized := ⟨rfl, Nat.zero_lt_succ _⟩

theorem createStatsSection_ok {t t' : HTable} {key : CStr}
    (hx : createStatsSection t key = .ok t') :
    SameSettings t t' ∧ t'.stats = t.stats.incOpen.incItems.raiseMaxItems ∧
      t'.buckets = t.buckets ∧ t'.items = t.items := by
  unfold createStatsSection at hx
  simp only at hx
  split at hx
  · unfold fifoAddFile at hx
    split at hx
    · cases hx
    · obtain rfl := Except.ok.inj hx
      exact ⟨⟨rfl, rfl, rfl⟩, rfl, rfl, rfl⟩
  · obtain rfl := Except.ok.inj hx
    exact ⟨⟨rfl, rfl, rfl⟩, rfl, rfl, rfl⟩

namespace Effect

variable {P : Platform} {t t' : HTable} {L L' : Contents} {op : Op} {out : Outcome}

theorem stored (h : Effect P t L op out t' L') (hs : Stored P t L) : Stored P t' L' := by
  cases h with
  | refused hverdict => exact hs
  | touched hop hlook hverdict =>
    obtain ⟨hcontents, hlength⟩ := Op.verdict_put_contents hop hverdict
    obtain ⟨hlen, hlt⟩ := hs.sized _ (mem_of_lookup hlook)
    have hset := hs.setFile (mem_of_lookup hlook) _ (Op.verdict_some_key hverdict)
      ⟨by rw [File.bytes, hcontents, hlength]; exact hlen, by rw [hlength]; exact hlt⟩
    exact hset.of_same rfl rfl
  | created hlook hlinked hsame hlive hroom hstats =>
    obtain ⟨-, -, hbuckets, hitems⟩ := createStatsSection_ok hstats
    exact (hs.push _ hlook hlinked (newFile_sized _ _ _) hroom).of_same hbuckets hitems
  | removed hlook hallowed hremoved =>
    exact (hs.drop (mem_of_lookup hlook) hremoved.linked hremoved.live).of_same rfl rfl
  | wrote hop hlook hverdict hsize hev =>
    exact hev.stored (stored_written hs hop hlook hverdict hsize)

theorem evicted_sized (h : Effect P t L op out t' L') (hs : Stored P t L) :
    ∀ f ∈ out.evicted, f.Sized := by
  cases h with
  | refused | touched | created | removed => exact nofun
  | wrote hop hlook hverdict hsize hev => exact hev.sized (stored_written hs hop hlook hverdict hsize)

theorem settings (h : Effect P t L op out t' L') : SameSettings t t' := by
  cases h with
  | refused | touched => exact ⟨rfl, rfl, rfl⟩
  | created hlook hlinked hsame hlive hroom hstats =>
    exact hsame.toSameSettings.trans (createStatsSection_ok hstats).1
  | removed hlook hallowed hremoved =>
    have hsame := hremoved.same
    exact ⟨hsame.maxItemsCount, hsame.maxSpaceInBytes, hsame.policy⟩
  | wrote hop hlook hverdict hsize hev =>
    have hsame := hev.settings
    exact ⟨hsame.maxItemsCount, hsame.maxSpaceInBytes, hsame.policy⟩

/-- The table simulates the map. -/
theorem mapStep (h : Effect P t L op out t' L') (hs : Stored P t L) :
    MapStep (fileAt L) op out (fileAt L') := by
  cases h with
  | refused hverdict => exact .refuse hverdict
  | touched hop hlook hverdict =>
    have hkey := key_of_lookup hlook
    rw [← fileAt_of_lookup hlook] at hverdict
    refine .put hverdict ?_ fun _ => rfl
    rw [fileAt_of_lookup hlook] at hverdict
    rw [hs.fileAt_setFile (mem_of_lookup hlook) (Op.verdict_some_key hverdict), hkey]
    exact .nil _
  | created hlook hlinked hsame hlive hroom hstats =>
    rename_i key fd withLock t₁
    have hpush : fileAt (L.push (P.xxh64 key % L.length) (t.items.fresh, newFile key fd withLock)) =
        Function.update (fileAt L) key (some (newFile key fd withLock)) :=
      hs.fileAt_push (t.items.fresh, newFile key fd withLock) hlook
    rw [hpush]
    exact .put (by simp only [Op.key, fileAt_of_lookup_none hlook, Op.verdict]) (.nil _)
      fun _ => rfl
  | removed hlook hallowed hremoved =>
    have hkey := key_of_lookup hlook
    rw [hs.fileAt_drop (mem_of_lookup hlook), hkey]
    refine .drop ?_
    simp only [Op.key, fileAt_of_lookup hlook, Op.verdict, if_neg hallowed]
  | wrote hop hlook hverdict hsize hev =>
    have hkey := key_of_lookup hlook
    have hevicts := hev.evicts (stored_written hs hop hlook hverdict hsize)
    rw [hs.fileAt_setFile (mem_of_lookup hlook) (Op.verdict_some_key hverdict), hkey] at hevicts
    rw [← fileAt_of_lookup hlook] at hverdict
    exact .put hverdict hevicts fun hquiet => by rw [hop] at hquiet; cases hquiet

end Effect

/-! ## 4. Sequential runs -/

structure Call where
  op : Op
  rands : List Nat  -- the draws of `rand()` it may use
deriving DecidableEq

def tableStep (P : Platform) (t : HTable) (c : Call) (t' : HTable) : Prop :=
  ∃ out, c.op.exec P t c.rands = .ok (out, t')

/-- From `htable_create` the calls of `tr` all return and lead to `t`. -/
def SequentialRun (P : Platform) (buckets : Nat) (config : Config) (tr : List (HTable × Call))
    (t : HTable) : Prop :=
  ∃ t₀, htableCreate buckets config = .ok t₀ ∧ Run (tableStep P) t₀ tr t

theorem stored_create {P : Platform} {buckets : Nat} {config : Config} {t : HTable}
    (hx : htableCreate buckets config = .ok t) :
    Stored P t (List.replicate buckets []) := by
  unfold htableCreate at hx
  split at hx
  · rename_i hpos
    obtain rfl := Except.ok.inj hx
    have hflat : (List.replicate buckets ([] : List Entry)).flatten = [] := by simp
    refine ⟨⟨by simp, by simpa using hpos, ?_, ?_⟩, ?_, ?_, ?_⟩
    · intro i b l hb hl
      obtain ⟨-, rfl⟩ : i < buckets ∧ (⟨none, none⟩ : HTableBucket) = b := by
        simpa [List.getElem?_replicate] using hb
      obtain ⟨-, rfl⟩ : i < buckets ∧ ([] : List Entry) = l := by
        simpa [List.getElem?_replicate] using hl
      exact ⟨DList.empty, fun e he => by cases he⟩
    · intro i l hl e he
      obtain ⟨-, rfl⟩ : i < buckets ∧ ([] : List Entry) = l := by
        simpa [List.getElem?_replicate] using hl
      cases he
    · rw [hflat]
      exact List.nodup_nil
    · rw [hflat]
      intro e he
      cases he
    · simp [Heap.empty, Heap.live]
  · cases hx

theorem policy_create {buckets : Nat} {config : Config} {t : HTable}
    (hx : htableCreate buckets config = .ok t) : t.policy = config.cacheEvictionPolicy := by
  unfold htableCreate at hx
  split at hx
  · obtain rfl := Except.ok.inj hx
    rfl
  · cases hx

def tableNext (P : Platform) (t : HTable) (c : Call) : Option HTable :=
  (c.op.exec P t c.rands).toOption.map Prod.snd

/-- The calls from `htable_create` on, when all of them return. -/
def tableAfter (P : Platform) (buckets : Nat) (config : Config) (calls : List Call) :
    Option (List (HTable × Call) × HTable) := do
  let t ← (htableCreate buckets config).toOption
  replay (tableNext P) t calls

/-- The calls, then one more operation, and a test on what it did. -/
def tableTest (P : Platform) (buckets : Nat) (config : Config) (calls : List Call) (last : Call)
    (test : HTable → Outcome → HTable → Bool) : Bool :=
  match tableAfter P buckets config calls with
  | none => false
  | some (_, t) =>
      match last.op.exec P t last.rands with
      | .ok (out, t') => test t out t'
      | .error _ => false

namespace SequentialRun

variable {P : Platform} {buckets : Nat} {config : Config} {tr : List (HTable × Call)} {t : HTable}

theorem stored (run : SequentialRun P buckets config tr t) : ∃ L, Stored P t L := by
  obtain ⟨t₀, hcreate, run⟩ := run
  refine run.invariant (fun t => ∃ L, Stored P t L) (fun _ _ => True)
    ⟨_, stored_create hcreate⟩ ?_ fun _ _ => trivial
  rintro s l s' ⟨L, hs⟩ - ⟨out, hexec⟩
  obtain ⟨L', heffect⟩ := effect_of_exec hs hexec
  exact ⟨L', heffect.stored hs⟩

theorem policy (run : SequentialRun P buckets config tr t) :
    t.policy = config.cacheEvictionPolicy := by
  obtain ⟨t₀, hcreate, run⟩ := run
  refine (run.invariant (fun t => (∃ L, Stored P t L) ∧ t.policy = config.cacheEvictionPolicy)
    (fun _ _ => True) ⟨⟨_, stored_create hcreate⟩, policy_create hcreate⟩ ?_ fun _ _ => trivial).2
  rintro s l s' ⟨⟨L, hs⟩, hpolicy⟩ - ⟨out, hexec⟩
  obtain ⟨L', heffect⟩ := effect_of_exec hs hexec
  exact ⟨⟨L', heffect.stored hs⟩, heffect.settings.policy.trans hpolicy⟩

/-- Every state of a run ends a run of its own. -/
theorem of_state (run : SequentialRun P buckets config tr t) {s : HTable}
    (hs : s ∈ statesOf tr t) : ∃ tr', SequentialRun P buckets config tr' s ∧ tr' <+: tr := by
  obtain ⟨t₀, hcreate, run⟩ := run
  obtain ⟨tr', run', hpre⟩ := run.to_state s hs
  exact ⟨tr', ⟨t₀, hcreate, run'⟩, hpre⟩

theorem of_calls {calls : List Call} (hx : tableAfter P buckets config calls = some (tr, t)) :
    SequentialRun P buckets config tr t := by
  obtain ⟨t₀, hcreate, hx⟩ := Option.bind_eq_some_iff.mp hx
  refine ⟨t₀, Exec.toOption_eq_some.mp hcreate, Run.of_replay ?_ hx⟩
  intro s c s' hnext
  obtain ⟨r, hr, rfl⟩ := Option.map_eq_some_iff.mp hnext
  exact ⟨r.1, Exec.toOption_eq_some.mp hr⟩

/-- A passed test is about a real run. -/
theorem of_run_test (P : Platform) (buckets : Nat) (config : Config) (calls : List Call)
    (test : List (HTable × Call) → HTable → Bool)
    (hx : (tableAfter P buckets config calls).any (fun r => test r.1 r.2) = true) :
    ∃ tr t, SequentialRun P buckets config tr t ∧ test tr t = true := by
  cases hafter : tableAfter P buckets config calls with
  | none => simp [hafter] at hx
  | some r => exact ⟨r.1, r.2, of_calls hafter, by simpa [hafter] using hx⟩

theorem of_test (P : Platform) (buckets : Nat) (config : Config) (calls : List Call) (last : Call)
    (test : HTable → Outcome → HTable → Bool)
    (hx : tableTest P buckets config calls last test = true) :
    ∃ tr t out t', SequentialRun P buckets config tr t ∧
      last.op.exec P t last.rands = .ok (out, t') ∧ test t out t' = true := by
  unfold tableTest at hx
  split at hx
  · cases hx
  · rename_i tr t hafter
    split at hx
    · rename_i out t' hexec
      exact ⟨tr, t, out, t', of_calls hafter, hexec, hx⟩
    · cases hx

end SequentialRun

end FileStorage.Server
