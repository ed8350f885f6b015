import FileStorage.Server.Worker

/-!
# LockedFiles — writes to a file that somebody else has locked
-/

namespace FileStorage.Server

theorem workerHandleMessage_eq {P : Platform} {t : HTable} {fd : Int} {raw buffer : List UInt8}
    {code : UInt8} {op : ApiOp} (hraw : messageRequest raw = .ok (some (code, buffer)))
    (hcode : ApiOp.ofByte code = some op) (rands : List Nat) :
    workerHandleMessage P t fd raw rands = workerHandleRequest P t fd op buffer rands := by
  simp only [workerHandleMessage, hraw, hcode, Exec.ok_bind]

/-- A replace that did not evict its own file wrote it. -/
theorem replaced_of_kept {P : Platform} {t t' : HTable} {L : Contents} (hs : Stored P t L)
    {key : CStr} {contents : List UInt8} {rands : List Nat} {out : Outcome}
    (hx : (Op.replace key contents).exec P t rands = .ok (out, t')) {f f' : File}
    (hf : htableFetchFile P t key = .ok (some f))
    (hkept : htableFetchFile P t' key = .ok (some f')) : f' = f.withBytes contents := by
  obtain ⟨L', heffect⟩ := effect_of_exec hs hx
  have hstep := heffect.mapStep hs
  rw [hs.fetchFile, Except.ok.injEq] at hf
  rw [(heffect.stored hs).fetchFile, Except.ok.injEq] at hkept
  have hev : key ∉ out.evicted.map File.key := by
    intro hmem
    obtain ⟨g, hg, hkey⟩ := List.mem_map.mp hmem
    have habsent := hstep.evicted_absent hg
    rw [hkey, hkept] at habsent
    cases habsent
  rcases hstep.own_key hev with ⟨code, hverdict, -⟩ | ⟨code, newOwner, g, hverdict, hg⟩ |
    ⟨hverdict, -⟩
  · simp only [Op.key, hf, Op.verdict] at hverdict
    cases hverdict
  · simp only [Op.key, hf, Op.verdict, Verdict.put.injEq] at hverdict
    obtain ⟨-, -, rfl⟩ := hverdict
    exact Option.some.inj (hkept.symm.trans hg)
  · simp only [Op.key, hf, Op.verdict] at hverdict
    cases hverdict

/-- A message with a write or an append of another descriptor leaves a locked file as it was, if
it does not evict it, exactly when it is an append, which no handler takes, or sends the bytes
that are already there. -/
theorem locked_file_kept_iff {P : Platform} {buckets : Nat} {config : Config}
    {tr : List (HTable × Call)} {t t' : HTable} (run : SequentialRun P buckets config tr t)
    {key : CStr} {f : File} (hf : htableFetchFile P t key = .ok (some f)) {fd : Int}
    (_hlocked : f.lockedAgainst fd) {raw buffer contents : List UInt8} {code : UInt8}
    {op : ApiOp} (hraw : messageRequest raw = .ok (some (code, buffer)))
    (hcode : ApiOp.ofByte code = some op) (hop : op = .writeFile ∨ op = .appendToFile)
    (hargs : writeFileArgs buffer = .ok (some (key, contents))) {rands : List Nat}
    {writes : List Write} (hx : workerHandleMessage P t fd raw rands = .ok (writes, t'))
    {f' : File} (hkept : htableFetchFile P t' key = .ok (some f')) :
    (f'.bytes = f.bytes ∧ f'.lengthInBytes = f.lengthInBytes) ↔
      op = .appendToFile ∨ contents = f.bytes := by
  obtain ⟨L, hs⟩ := run.stored
  rw [workerHandleMessage_eq hraw hcode] at hx
  rcases hop with rfl | rfl
  · have htable : ApiOp.tableOp fd buffer .writeFile = .ok (some (.replace key contents)) :=
      ApiOp.tableOp_writeFile.mpr ⟨key, contents, hargs, rfl⟩
    cases handled_of_ok hx with
    | untouched hnone hstatus hone hwrite =>
      rw [htable] at hnone
      cases hnone
    | called o out hcalled hexec hstatus =>
      rw [htable] at hcalled
      cases hcalled
      obtain rfl := replaced_of_kept hs hexec hf hkept
      -- the length field follows the bytes, before and after
      have hsized : f.Sized := by
        rw [hs.fetchFile, Except.ok.injEq] at hf
        obtain ⟨a, hmem, -⟩ := hs.fileAt_iff.mp hf
        exact hs.sized _ hmem
      have hbytes : (f.withBytes contents).bytes = contents := rfl
      have hlength : (f.withBytes contents).lengthInBytes = contents.length := rfl
      rw [hbytes, hlength]
      constructor
      · exact fun h => Or.inr h.1
      · rintro (h | h)
        · cases h
        · exact ⟨h, by rw [h]; exact hsized.1⟩
  · simp only [workerHandleRequest, Except.ok.injEq, Prod.mk.injEq] at hx
    obtain ⟨-, rfl⟩ := hx
    rw [hf, Except.ok.injEq, Option.some.injEq] at hkept
    subst hkept
    exact iff_of_true ⟨rfl, rfl⟩ (Or.inl rfl)

/-- The payload by which a client writes one byte to the file `"a"`, and its message. -/
def payloadToA (byte : UInt8) : List UInt8 := u64ToBigEndian 1 ++ u64ToBigEndian 1 ++ [97, byte]

def writeToA (byte : UInt8) : List UInt8 :=
  u64ToBigEndian 0x86b2f464f65e01 ++ u64ToBigEndian 19 ++ [8] ++ payloadToA byte

/-- 4 sends what 3 has written to its locked file. -/
theorem locked_file_kept_same_bytes :
    ∃ tr t f writes t' f', SequentialRun samplePlatform 1 ⟨10, 10, .fifo⟩ tr t ∧
      htableFetchFile samplePlatform t (bufToStr [97]) = .ok (some f) ∧
      workerHandleMessage samplePlatform t 4 (writeToA 7) [] = .ok (writes, t') ∧
      htableFetchFile samplePlatform t' (bufToStr [97]) = .ok (some f') ∧
      f'.bytes = f.bytes ∧ f'.lengthInBytes = f.lengthInBytes := by
  obtain ⟨tr, t, run, htest⟩ := SequentialRun.of_run_test samplePlatform 1 ⟨10, 10, .fifo⟩
    [⟨.create (bufToStr [97]) 3 true, []⟩, ⟨.replace (bufToStr [97]) [7], []⟩]
    (fun _ t =>
      (htableFetchFile samplePlatform t (bufToStr [97])).anySome fun f =>
        (workerHandleMessage samplePlatform t 4 (writeToA 7) []).any fun r =>
          (htableFetchFile samplePlatform r.2 (bufToStr [97])).anySome fun _ =>
            decide (f.lockedAgainst 4 ∧ [7] = f.bytes))
    (by decide +kernel)
  obtain ⟨f, hf, htest⟩ := Exec.anySome_eq_true.mp htest
  obtain ⟨⟨writes, t'⟩, hx, htest⟩ := Exec.any_eq_true.mp htest
  obtain ⟨f', hkept, htest⟩ := Exec.anySome_eq_true.mp htest
  obtain ⟨hlocked, hsame⟩ := of_decide_eq_true htest
  have hraw : messageRequest (writeToA 7) = .ok (some (8, payloadToA 7)) := by decide +kernel
  have hargs : writeFileArgs (payloadToA 7) = .ok (some (bufToStr [97], [7])) := by decide +kernel
  have hboth := (locked_file_kept_iff run hf hlocked hraw rfl (Or.inl rfl) hargs hx hkept).mpr
    (Or.inr hsame)
  exact ⟨tr, t, f, writes, t', f', run, hf, hx, hkept, hboth.1, hboth.2⟩

/-- 4 overwrites the file that 3 has locked. -/
theorem locked_file_overwritten :
    ¬∀ (P : Platform) (buckets : Nat) (config : Config) (tr : List (HTable × Call)) (t : HTable),
      SequentialRun P buckets config tr t → ∀ key f, htableFetchFile P t key = .ok (some f) →
        ∀ fd, f.lockedAgainst fd → ∀ raw code buffer op contents,
          messageRequest raw = .ok (some (code, buffer)) → ApiOp.ofByte code = some op →
          op = .writeFile ∨ op = .appendToFile →
          writeFileArgs buffer = .ok (some (key, contents)) → ∀ rands writes t',
            workerHandleMessage P t fd raw rands = .ok (writes, t') →
              ∀ f', htableFetchFile P t' key = .ok (some f') →
                f'.bytes = f.bytes ∧ f'.lengthInBytes = f.lengthInBytes := by
  intro hclaim
  obtain ⟨tr, t, run, htest⟩ := SequentialRun.of_run_test samplePlatform 1 ⟨10, 10, .fifo⟩
    [⟨.create (bufToStr [97]) 3 true, []⟩, ⟨.replace (bufToStr [97]) [7], []⟩]
    (fun _ t =>
      (htableFetchFile samplePlatform t (bufToStr [97])).anySome fun f =>
        (workerHandleMessage samplePlatform t 4 (writeToA 9) []).any fun r =>
          (htableFetchFile samplePlatform r.2 (bufToStr [97])).anySome fun f' =>
            decide (f.lockedAgainst 4 ∧ f'.bytes ≠ f.bytes))
    (by decide +kernel)
  obtain ⟨f, hf, htest⟩ := Exec.anySome_eq_true.mp htest
  obtain ⟨⟨writes, t'⟩, hx, htest⟩ := Exec.any_eq_true.mp htest
  obtain ⟨f', hkept, htest⟩ := Exec.anySome_eq_true.mp htest
  obtain ⟨hlocked, hchanged⟩ := of_decide_eq_true htest
  have hraw : messageRequest (writeToA 9) = .ok (some (8, payloadToA 9)) := by decide +kernel
  have hargs : writeFileArgs (payloadToA 9) = .ok (some (bufToStr [97], [9])) := by decide +kernel
  have hsame := hclaim _ _ _ _ _ run _ f hf 4 hlocked (writeToA 9) 8 _ .writeFile [9] hraw rfl
    (Or.inl rfl) hargs [] writes t' hx f' hkept
  exact hchanged hsame.1

end FileStorage.Server
