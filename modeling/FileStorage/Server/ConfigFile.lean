import FileStorage.Server.Steps
import FileStorage.Strings

/-!
# ConfigFile — the settings that the server starts with

The TOML library gives 64-bit integers.  `config_parse_file` checks them as they are and stores
them in fields of type `unsigned`; the number of buckets and of workers comes from these fields.
-/

namespace FileStorage.Server

/-! ## 1. The code -/

/-- The `[server]` table, parameter by parameter; `none` for a datum that is not `ok`. -/
structure ServerTable where
  maxFiles : Option Int64
  maxStorage : Option Int64
  numWorkers : Option Int64
  socketFilepath : Option CStr
  cacheEvictionPolicy : Option CStr
  logFilepath : Option CStr

/-- `struct Config` when its `err` is 0. -/
structure ServerConfig extends Config where
  numWorkers : Nat
  socketFilepath : CStr
  logFilepath : CStr
deriving DecidableEq

/-- An `int64_t` stored in an `unsigned`. -/
def toUnsigned (i : Int64) : Nat := (i.toInt % unsignedSize).toNat

/-- The `strcmp` chain over the policies. -/
def parseEvictionPolicy (param : CStr) : Option CacheEvictionPolicy :=
  if param = .literal "fifo" then
    some .fifo
  else if param = .literal "segmented-fifo" then
    some .segmentedFifo
  else
    none

/-- `opened` is whether `fopen` succeeds, `toml` what `toml_parse_file` gives and in it the table
that `toml_table_in` finds. -/
def configParseFile (opened : Bool) (toml : Option (Option ServerTable)) : Option ServerConfig := do
  if !opened then
    none
  let tables ← toml
  let tomlTable ← tables
  let paramMaxFiles ← tomlTable.maxFiles
  let paramMaxStorage ← tomlTable.maxStorage
  let paramNumWorkers ← tomlTable.numWorkers
  let socketFilepath ← tomlTable.socketFilepath
  let paramCacheEvictionPolicy ← tomlTable.cacheEvictionPolicy
  let logFilepath ← tomlTable.logFilepath
  if paramMaxFiles < 1 ∨ paramMaxStorage < 10000 ∨ paramNumWorkers < 1 ∨ paramNumWorkers > 32 then
    none
  let cacheEvictionPolicy ← parseEvictionPolicy paramCacheEvictionPolicy
  return {
    maxFiles := toUnsigned paramMaxFiles
    maxStorageInBytes := toUnsigned paramMaxStorage
    numWorkers := toUnsigned paramNumWorkers
    socketFilepath
    cacheEvictionPolicy
    logFilepath }

/-- The table that `main` creates. -/
def ServerConfig.createTable (config : ServerConfig) : Exec HTable :=
  htableCreate config.maxFiles config.toConfig

/-! ## 2. What a field holds -/

/-- The field is the integer of the file. -/
def HoldsInteger (field : Nat) (param : Option Int64) : Prop :=
  ∃ i, param = some i ∧ (field : Int) = i.toInt

/-- The integer of the file is below 2^32. -/
def BelowUnsigned (param : Option Int64) : Prop := ∀ i, param = some i → i.toInt < unsignedSize

theorem toUnsigned_eq_iff {i : Int64} (hpos : 0 ≤ i.toInt) :
    (toUnsigned i : Int) = i.toInt ↔ i.toInt < unsignedSize := by
  have hres : 0 ≤ i.toInt % (unsignedSize : Nat) := Int.emod_nonneg _ (by decide)
  rw [toUnsigned, Int.toNat_of_nonneg hres]
  constructor
  · intro heq
    rw [← heq]
    exact Int.emod_lt_of_pos _ (by decide)
  · exact Int.emod_eq_of_lt hpos

theorem holdsInteger_iff {i : Int64} (hpos : 0 ≤ i.toInt) :
    HoldsInteger (toUnsigned i) (some i) ↔ BelowUnsigned (some i) := by
  simp [HoldsInteger, BelowUnsigned, toUnsigned_eq_iff hpos]

/-- What the parser accepts: integers in range, each stored in its field. -/
theorem configParseFile_eq_some {opened : Bool} {toml : Option (Option ServerTable)}
    {config : ServerConfig} (h : configParseFile opened toml = some config) :
    ∃ table maxFiles maxStorage numWorkers, opened = true ∧ toml = some (some table) ∧
      table.maxFiles = some maxFiles ∧ table.maxStorage = some maxStorage ∧
      table.numWorkers = some numWorkers ∧
      (1 ≤ maxFiles.toInt ∧ 10000 ≤ maxStorage.toInt ∧ 1 ≤ numWorkers.toInt ∧
        numWorkers.toInt ≤ 32) ∧
      config.maxFiles = toUnsigned maxFiles ∧ config.maxStorageInBytes = toUnsigned maxStorage ∧
      config.numWorkers = toUnsigned numWorkers := by
  unfold configParseFile at h
  split at h
  · cases h
  · rename_i hopened
    obtain ⟨tables, htoml, h⟩ := Option.bind_eq_some_iff.mp h
    obtain ⟨table, htable, h⟩ := Option.bind_eq_some_iff.mp h
    obtain ⟨maxFiles, hmaxFiles, h⟩ := Option.bind_eq_some_iff.mp h
    obtain ⟨maxStorage, hmaxStorage, h⟩ := Option.bind_eq_some_iff.mp h
    obtain ⟨numWorkers, hnumWorkers, h⟩ := Option.bind_eq_some_iff.mp h
    obtain ⟨socketFilepath, -, h⟩ := Option.bind_eq_some_iff.mp h
    obtain ⟨policy, -, h⟩ := Option.bind_eq_some_iff.mp h
    obtain ⟨logFilepath, -, h⟩ := Option.bind_eq_some_iff.mp h
    split at h
    · cases h
    · rename_i hrange
      obtain ⟨cacheEvictionPolicy, -, h⟩ := Option.bind_eq_some_iff.mp h
      cases h
      subst htoml htable
      simp only [Int64.lt_iff_toInt_lt, gt_iff_lt, not_or, Int.not_lt] at hrange
      exact ⟨table, maxFiles, maxStorage, numWorkers, by simpa using hopened, rfl, hmaxFiles,
        hmaxStorage, hnumWorkers, hrange, rfl, rfl, rfl⟩

/-! ## 3. Accepted files -/

/-- The three fields are the integers of the file, and nothing is reduced modulo zero. -/
structure SoundConfig (table : ServerTable) (config : ServerConfig) : Prop where
  maxFiles : HoldsInteger config.maxFiles table.maxFiles
  maxStorage : HoldsInteger config.maxStorageInBytes table.maxStorage
  numWorkers : HoldsInteger config.numWorkers table.numWorkers
  /-- `htable_create` receives a positive number and does not abort. -/
  created : ∃ t, config.createTable = .ok t
  /-- `hash % buckets_count` and `rand() % buckets_count` -/
  buckets : ∀ P tr t, SequentialRun P config.maxFiles config.toConfig tr t → 0 < t.buckets.length
  /-- `rand() % num_workers` -/
  workers : 0 < config.numWorkers

theorem createTable_iff {config : ServerConfig} :
    (∃ t, config.createTable = .ok t) ↔ 0 < config.maxFiles := by
  unfold ServerConfig.createTable htableCreate
  split
  · rename_i hpos
    simp [hpos]
  · rename_i hzero
    simp [hzero]

/-- The server aborts at its start on every multiple of 2^32. -/
theorem createTable_aborts_iff {config : ServerConfig} {i : Int64}
    (h : config.maxFiles = toUnsigned i) :
    config.createTable = .error .assertion ↔ i.toInt % unsignedSize = 0 := by
  have hres : 0 ≤ i.toInt % (unsignedSize : Nat) := Int.emod_nonneg _ (by decide)
  unfold ServerConfig.createTable htableCreate
  rw [h, toUnsigned]
  split
  · simp only [reduceCtorEq, false_iff]
    omega
  · simp only [true_iff]
    omega

theorem SequentialRun.buckets_pos {P : Platform} {buckets : Nat} {config : Config}
    {tr : List (HTable × Call)} {t : HTable} (run : SequentialRun P buckets config tr t) :
    0 < t.buckets.length := by
  obtain ⟨L, hs⟩ := run.stored
  rw [← hs.length]
  exact hs.pos

/-- An accepted configuration is sound exactly when both limits are below 2^32. -/
theorem configParseFile_sound_iff {table : ServerTable} {config : ServerConfig}
    (h : configParseFile true (some (some table)) = some config) :
    SoundConfig table config ↔ BelowUnsigned table.maxFiles ∧ BelowUnsigned table.maxStorage := by
  obtain ⟨table', maxFiles, maxStorage, numWorkers, -, htable, hmaxFiles, hmaxStorage,
    hnumWorkers, ⟨hfiles, hstorage, hworkers, hfew⟩, hfield₁, hfield₂, hfield₃⟩ :=
    configParseFile_eq_some h
  cases htable
  have hexact : HoldsInteger config.numWorkers table.numWorkers := by
    rw [hfield₃, hnumWorkers, holdsInteger_iff (by omega)]
    intro i hi
    cases hi
    exact Int.lt_of_le_of_lt hfew (by decide)
  constructor
  · intro hsound
    have hfirst := hsound.maxFiles
    have hsecond := hsound.maxStorage
    rw [hfield₁, hmaxFiles, holdsInteger_iff (by omega)] at hfirst
    rw [hfield₂, hmaxStorage, holdsInteger_iff (by omega)] at hsecond
    exact ⟨hmaxFiles ▸ hfirst, hmaxStorage ▸ hsecond⟩
  · rintro ⟨hfirst, hsecond⟩
    rw [hmaxFiles] at hfirst
    rw [hmaxStorage] at hsecond
    have hholds : HoldsInteger config.maxFiles table.maxFiles := by
      rw [hfield₁, hmaxFiles, holdsInteger_iff (by omega)]
      exact hfirst
    have hholds' : HoldsInteger config.maxStorageInBytes table.maxStorage := by
      rw [hfield₂, hmaxStorage, holdsInteger_iff (by omega)]
      exact hsecond
    refine ⟨hholds, hholds', hexact, createTable_iff.mpr ?_, fun _ _ _ run => run.buckets_pos, ?_⟩
    · obtain ⟨i, hi, hval⟩ := hholds
      rw [hmaxFiles] at hi
      cases hi
      omega
    · obtain ⟨i, hi, hval⟩ := hexact
      rw [hnumWorkers] at hi
      cases hi
      omega

/-- A table with these three integers and the FIFO policy. -/
def sampleTable (maxFiles maxStorage numWorkers : Int64) : ServerTable where
  maxFiles := some maxFiles
  maxStorage := some maxStorage
  numWorkers := some numWorkers
  socketFilepath := some (.literal "s")
  cacheEvictionPolicy := some (.literal "fifo")
  logFilepath := some (.literal "l")

theorem configParseFile_sound_sample :
    ∃ config, configParseFile true (some (some (sampleTable 100 10000 4))) = some config ∧
      SoundConfig (sampleTable 100 10000 4) config := by
  cases hx : configParseFile true (some (some (sampleTable 100 10000 4))) with
  | none => exact absurd hx (by decide)
  | some config =>
    refine ⟨config, rfl, (configParseFile_sound_iff hx).mpr ⟨?_, ?_⟩⟩
    · intro i hi
      cases hi
      decide
    · intro i hi
      cases hi
      decide

/-- With `max-files = 4294967296` the server aborts in `htable_create`. -/
theorem configParseFile_truncates :
    ¬ ∀ table config, configParseFile true (some (some table)) = some config →
      SoundConfig table config := by
  intro hclaim
  cases hx : configParseFile true (some (some (sampleTable 4294967296 10000 4))) with
  | none => exact absurd hx (by decide)
  | some config =>
    obtain ⟨t, ht⟩ := (hclaim _ _ hx).created
    have hzero : config.createTable = .error .assertion := by
      have hconfig := congrArg (fun c => c.map ServerConfig.createTable) hx
      simp only [Option.map_some] at hconfig
      refine Option.some.inj (hconfig.symm.trans ?_)
      decide
    rw [hzero] at ht
    cases ht

end FileStorage.Server
