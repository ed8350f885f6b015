import FileStorage.Server.Counters

/-!
# BucketLists — every bucket is a doubly linked list of its own keys

`Linked` is stated over the entries of the table.  Here the same is said about the pointers alone,
for every state of a sequential run.
-/

namespace FileStorage.Server

open Memory

/-- Bucket `i` links the items `as`, in this order from head to last. -/
structure BucketLinks (P : Platform) (t : HTable) (i : Nat) (bucket : HTableBucket)
    (as : List Addr) : Prop where
  forwards : Path (t.items.field HTableItem.next) bucket.head as none
  backwards : Path (t.items.field HTableItem.prev) bucket.last as.reverse none
  ends : bucket.head = none ↔ bucket.last = none
  home : ∀ a ∈ as, ∃ item, t.items.read a = some item ∧ htableBucketPtr P t item.file.key = i

namespace Linked

variable {P : Platform} {t : HTable} {L : Contents} {i : Nat} {bucket : HTableBucket}

theorem bucketLinks (h : Linked P t L) (hbucket : t.buckets[i]? = some bucket) :
    ∃ as, BucketLinks P t i bucket as := by
  obtain ⟨l, hl, hlinks⟩ := h.contents_of_bucket hbucket
  refine ⟨l.map Prod.fst, hlinks.dlist.fwd, hlinks.dlist.bwd, ?_, ?_⟩
  · -- both pointers are read off the same list
    rw [hlinks.dlist.head_eq, hlinks.dlist.last_eq]
    cases l with
    | nil => simp
    | cons e l => simp
  · intro a ha
    obtain ⟨e, he, rfl⟩ := List.mem_map.mp ha
    obtain ⟨item, hread, hfile⟩ := hlinks.read he
    refine ⟨item, hread, ?_⟩
    rw [h.bucketPtr_eq, hfile]
    exact h.home i l hl e he

end Linked

theorem Stored.linkedKeys_nodup {P : Platform} {t : HTable} {L : Contents} (h : Stored P t L) :
    (t.linkedFiles.map File.key).Nodup := by
  rw [h.linkedFiles_eq, List.map_map]
  exact h.keys

/-- In every state of a sequential run, under either policy, each bucket is a doubly linked list of
items that belong there, and no two items of the table have the same key. -/
theorem buckets_linked {P : Platform} {buckets : Nat} {config : Config}
    {tr : List (HTable × Call)} {t : HTable} (run : SequentialRun P buckets config tr t) :
    (∀ (i : Nat) bucket, t.buckets[i]? = some bucket → ∃ as, BucketLinks P t i bucket as) ∧
      (t.linkedFiles.map File.key).Nodup := by
  obtain ⟨L, h⟩ := run.stored
  exact ⟨fun i bucket hbucket => h.toLinked.bucketLinks hbucket, h.linkedKeys_nodup⟩

/-- Four files of one bucket; the one in the middle and the one at the head are removed, and the
last one is evicted. -/
theorem buckets_linked_after_removals :
    ∃ tr t, SequentialRun samplePlatform 1 ⟨3, 10, .segmentedFifo⟩ tr t ∧ tr.length = 8 ∧
      (∀ (i : Nat) bucket, t.buckets[i]? = some bucket →
        ∃ as, BucketLinks samplePlatform t i bucket as) ∧
      (t.linkedFiles.map File.key).Nodup := by
  obtain ⟨tr, t, run, htest⟩ := SequentialRun.of_run_test samplePlatform 1 ⟨3, 10, .segmentedFifo⟩
    [⟨.create (bufToStr [97]) 3 false, []⟩, ⟨.create (bufToStr [98]) 3 false, []⟩,
      ⟨.create (bufToStr [99]) 3 false, []⟩, ⟨.remove (bufToStr [98]) 3, []⟩,
      ⟨.create (bufToStr [100]) 3 false, []⟩, ⟨.remove (bufToStr [100]) 3, []⟩,
      ⟨.replace (bufToStr [97]) [7, 8], []⟩, ⟨.append (bufToStr [99]) [7, 8, 9, 7, 8, 9, 7, 8, 9], [0]⟩]
    (fun tr t => decide (tr.length = 8 ∧ t.stats.historicalNumEvictions = 1)) (by decide +kernel)
  have hlength := (of_decide_eq_true htest).1
  exact ⟨tr, t, run, hlength, buckets_linked run⟩

end FileStorage.Server
