import LlingrDemux.Offset.RingHistory

/-!
# The throughput windows of a snapshot

`buildThroughput` labels the buckets of the window, newest first, with intervals counted
back from the bucket of the snapshot's own clock. The ring moves only when something is
recorded, so the labels are right exactly while the clock is in the bucket of the last
record.
-/

namespace LlingrDemux.Snapshot

open Offset Shared
set_option autoImplicit false

/-- `time.Unix(sec, 0)`. -/
def ofUnix (sec : Int) : Int := (sec + 62135596800) * 1000000000

structure ThroughputEntry where
  fromTime : Int
  toTime : Int
  processedCount : Nat
  deadLetterCount : Nat
  deriving DecidableEq, Repr

def buildThroughput (now : Int) (wd : WindowData) : List ThroughputEntry :=
  let bucketCount := wd.throughputPerBucket.length
  let secs := wd.bucketDuration.tdiv 1000000000
  let bucketSecs := if secs < 1 then 1 else secs
  let currentEpoch := epochOf bucketSecs now
  let currentFrom := ofUnix (currentEpoch * bucketSecs)
  (List.range bucketCount).map fun i : Nat =>
    let fromTime := currentFrom + int64 (-i * wd.bucketDuration)
    let srcIdx := bucketCount - 1 - i
    { fromTime := fromTime
      toTime := fromTime + (wd.bucketDuration - 1000000)
      processedCount := wd.throughputPerBucket[srcIdx]?.getD 0
      deadLetterCount := wd.deadLetterPerBucket[srcIdx]?.getD 0 }

/-- The record's time falls in the bucket that starts at the entry's `FromTime`. -/
def ThroughputEntry.Covers (bucketDuration : Int) (entry : ThroughputEntry) (r : MetricsRecord) :
    Prop :=
  entry.fromTime ≤ r.processedAt ∧ r.processedAt < entry.fromTime + bucketDuration

instance (bucketDuration : Int) (entry : ThroughputEntry) (r : MetricsRecord) :
    Decidable (entry.Covers bucketDuration r) :=
  inferInstanceAs (Decidable (_ ∧ _))

/-- An entry reports the interval that it names. -/
structure ThroughputEntry.Exact (bucketDuration : Int) (records : List MetricsRecord)
    (entry : ThroughputEntry) : Prop where
  processed : entry.processedCount =
    records.countP fun r => entry.Covers bucketDuration r
  deadLettered : entry.deadLetterCount =
    records.countP fun r => entry.Covers bucketDuration r ∧ r.deadLetter

/-! ## Seconds and buckets -/

theorem ofUnix_le_iff {sec t : Int} : ofUnix sec ≤ t ↔ sec ≤ unix t := by
  unfold ofUnix unix
  omega

theorem bucketSecondsOf_pos (bucketDuration : Int) : 0 < bucketSecondsOf bucketDuration :=
  lt_of_lt_of_le Int.zero_lt_one (le_max_right _ _)

section Epochs
variable {s t t' e : Int}

theorem unix_mono (h : t ≤ t') : unix t ≤ unix t' := by
  unfold unix
  omega

/-- From 1970 on Go's division rounds down. -/
theorem epochOf_eq_iff (hs : 0 < s) (ht : 0 ≤ unix t) :
    epochOf s t = e ↔ e * s ≤ unix t ∧ unix t < (e + 1) * s := by
  rw [epochOf, Int.tdiv_eq_ediv_of_nonneg ht]
  constructor
  · intro h
    subst h
    exact ⟨Int.ediv_mul_le _ (by omega), Int.lt_ediv_add_one_mul_self _ hs⟩
  · intro h
    apply le_antisymm
    · exact Int.lt_add_one_iff.mp (Int.ediv_lt_of_lt_mul hs h.2)
    · exact (Int.le_ediv_iff_mul_le hs).mpr h.1

theorem epochOf_mono (hs : 0 < s) (ht : 0 ≤ unix t) (h : t ≤ t') :
    epochOf s t ≤ epochOf s t' := by
  have hunix := unix_mono h
  rw [epochOf, epochOf, Int.tdiv_eq_ediv_of_nonneg ht,
    Int.tdiv_eq_ediv_of_nonneg (ht.trans hunix)]
  exact Int.ediv_le_ediv hs hunix

/-- The seconds of a bucket are the interval that starts at its label. -/
theorem interval_iff_epochOf (hs : 0 < s) (ht : 0 ≤ unix t) :
    ofUnix (e * s) ≤ t ∧ t < ofUnix (e * s) + s * 1000000000 ↔ epochOf s t = e := by
  have hnext : ofUnix (e * s) + s * 1000000000 = ofUnix ((e + 1) * s) := by
    unfold ofUnix
    rw [Int.add_mul e 1 s]
    omega
  rw [epochOf_eq_iff hs ht, hnext, ← ofUnix_le_iff, ← not_le, ← not_le, ← ofUnix_le_iff]

end Epochs

/-! ## The entries of a snapshot -/

section Snapshot
variable (bucketDuration created now : Int) (bucketCount : Nat) (records : List MetricsRecord)

/-- The windows of a snapshot taken at `now`. -/
def throughputAt [NeZero bucketCount] : List ThroughputEntry :=
  buildThroughput now (records.foldl MetricsRingBuffer.record
    (newRingBuffer bucketDuration bucketCount created)).windowData

/-- The bucket length of the ring. -/
def bucketLength : Int := bucketSecondsOf bucketDuration * 1000000000

/-- The records a ring counts for an epoch when they come in order. -/
def inEpoch (e : Int) (r : MetricsRecord) : Bool :=
  epochOf (bucketSecondsOf bucketDuration) r.processedAt = e

/-- Records in the order of their times, none before the ring or after the snapshot. -/
structure InOrder : Prop where
  ordered : records.Pairwise fun r q => r.processedAt ≤ q.processedAt
  created : ∀ r ∈ records, created ≤ r.processedAt
  before : ∀ r ∈ records, r.processedAt ≤ now

variable {bucketDuration created now bucketCount records}

theorem InOrder.unix_nonneg (h : InOrder created now records) (since : 0 ≤ unix created) :
    ∀ r ∈ records, 0 ≤ unix r.processedAt :=
  fun r hr => since.trans (unix_mono (h.created r hr))

theorem InOrder.epochs (h : InOrder created now records) (since : 0 ≤ unix created) :
    records.Pairwise fun r q => epochOf (bucketSecondsOf bucketDuration) r.processedAt ≤
      epochOf (bucketSecondsOf bucketDuration) q.processedAt := by
  apply h.ordered.imp_of_mem
  intro r q hr _ hle
  exact epochOf_mono (bucketSecondsOf_pos bucketDuration) (h.unix_nonneg since r hr) hle

theorem InOrder.created_le (h : InOrder created now records) (since : 0 ≤ unix created) :
    ∀ r ∈ records, epochOf (bucketSecondsOf bucketDuration) created ≤
      epochOf (bucketSecondsOf bucketDuration) r.processedAt := by
  intro r hr
  exact epochOf_mono (bucketSecondsOf_pos bucketDuration) since (h.created r hr)

theorem InOrder.recordedIn_eq (h : InOrder created now records) (since : 0 ≤ unix created)
    {i : Nat} (hi : i < bucketCount) :
    recordedIn MetricsRecord.processedAt bucketDuration created bucketCount
        (bucketCount - 1 - i) records =
      records.filter (inEpoch bucketDuration (highestEpoch bucketDuration created records - i)) := by
  rw [recordedIn_eq_history, recordHistory,
    Ring.history_of_ordered _ (h.created_le since) (h.epochs since), List.filter_map, List.map_map]
  have hid : (Prod.snd ∘ fun r : MetricsRecord =>
      (epochOf (bucketSecondsOf bucketDuration) r.processedAt, r)) = id := rfl
  rw [hid, List.map_id]
  apply List.filter_congr
  intro r _
  simp only [Function.comp_apply, inEpoch, decide_eq_decide]
  omega

variable [NeZero bucketCount]

theorem windowData_bucketDuration :
    (records.foldl MetricsRingBuffer.record
      (newRingBuffer bucketDuration bucketCount created)).windowData.bucketDuration =
      bucketLength bucketDuration := by
  have hfold : ∀ (buckets : List Bucket) (wd : WindowData),
      (buckets.foldl WindowData.add wd).bucketDuration = wd.bucketDuration := by
    intro buckets
    induction buckets with
    | nil => exact fun wd => rfl
    | cons b buckets ih => exact fun wd => ih (wd.add b)
  rw [MetricsRingBuffer.windowData, hfold, (MetricsRingBuffer.foldl_record _ _).1]
  rfl

theorem windowData_length :
    (records.foldl MetricsRingBuffer.record
      (newRingBuffer bucketDuration bucketCount created)).windowData.throughputPerBucket.length =
      bucketCount := by
  rw [MetricsRingBuffer.windowData, foldl_window_throughput]
  simp [Ring.window]

/-- The seconds that `buildThroughput` reads off the window are the ring's. -/
theorem bucketLength_tdiv (bucketDuration : Int) :
    (bucketLength bucketDuration).tdiv 1000000000 = bucketSecondsOf bucketDuration :=
  Int.mul_tdiv_cancel _ (by omega)

/-- The entry with index `i`: the interval `i` buckets before the snapshot's, and the counts
`i` buckets before the last record's. -/
def entryOf (bucketDuration created now : Int) (records : List MetricsRecord) (i : Nat) :
    ThroughputEntry :=
  let fromTime := ofUnix ((epochOf (bucketSecondsOf bucketDuration) now - i) *
    bucketSecondsOf bucketDuration)
  let e := highestEpoch bucketDuration created records - i
  { fromTime := fromTime
    toTime := fromTime + (bucketLength bucketDuration - 1000000)
    processedCount := records.countP (inEpoch bucketDuration e) % 2 ^ 32
    deadLetterCount := records.countP (fun r => inEpoch bucketDuration e r ∧ r.deadLetter) % 2 ^ 32 }

theorem InOrder.throughputAt_eq (h : InOrder created now records) (since : 0 ≤ unix created)
    (span : (bucketCount - 1) * bucketLength bucketDuration ≤ 9223372036854775808) :
    throughputAt bucketDuration created now bucketCount records =
      (List.range bucketCount).map (entryOf bucketDuration created now records) := by
  have hsecs := bucketSecondsOf_pos bucketDuration
  unfold throughputAt buildThroughput
  simp only [windowData_length, windowData_bucketDuration, bucketLength_tdiv]
  apply List.map_congr_left
  intro i hi
  rw [List.mem_range] at hi
  have hspan : (i : Int) * bucketLength bucketDuration ≤
      (bucketCount - 1) * bucketLength bucketDuration := by
    apply Int.mul_le_mul_of_nonneg_right
    · omega
    · unfold bucketLength
      omega
  have hnonneg : 0 ≤ (i : Int) * bucketLength bucketDuration :=
    Int.mul_nonneg (by omega) (by unfold bucketLength; omega)
  have hback : int64 (-i * bucketLength bucketDuration) =
      -(i * bucketSecondsOf bucketDuration) * 1000000000 := by
    have hlow : minInt64 ≤ -(i * bucketLength bucketDuration) := by
      unfold minInt64
      omega
    have hhigh : -(i * bucketLength bucketDuration) ≤ maxInt64 := by
      unfold maxInt64
      omega
    rw [Int.neg_mul, int64_of_range hlow hhigh, bucketLength, Int.neg_mul, Int.mul_assoc]
  have hfrom : ofUnix (epochOf (bucketSecondsOf bucketDuration) now *
      bucketSecondsOf bucketDuration) + int64 (-i * bucketLength bucketDuration) =
      ofUnix ((epochOf (bucketSecondsOf bucketDuration) now - i) *
        bucketSecondsOf bucketDuration) := by
    rw [hback, ofUnix, ofUnix, Int.sub_mul]
    omega
  have hdead : ∀ e, records.countP (fun r => r.deadLetter && inEpoch bucketDuration e r) =
      records.countP fun r => inEpoch bucketDuration e r ∧ r.deadLetter := by
    intro e
    apply List.countP_congr
    intro r _
    simp only [Bool.and_eq_true, decide_eq_true_eq]
    exact And.comm
  rw [if_neg (by omega), hfrom, windowData_throughputPerBucket _ _ _ _ (by omega),
    windowData_deadLetterPerBucket _ _ _ _ (by omega), h.recordedIn_eq since hi,
    Option.getD_some, Option.getD_some, List.countP_filter, hdead, ← List.countP_eq_length_filter]
  rfl

theorem covers_iff_inEpoch {entry : ThroughputEntry} {e : Int} {r : MetricsRecord}
    (hfrom : entry.fromTime = ofUnix (e * bucketSecondsOf bucketDuration))
    (hr : 0 ≤ unix r.processedAt) :
    entry.Covers (bucketLength bucketDuration) r ↔ inEpoch bucketDuration e r := by
  rw [ThroughputEntry.Covers, hfrom, inEpoch, decide_eq_true_eq]
  exact interval_iff_epochOf (bucketSecondsOf_pos bucketDuration) hr

/-- An entry is exact when the bucket that it shows has the counts of the one it names. -/
theorem entryOf_exact_iff (h : InOrder created now records) (since : 0 ≤ unix created)
    (counts : ∀ e, records.countP (inEpoch bucketDuration e) < 2 ^ 32) (i : Nat) :
    (entryOf bucketDuration created now records i).Exact (bucketLength bucketDuration) records ↔
      records.countP (inEpoch bucketDuration (highestEpoch bucketDuration created records - i)) =
        records.countP
          (inEpoch bucketDuration (epochOf (bucketSecondsOf bucketDuration) now - i)) ∧
      records.countP (fun r => inEpoch bucketDuration
          (highestEpoch bucketDuration created records - i) r ∧ r.deadLetter) =
        records.countP (fun r => inEpoch bucketDuration
          (epochOf (bucketSecondsOf bucketDuration) now - i) r ∧ r.deadLetter) := by
  have hdead : ∀ e, records.countP (fun r => inEpoch bucketDuration e r ∧ r.deadLetter) < 2 ^ 32 := by
    intro e
    refine lt_of_le_of_lt (List.countP_mono_left ?_) (counts e)
    intro r _ hr
    exact (of_decide_eq_true hr).1
  have hcovers : ∀ r ∈ records,
      ((entryOf bucketDuration created now records i).Covers (bucketLength bucketDuration) r ↔
        inEpoch bucketDuration (epochOf (bucketSecondsOf bucketDuration) now - i) r) :=
    fun r hr => covers_iff_inEpoch rfl (h.unix_nonneg since r hr)
  have hnamed : (records.countP fun r =>
      (entryOf bucketDuration created now records i).Covers (bucketLength bucketDuration) r) =
      records.countP
        (inEpoch bucketDuration (epochOf (bucketSecondsOf bucketDuration) now - i)) := by
    apply List.countP_congr
    intro r hr
    rw [decide_eq_true_eq, hcovers r hr]
  have hnamedDead : (records.countP fun r => (entryOf bucketDuration created now records i).Covers
      (bucketLength bucketDuration) r ∧ r.deadLetter) = records.countP fun r =>
        inEpoch bucketDuration (epochOf (bucketSecondsOf bucketDuration) now - i) r ∧
          r.deadLetter := by
    apply List.countP_congr
    intro r hr
    rw [decide_eq_true_eq, decide_eq_true_eq, hcovers r hr]
  constructor
  · intro hexact
    have h1 := hexact.processed
    have h2 := hexact.deadLettered
    rw [hnamed, entryOf, Nat.mod_eq_of_lt (counts _)] at h1
    rw [hnamedDead, entryOf, Nat.mod_eq_of_lt (hdead _)] at h2
    exact ⟨h1, h2⟩
  · intro hcounts
    refine ⟨?_, ?_⟩
    · rw [hnamed, entryOf, Nat.mod_eq_of_lt (counts _)]
      exact hcounts.1
    · rw [hnamedDead, entryOf, Nat.mod_eq_of_lt (hdead _)]
      exact hcounts.2

theorem InOrder.highestEpoch_eq (bucketDuration : Int) (h : InOrder created now records)
    (since : 0 ≤ unix created) {r : MetricsRecord} (hr : records.getLast? = some r) :
    highestEpoch bucketDuration created records =
      epochOf (bucketSecondsOf bucketDuration) r.processedAt :=
  Ring.foldl_max_of_ordered _ (h.created_le since) (h.epochs since) hr

theorem InOrder.epoch_le_highest (bucketDuration : Int) (h : InOrder created now records)
    (since : 0 ≤ unix created) {r : MetricsRecord} (hr : r ∈ records) :
    epochOf (bucketSecondsOf bucketDuration) r.processedAt ≤
      highestEpoch bucketDuration created records := by
  apply Ring.history_le _ _ _ (epochOf (bucketSecondsOf bucketDuration) r.processedAt, r)
  rw [Ring.history_of_ordered _ (h.created_le since) (h.epochs since)]
  exact List.mem_map_of_mem hr

/-- The entries report the intervals they name exactly while the snapshot is taken in the
bucket of the last record. -/
theorem throughput_exact_iff (h : InOrder created now records) (since : 0 ≤ unix created)
    (span : (bucketCount - 1) * bucketLength bucketDuration ≤ 9223372036854775808)
    (counts : ∀ e, records.countP (inEpoch bucketDuration e) < 2 ^ 32) :
    (∀ entry ∈ throughputAt bucketDuration created now bucketCount records,
      entry.Exact (bucketLength bucketDuration) records) ↔
      ∀ r ∈ records.getLast?, epochOf (bucketSecondsOf bucketDuration) r.processedAt =
        epochOf (bucketSecondsOf bucketDuration) now := by
  rw [h.throughputAt_eq since span]
  constructor
  · intro hexact r hr
    have hmem : r ∈ records := List.mem_of_getLast? hr
    have hhighest := h.highestEpoch_eq bucketDuration since hr
    have hunix := h.unix_nonneg since r hmem
    -- the newest entry shows the last record, so the bucket it names has a record too
    have hfirst := hexact _ (List.mem_map_of_mem
      (List.mem_range.mpr (Nat.pos_of_neZero bucketCount)))
    have hcount := ((entryOf_exact_iff h since counts 0).mp hfirst).1
    have hpos : 0 < records.countP
        (inEpoch bucketDuration (highestEpoch bucketDuration created records - (0 : Nat))) := by
      apply List.countP_pos_iff.mpr
      refine ⟨r, hmem, decide_eq_true ?_⟩
      omega
    rw [hcount] at hpos
    obtain ⟨q, hq, hnow⟩ := List.countP_pos_iff.mp hpos
    have hle := h.epoch_le_highest bucketDuration since hq
    have hbefore := epochOf_mono (bucketSecondsOf_pos bucketDuration) hunix (h.before r hmem)
    have hnow' := of_decide_eq_true hnow
    omega
  · intro hlast entry hentry
    obtain ⟨i, _, rfl⟩ := List.mem_map.mp hentry
    apply (entryOf_exact_iff h since counts i).mpr
    cases hr : records.getLast? with
    | none =>
      rw [List.getLast?_eq_none_iff.mp hr]
      exact ⟨rfl, rfl⟩
    | some r =>
      rw [h.highestEpoch_eq bucketDuration since hr, hlast r hr]
      exact ⟨rfl, rfl⟩

end Snapshot

/-- One record, and a snapshot 200 ms later in the same second. -/
theorem throughput_exact_same_second :
    InOrder 63835596800000000000 63835596800600000000 [⟨63835596800400000000, 3, 5, true⟩] ∧
    ∀ entry ∈ throughputAt 1000000000 63835596800000000000 63835596800600000000 15
        [⟨63835596800400000000, 3, 5, true⟩],
      entry.Exact (bucketLength 1000000000) [⟨63835596800400000000, 3, 5, true⟩] := by
  have horder : InOrder 63835596800000000000 63835596800600000000
      [⟨63835596800400000000, 3, 5, true⟩] := ⟨List.pairwise_singleton _ _, by simp, by simp⟩
  refine ⟨horder, ?_⟩
  apply (throughput_exact_iff horder _ _ _).mpr
  · simp only [List.getLast?_singleton, Option.mem_some_iff, forall_eq']
    decide
  · decide
  · decide
  · intro e
    exact lt_of_le_of_lt List.countP_le_length (by decide)

/-- The window of an idle ring under the labels of a later second: the same record, and a
snapshot one second later that reports it for that second. -/
theorem idle_window_relabelled :
    InOrder 63835596800000000000 63835596801400000000 [⟨63835596800400000000, 3, 5, true⟩] ∧
    (∀ e, [⟨63835596800400000000, 3, 5, true⟩].countP (inEpoch 1000000000 e) < 2 ^ 32) ∧
    (throughputAt 1000000000 63835596800000000000 63835596801400000000 15
      [⟨63835596800400000000, 3, 5, true⟩]).head? =
      some ⟨63835596801000000000, 63835596801999000000, 1, 1⟩ ∧
    ¬ ∀ entry ∈ throughputAt 1000000000 63835596800000000000 63835596801400000000 15
        [⟨63835596800400000000, 3, 5, true⟩],
      entry.Exact (bucketLength 1000000000) [⟨63835596800400000000, 3, 5, true⟩] := by
  have hhead : (throughputAt 1000000000 63835596800000000000 63835596801400000000 15
      [⟨63835596800400000000, 3, 5, true⟩]).head? =
      some ⟨63835596801000000000, 63835596801999000000, 1, 1⟩ := by decide
  refine ⟨⟨List.pairwise_singleton _ _, by simp, by simp⟩, fun e => ?_, hhead, fun hexact => ?_⟩
  · exact lt_of_le_of_lt List.countP_le_length (by decide)
  have hentry := (hexact _ (List.mem_of_mem_head? hhead)).processed
  exact absurd hentry (by decide)

end LlingrDemux.Snapshot
