import LlingrDemux.Offset.Committer
import LlingrDemux.Shared.SlidingWindow

/-!
# The metrics window of the committer

`metricsRingBuffer` counts the retired messages by the second they were processed in. A
record that comes late is counted in the current bucket. Sums of durations wrap as the machine's
integers do, and the counts of a window are cut to 32 bits as the source does it.
-/

namespace LlingrDemux.Offset

open Shared
set_option autoImplicit false

structure Bucket where
  count : Nat := 0
  deadLetterCount : Nat := 0
  totalProcessNanos : Int := 0
  totalEndToEndNanos : Int := 0
  maxProcessNanos : Int := 0
  maxEndToEndNanos : Int := 0
  minEndToEndNanos : Int := 0
  deriving DecidableEq, Repr

/-- What `record` does to the current bucket. -/
def Bucket.add (b : Bucket) (r : MetricsRecord) : Bucket where
  count := b.count + 1
  deadLetterCount := if r.deadLetter then b.deadLetterCount + 1 else b.deadLetterCount
  totalProcessNanos := int64 (b.totalProcessNanos + r.processDuration)
  totalEndToEndNanos := int64 (b.totalEndToEndNanos + r.endToEnd)
  maxProcessNanos :=
    if r.processDuration > b.maxProcessNanos then r.processDuration else b.maxProcessNanos
  maxEndToEndNanos := if r.endToEnd > b.maxEndToEndNanos then r.endToEnd else b.maxEndToEndNanos
  minEndToEndNanos :=
    if b.minEndToEndNanos = 0 ∨ r.endToEnd < b.minEndToEndNanos then r.endToEnd
    else b.minEndToEndNanos

/-- `Time.Unix`: the zero time lies that many seconds before 1970. -/
def unix (t : Int) : Int := t / 1000000000 - 62135596800

/-- Go's division cuts towards zero. -/
def epochOf (bucketSeconds : Int) (t : Int) : Int := (unix t).tdiv bucketSeconds

/-- The ring's length is `bucketCount`; a position in it is an index below that. -/
structure MetricsRingBuffer (bucketCount : Nat) extends Ring bucketCount Bucket where
  totalProcessed : Nat := 0
  bucketSeconds : Int

def bucketSecondsOf (bucketDuration : Int) : Int := max (bucketDuration.tdiv 1000000000) 1

def newRingBuffer (bucketDuration : Int) (bucketCount : Nat) [NeZero bucketCount] (now : Int) :
    MetricsRingBuffer bucketCount where
  buckets := fun _ => {}
  currentIndex := 0
  lastEpoch := epochOf (bucketSecondsOf bucketDuration) now
  bucketSeconds := bucketSecondsOf bucketDuration

/-- The fields of `snapshot.WindowData`. -/
structure WindowData where
  throughputPerBucket : List Nat := []
  deadLetterPerBucket : List Nat := []
  bucketDuration : Int
  totalProcessed : Nat
  totalCount : Nat := 0
  totalProcessNanos : Int := 0
  totalEndToEndNanos : Int := 0
  maxProcessNanos : Int := 0
  maxEndToEndNanos : Int := 0
  minEndToEndNanos : Int := 0
  deriving DecidableEq, Repr

/-- The loop body of `windowData`. -/
def WindowData.add (wd : WindowData) (b : Bucket) : WindowData where
  throughputPerBucket := wd.throughputPerBucket ++ [b.count % 2 ^ 32]
  deadLetterPerBucket := wd.deadLetterPerBucket ++ [b.deadLetterCount % 2 ^ 32]
  bucketDuration := wd.bucketDuration
  totalProcessed := wd.totalProcessed
  totalCount := wd.totalCount + b.count
  totalProcessNanos := int64 (wd.totalProcessNanos + b.totalProcessNanos)
  totalEndToEndNanos := int64 (wd.totalEndToEndNanos + b.totalEndToEndNanos)
  maxProcessNanos :=
    if b.maxProcessNanos > wd.maxProcessNanos then b.maxProcessNanos else wd.maxProcessNanos
  maxEndToEndNanos :=
    if b.maxEndToEndNanos > wd.maxEndToEndNanos then b.maxEndToEndNanos else wd.maxEndToEndNanos
  minEndToEndNanos :=
    if b.count > 0 ∧ (wd.minEndToEndNanos = 0 ∨ b.minEndToEndNanos < wd.minEndToEndNanos)
      then b.minEndToEndNanos
      else wd.minEndToEndNanos

namespace MetricsRingBuffer
variable {bucketCount : Nat}

/-- Advances to the record's second if it is a later one and adds to the current bucket. -/
def record (rb : MetricsRingBuffer bucketCount) (r : MetricsRecord) :
    MetricsRingBuffer bucketCount :=
  { rb with
    toRing := rb.put {} (·.add r) (epochOf rb.bucketSeconds r.processedAt)
    totalProcessed := rb.totalProcessed + 1 }

def windowData (rb : MetricsRingBuffer bucketCount) : WindowData :=
  rb.window.foldl WindowData.add
    { totalProcessed := rb.totalProcessed, bucketDuration := rb.bucketSeconds * 1000000000 }

theorem foldl_record (records : List MetricsRecord) (rb : MetricsRingBuffer bucketCount) :
    (records.foldl record rb).bucketSeconds = rb.bucketSeconds ∧
    (records.foldl record rb).toRing =
      records.foldl (fun r x => r.put {} (·.add x) (epochOf rb.bucketSeconds x.processedAt))
        rb.toRing := by
  induction records generalizing rb with
  | nil => exact ⟨rfl, rfl⟩
  | cons r records ih => exact ih (rb.record r)

theorem foldl_record_totalProcessed (records : List MetricsRecord)
    (rb : MetricsRingBuffer bucketCount) :
    (records.foldl record rb).totalProcessed = rb.totalProcessed + records.length := by
  induction records generalizing rb with
  | nil => rfl
  | cons r records ih =>
    rw [List.foldl_cons, ih, List.length_cons]
    simp only [record]
    omega

end MetricsRingBuffer

/-- A column that every bucket extends by its own value. -/
theorem foldl_window_column {column : WindowData → List Nat} {value : Bucket → Nat}
    (h : ∀ wd b, column (wd.add b) = column wd ++ [value b]) (buckets : List Bucket)
    (wd : WindowData) :
    column (buckets.foldl WindowData.add wd) = column wd ++ buckets.map value := by
  induction buckets generalizing wd with
  | nil => simp
  | cons b buckets ih =>
    rw [List.foldl_cons, ih, h]
    simp

theorem foldl_window_deadLetter (buckets : List Bucket) (wd : WindowData) :
    (buckets.foldl WindowData.add wd).deadLetterPerBucket =
      wd.deadLetterPerBucket ++ buckets.map fun b => b.deadLetterCount % 2 ^ 32 := by
  apply foldl_window_column
  exact fun _ _ => rfl

theorem foldl_window_throughput (buckets : List Bucket) (wd : WindowData) :
    (buckets.foldl WindowData.add wd).throughputPerBucket =
      wd.throughputPerBucket ++ buckets.map fun b => b.count % 2 ^ 32 := by
  apply foldl_window_column
  exact fun _ _ => rfl

/-- A counter that every record of one kind moves by one. -/
theorem foldl_add_counter (counter : Bucket → Nat) (kind : MetricsRecord → Bool)
    (h : ∀ b r, counter (b.add r) = counter b + if kind r then 1 else 0)
    (records : List MetricsRecord) (b : Bucket) :
    counter (records.foldl Bucket.add b) = counter b + records.countP kind := by
  induction records generalizing b with
  | nil => rfl
  | cons r records ih =>
    rw [List.foldl_cons, ih, h, List.countP_cons]
    omega

theorem foldl_add_deadLetterCount (records : List MetricsRecord) (b : Bucket) :
    (records.foldl Bucket.add b).deadLetterCount =
      b.deadLetterCount + records.countP MetricsRecord.deadLetter := by
  apply foldl_add_counter Bucket.deadLetterCount MetricsRecord.deadLetter
  intro b r
  simp only [Bucket.add]
  split_ifs <;> rfl

theorem foldl_add_count (records : List MetricsRecord) (b : Bucket) :
    (records.foldl Bucket.add b).count = b.count + records.length := by
  rw [foldl_add_counter Bucket.count (fun _ => true) fun _ _ => rfl, List.countP_true]

/-- The elements that a ring created at `now` counts in bucket `i` of its window, the oldest
being bucket 0, when they are recorded in order. -/
def recordedIn {ρ : Type} (processedAt : ρ → Int) (bucketDuration now : Int)
    (bucketCount i : Nat) (xs : List ρ) : List ρ :=
  let epoch := fun x => epochOf (bucketSecondsOf bucketDuration) (processedAt x)
  let created := epochOf (bucketSecondsOf bucketDuration) now
  let last := xs.foldl (fun e x => max e (epoch x)) created
  Ring.attributed epoch (last + (i + 1) - bucketCount) created xs

section Window
variable (bucketDuration now : Int) (bucketCount : Nat)

theorem recordedIn_map {ρ τ : Type} (processedAt : ρ → Int) (f : τ → ρ) (i : Nat) (xs : List τ) :
    recordedIn processedAt bucketDuration now bucketCount i (xs.map f) =
      (recordedIn (fun x => processedAt (f x)) bucketDuration now bucketCount i xs).map f := by
  simp only [recordedIn, List.foldl_map, Ring.attributed_map]

variable [NeZero bucketCount] (records : List MetricsRecord)

/-- Each bucket of the window has accumulated the records of its second, in order. -/
theorem window_recordedIn {i : Nat} (hi : i < bucketCount) :
    (records.foldl MetricsRingBuffer.record
        (newRingBuffer bucketDuration bucketCount now)).window[i]? =
      some ((recordedIn MetricsRecord.processedAt bucketDuration now bucketCount i records).foldl
        Bucket.add {}) := by
  obtain ⟨_, hring⟩ :=
    MetricsRingBuffer.foldl_record records (newRingBuffer bucketDuration bucketCount now)
  have hshows := Ring.Shows.foldl (fun r : MetricsRecord =>
    epochOf (bucketSecondsOf bucketDuration) r.processedAt) Bucket.add records
    (Ring.Shows.initial {} (0 : Fin bucketCount) (epochOf (bucketSecondsOf bucketDuration) now))
  rw [hring]
  refine (hshows.window_getElem hi).trans ?_
  rw [Ring.foldl_put_lastEpoch]
  rfl

/-- The dead-letter counts of a window are those of the records of each second. -/
theorem windowData_deadLetterPerBucket {i : Nat} (hi : i < bucketCount) :
    (records.foldl MetricsRingBuffer.record
        (newRingBuffer bucketDuration bucketCount now)).windowData.deadLetterPerBucket[i]? =
      some ((recordedIn MetricsRecord.processedAt bucketDuration now bucketCount i records).countP
        MetricsRecord.deadLetter % 2 ^ 32) := by
  rw [MetricsRingBuffer.windowData, foldl_window_deadLetter, List.nil_append, List.getElem?_map,
    window_recordedIn bucketDuration now bucketCount records hi, Option.map_some,
    foldl_add_deadLetterCount, Nat.zero_add]

/-- The counts of a window are those of the records of each second. -/
theorem windowData_throughputPerBucket {i : Nat} (hi : i < bucketCount) :
    (records.foldl MetricsRingBuffer.record
        (newRingBuffer bucketDuration bucketCount now)).windowData.throughputPerBucket[i]? =
      some ((recordedIn MetricsRecord.processedAt bucketDuration now bucketCount i
        records).length % 2 ^ 32) := by
  rw [MetricsRingBuffer.windowData, foldl_window_throughput, List.nil_append, List.getElem?_map,
    window_recordedIn bucketDuration now bucketCount records hi, Option.map_some,
    foldl_add_count, Nat.zero_add]

end Window

end LlingrDemux.Offset
