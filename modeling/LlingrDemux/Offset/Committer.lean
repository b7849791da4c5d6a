import LlingrDemux.Offset.Tracker
import LlingrDemux.Shared.Int64
import LlingrDemux.Shared.KeyedFold
import Mathlib.Logic.Function.Basic

/-!
# The committer over all its partitions

The partition map, the set of assigned partitions and the work items handed to the
metrics collector, with the operations that run under the committer's mutex. Go
iterates over a map in an unspecified order, so every loop takes the order it
happens to use. What an operation does to one partition's tracker is the tracker's
own operation, whatever the order and the other partitions are.
-/

namespace LlingrDemux.Offset

open Shared
set_option autoImplicit false

/-- The arguments of one `metricsBuffer.record` call. -/
structure MetricsRecord where
  processedAt : Int
  processDuration : Int
  endToEnd : Int
  deadLetter : Bool
  deriving DecidableEq, Repr

inductive CommitError where
  | errBrokerCommitFailed
  | acquireGuardFailed
  deriving DecidableEq, Repr

structure Committer (T : Type) where
  partitionMap : Int → Option (OffsetsTracker T) := fun _ => none
  assigned : Int → Bool := fun _ => false
  collected : List (WorkItem T) := []
  recorded : List MetricsRecord := []
  totalProcessed : Nat := 0

/-- What the environment decides about one `CommitOffsets` call. The flush reads the clock once,
`repairSuccessor` for each partition. -/
structure Tick where
  guardAcquired : Bool := true
  flushOrder : List Int
  commitOrder : List Int
  flushTime : Int := 0
  repairTime : Int → Int := fun _ => 0
  accepted : Bool := true

variable {T : Type}

/-- `time.Time.Sub`: a duration is an `int64`, and one that is not ends at its bounds. -/
def timeSub (t u : Int) : Int := saturate (t - u)

/-- The record of one collected work item. -/
def MetricsRecord.ofItem (w : WorkItem T) : MetricsRecord :=
  ⟨w.metrics.processStartTime + w.metrics.processDuration, w.metrics.processDuration,
    timeSub w.metrics.watermarkAdvanceTime w.metrics.readTime, w.metrics.traits.deadLetter⟩

structure TickResult (T : Type) where
  committer : Committer T
  sent : List (WorkItem T)
  error : Option CommitError

namespace Committer

def returnMessageAndCollectMetrics (c : Committer T) (w : WorkItem T) : Committer T :=
  { c with
    totalProcessed := c.totalProcessed + 1
    recorded := c.recorded ++ [.ofItem w]
    collected := c.collected ++ [w] }

def store (c : Committer T) (p : Int) (r : OffsetsTracker T × List (WorkItem T)) : Committer T :=
  r.2.foldl returnMessageAndCollectMetrics
    { c with partitionMap := Function.update c.partitionMap p (some r.1) }

def processCommit (c : Committer T) (w : WorkItem T) (now : Int) : Committer T :=
  c.store w.partition (OffsetsTracker.processCommit (c.partitionMap w.partition) w now)

def flushPartition (slices : SortFunc (WorkItem T)) (now : Int) (c : Committer T) (p : Int) :
    Committer T :=
  match c.partitionMap p with
  | none => c
  | some t => c.store p (t.flush slices now)

def flushGapBuffers (slices : SortFunc (WorkItem T)) (order : List Int) (now : Int)
    (c : Committer T) : Committer T :=
  order.foldl (flushPartition slices now) c

def commitPartition (repairTime : Int → Int) (s : Committer T × List (WorkItem T)) (p : Int) :
    Committer T × List (WorkItem T) :=
  match s.1.partitionMap p with
  | none => s
  | some t =>
    let q := t.collectCommit (s.1.assigned p) (repairTime p)
    (s.1.store p (q.1, q.2.1), s.2 ++ q.2.2.toList)

def acceptMessage (c : Committer T) (w : WorkItem T) : Committer T :=
  match c.partitionMap w.partition with
  | none => c
  | some t => c.store w.partition (t.acceptCommit w.offset)

/-- `CommitOffsets`; `sent` is the batch of the broker call, empty when there is none. -/
def commitOffsets (slices : SortFunc (WorkItem T)) (k : Tick) (c : Committer T) : TickResult T :=
  if !k.guardAcquired then ⟨c, [], some .acquireGuardFailed⟩
  else
    let s := k.commitOrder.foldl (commitPartition k.repairTime)
      (c.flushGapBuffers slices k.flushOrder k.flushTime, [])
    if s.2.isEmpty then ⟨s.1, [], none⟩
    else if !k.accepted then ⟨s.1, s.2, some .errBrokerCommitFailed⟩
    else ⟨s.2.foldl acceptMessage s.1, s.2, none⟩

def resetPartition (c : Committer T) (r : Int × Int) : Committer T :=
  c.store r.1 (OffsetsTracker.resetCommittedOffset (c.partitionMap r.1) r.2)

def resetCommittedOffsets (c : Committer T) (partitionOffsets : List (Int × Int)) : Committer T :=
  partitionOffsets.foldl resetPartition c

def markPartitionAssigned (c : Committer T) (p : Int) : Committer T :=
  { c with assigned := Function.update c.assigned p true }

def markPartitionRevoked (c : Committer T) (p : Int) : Committer T :=
  { c with
    assigned := Function.update c.assigned p false
    partitionMap := Function.update c.partitionMap p
      ((c.partitionMap p).map fun t => { t with assignment := .revoke }) }

/-- An order in which a loop over the partition map may visit its entries. -/
def Iterates (c : Committer T) (order : List Int) : Prop :=
  order.Nodup ∧ ∀ p, p ∈ order ↔ (c.partitionMap p).isSome

theorem iterates_singleton {c : Committer T} {p : Int} (hsome : (c.partitionMap p).isSome)
    (hother : ∀ q, q ≠ p → c.partitionMap q = none) : c.Iterates [p] := by
  refine ⟨List.nodup_singleton p, ?_⟩
  intro q
  by_cases hq : q = p
  · subst hq
    simpa using hsome
  · simp [hq, hother q hq]

/-- The entry of one partition. -/
def entry (c : Committer T) (p : Int) : Option (OffsetsTracker T) × Bool :=
  (c.partitionMap p, c.assigned p)

section Store
variable (c : Committer T) (p q : Int) (r : OffsetsTracker T × List (WorkItem T))

theorem foldl_return_fields (ws : List (WorkItem T)) :
    (ws.foldl returnMessageAndCollectMetrics c).partitionMap = c.partitionMap ∧
    (ws.foldl returnMessageAndCollectMetrics c).assigned = c.assigned ∧
    (ws.foldl returnMessageAndCollectMetrics c).collected = c.collected ++ ws ∧
    (ws.foldl returnMessageAndCollectMetrics c).totalProcessed = c.totalProcessed + ws.length := by
  induction ws generalizing c with
  | nil => simp
  | cons w ws ih =>
    obtain ⟨h1, h2, h3, h4⟩ := ih (c.returnMessageAndCollectMetrics w)
    refine ⟨h1, h2, ?_, ?_⟩
    · rw [List.foldl_cons, h3]
      simp [returnMessageAndCollectMetrics]
    · rw [List.foldl_cons, h4]
      simp only [returnMessageAndCollectMetrics, List.length_cons]
      omega

theorem foldl_return_recorded (ws : List (WorkItem T)) :
    (ws.foldl returnMessageAndCollectMetrics c).recorded =
      c.recorded ++ ws.map MetricsRecord.ofItem := by
  induction ws generalizing c with
  | nil => simp
  | cons w ws ih =>
    rw [List.foldl_cons, ih]
    simp [returnMessageAndCollectMetrics]

@[simp] theorem store_partitionMap :
    (c.store p r).partitionMap = Function.update c.partitionMap p (some r.1) :=
  (foldl_return_fields _ r.2).1

@[simp] theorem store_assigned : (c.store p r).assigned = c.assigned :=
  (foldl_return_fields _ r.2).2.1

@[simp] theorem store_collected : (c.store p r).collected = c.collected ++ r.2 :=
  (foldl_return_fields _ r.2).2.2.1

@[simp] theorem store_recorded :
    (c.store p r).recorded = c.recorded ++ r.2.map MetricsRecord.ofItem :=
  foldl_return_recorded _ r.2

@[simp] theorem store_totalProcessed :
    (c.store p r).totalProcessed = c.totalProcessed + r.2.length :=
  (foldl_return_fields _ r.2).2.2.2

theorem store_entry_other {p q : Int} (h : q ≠ p) : (c.store p r).entry q = c.entry q := by
  simp [entry, Function.update_of_ne h]

end Store

end Committer

end LlingrDemux.Offset
