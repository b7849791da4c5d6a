import Mathlib.Tactic.Common

/-!
# Work items

The data that travels from a poll to a broker commit: the message, the metrics
record that is filled in on the way, and the stamps `PreviousOffset` and `First`
that the predecessor tracking puts on each fetched record. Offsets and times are
unbounded integers (nanoseconds for times, with `0` for Go's zero time): a broker
position `offset + 1` is itself an `int64`, so no increment of the source wraps.
-/

namespace LlingrDemux

set_option autoImplicit false

/-- `nexus.RebalanceType`; every other value reaches the default branch. -/
inductive RebalanceType where
  | assign
  | revoke
  | unsupported (code : Int)
  deriving DecidableEq, Repr

/-- The named bits of `nexus.Traits` that the engine sets or tests. -/
structure Traits where
  usedOverflow : Bool := false
  firstAfterRebalance : Bool := false
  commitBuffered : Bool := false
  orphaned : Bool := false
  processPanic : Bool := false
  processError : Bool := false
  deadLetter : Bool := false
  deriving DecidableEq, Repr

structure Message (T : Type) where
  partition : Int
  offset : Int
  key : String := ""
  traits : Traits := {}
  payload : Option T := none
  deriving DecidableEq, Repr

structure Metrics where
  traits : Traits := {}
  readTime : Int := 0
  queueDepth : Nat := 0
  processStartTime : Int := 0
  processDuration : Int := 0
  writeDeadLetterDuration : Int := 0
  watermarkAdvanceTime : Int := 0
  deriving DecidableEq, Repr

/-- A work item with its identity `ptr`: the source compares work items by pointer. -/
structure WorkItem (T : Type) where
  ptr : Nat
  message : Message T
  metrics : Metrics := {}
  previousOffset : Int := -1
  first : Bool := false
  workerPool : Nat := 0
  deriving DecidableEq, Repr

namespace WorkItem
variable {T : Type}

def offset (w : WorkItem T) : Int := w.message.offset

def partition (w : WorkItem T) : Int := w.message.partition

def readTime (w : WorkItem T) : Int := w.metrics.readTime

/-- What the committer's decisions read of a work item; nothing it does to one changes it. -/
structure Stamp where
  ptr : Nat
  partition : Int
  offset : Int
  previousOffset : Int
  first : Bool
  readTime : Int
  deriving DecidableEq, Repr

def stamp (w : WorkItem T) : Stamp :=
  ⟨w.ptr, w.partition, w.offset, w.previousOffset, w.first, w.readTime⟩

@[simp] theorem stamp_ptr (w : WorkItem T) : w.stamp.ptr = w.ptr := rfl
@[simp] theorem stamp_partition (w : WorkItem T) : w.stamp.partition = w.partition := rfl
@[simp] theorem stamp_offset (w : WorkItem T) : w.stamp.offset = w.offset := rfl
@[simp] theorem stamp_previousOffset (w : WorkItem T) :
    w.stamp.previousOffset = w.previousOffset := rfl
@[simp] theorem stamp_first (w : WorkItem T) : w.stamp.first = w.first := rfl
@[simp] theorem stamp_readTime (w : WorkItem T) : w.stamp.readTime = w.readTime := rfl

def setOrphaned (w : WorkItem T) : WorkItem T :=
  { w with metrics.traits.orphaned := true }

def setCommitBuffered (w : WorkItem T) : WorkItem T :=
  { w with metrics.traits.commitBuffered := true }

def setFirstAfterRebalance (w : WorkItem T) : WorkItem T :=
  { w with metrics.traits.firstAfterRebalance := true }

def setWatermarkAdvanceTime (w : WorkItem T) (now : Int) : WorkItem T :=
  { w with metrics.watermarkAdvanceTime := now }

/-- Not marked as orphaned. -/
def Clean (w : WorkItem T) : Prop := w.metrics.traits.orphaned = false

@[simp] theorem stamp_setOrphaned (w : WorkItem T) : w.setOrphaned.stamp = w.stamp := rfl
@[simp] theorem stamp_setCommitBuffered (w : WorkItem T) :
    w.setCommitBuffered.stamp = w.stamp := rfl
@[simp] theorem stamp_setFirstAfterRebalance (w : WorkItem T) :
    w.setFirstAfterRebalance.stamp = w.stamp := rfl
@[simp] theorem stamp_setWatermarkAdvanceTime (w : WorkItem T) (now : Int) :
    (w.setWatermarkAdvanceTime now).stamp = w.stamp := rfl

theorem offset_of_stamp {v w : WorkItem T} (h : v.stamp = w.stamp) : v.offset = w.offset :=
  congrArg Stamp.offset h

theorem previousOffset_of_stamp {v w : WorkItem T} (h : v.stamp = w.stamp) :
    v.previousOffset = w.previousOffset := congrArg Stamp.previousOffset h

end WorkItem

end LlingrDemux
