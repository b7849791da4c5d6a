import LlingrDemux.Offset.WorkItem
import LlingrDemux.Shared.SortCompact

/-!
# One partition's offsets tracker

The commit algorithm of one partition: `processCommit`, the deferred sorted walk
of `flushGapBuffers`, the repair of last resort and the tick. Every operation
returns the new tracker with the work items it hands to
`returnMessageAndCollectMetrics`, in order. The argument `now` is the instant that
the source's own `now.Add(time.Since(now))` or `time.Now()` evaluates to. Log lines
and slice capacities are left out.
-/

namespace LlingrDemux.Offset

open Shared
set_option autoImplicit false

structure OffsetsTracker (T : Type) where
  ready : Option (WorkItem T) := none
  assignment : RebalanceType := .assign
  minOffsetSeen : Int := 0
  maxOffsetSeen : Int := 0
  gapBuffer : List (WorkItem T) := []
  needsGapAdvance : Bool := false
  committedPlusOne : Int
  lastCommittedOffset : Int := -1
  deriving DecidableEq, Repr

variable {T : Type}

/-- Marked orphaned and stamped with the time of its detection. -/
def orphanedAt (w : WorkItem T) (now : Int) : WorkItem T :=
  w.setOrphaned.setWatermarkAdvanceTime now

@[simp] theorem stamp_orphanedAt (w : WorkItem T) (now : Int) :
    (orphanedAt w now).stamp = w.stamp := rfl

namespace OffsetsTracker

/-- The tracker `processCommit` creates for a partition seen for the first time. -/
def ofFirstSeen (offset : Int) : OffsetsTracker T where
  committedPlusOne := -1
  minOffsetSeen := offset
  maxOffsetSeen := offset

def seeOffset (t : OffsetsTracker T) (offset : Int) : OffsetsTracker T :=
  if offset < t.minOffsetSeen then { t with minOffsetSeen := offset }
  else if offset > t.maxOffsetSeen then { t with maxOffsetSeen := offset }
  else t

def addToGapBuffer (t : OffsetsTracker T) (w : WorkItem T) : OffsetsTracker T :=
  { t with gapBuffer := t.gapBuffer ++ [w.setCommitBuffered] }

def advanceThroughGapBuffer (t : OffsetsTracker T) (readyOffset : Int) : OffsetsTracker T :=
  if t.gapBuffer.any (fun g => readyOffset == g.previousOffset) then
    { t with needsGapAdvance := true }
  else t

def checkAndAdvance (t : OffsetsTracker T) (w : WorkItem T) (now : Int) :
    OffsetsTracker T × List (WorkItem T) :=
  match t.ready with
  | none =>
    if t.committedPlusOne = w.offset then
      (advanceThroughGapBuffer { t with ready := some (w.setWatermarkAdvanceTime now) } w.offset, [])
    else if t.committedPlusOne > w.offset then
      (t, [orphanedAt w now])
    else
      let t' := addToGapBuffer t w
      -- only an arrival that satisfies an initialisation rule may ask for the walk
      if w.offset = t'.committedPlusOne ∨
          (0 ≤ t'.lastCommittedOffset ∧ w.previousOffset = t'.lastCommittedOffset) then
        ({ t' with needsGapAdvance := true }, [])
      else (t', [])
  | some r =>
    if r.offset > w.offset then
      (t, [orphanedAt w now])
    else if r.offset = w.previousOffset ∨ r.offset = w.offset then
      (advanceThroughGapBuffer { t with ready := some (w.setWatermarkAdvanceTime now) } w.offset, [r])
    else (addToGapBuffer t w, [])

/-- The `First` flag raises the baseline, never lowers it. -/
def raiseFromFirst (t : OffsetsTracker T) (w : WorkItem T) : OffsetsTracker T :=
  if w.first ∧ w.offset ≥ t.committedPlusOne then { t with committedPlusOne := w.offset } else t

/-- `SetFirstAfterRebalance` on a `First` item. -/
def markFirst (w : WorkItem T) : WorkItem T :=
  if w.first then w.setFirstAfterRebalance else w

/-- The tracker that receives `w`: found or created, its extremes and its baseline updated. -/
def arrive (t : Option (OffsetsTracker T)) (w : WorkItem T) : OffsetsTracker T :=
  match t with
  | none => (ofFirstSeen w.offset).raiseFromFirst w
  | some t => (t.seeOffset w.offset).raiseFromFirst w

def processCommit (t : Option (OffsetsTracker T)) (w : WorkItem T) (now : Int) :
    OffsetsTracker T × List (WorkItem T) :=
  (arrive t w).checkAndAdvance (markFirst w) now

/-- `time.Time.Compare`. -/
def timeCompare (a b : Int) : Int := if a < b then -1 else if a > b then 1 else 0

/-- The comparator of `sortGapBuffer`: by offset, the later read twin first. -/
def gapOrder (a b : WorkItem T) : Int :=
  if a.offset < b.offset then -1
  else if a.offset > b.offset then 1
  else timeCompare b.readTime a.readTime

def sortGapBuffer (slices : SortFunc (WorkItem T)) (buffer : List (WorkItem T)) :
    List (WorkItem T) :=
  let sorted := slices.run gapOrder buffer
  let foundDuplicate := (slices.calls gapOrder buffer).any fun c => c.1.offset == c.2.offset
  if foundDuplicate then compactFunc (fun a b => decide (a.offset = b.offset)) sorted else sorted

structure WalkResult (T : Type) where
  ready : Option (WorkItem T)
  retired : List (WorkItem T)
  rest : List (WorkItem T)

/-- The walk of `flushGapBuffers` over the sorted buffer; `rest` is what lies behind
the last index it advanced over. -/
def walk (committedPlusOne lastCommittedOffset now : Int) :
    Option (WorkItem T) → List (WorkItem T) → WalkResult T
  | ready, [] => ⟨ready, [], []⟩
  | none, g :: gs =>
    if g.offset < committedPlusOne then
      -- a leftover below the baseline can never commit
      let r := walk committedPlusOne lastCommittedOffset now none gs
      { r with retired := orphanedAt g now :: r.retired }
    else if g.offset = committedPlusOne ∨
        (0 ≤ lastCommittedOffset ∧ g.previousOffset = lastCommittedOffset) then
      walk committedPlusOne lastCommittedOffset now (some (g.setWatermarkAdvanceTime now)) gs
    else ⟨none, [], g :: gs⟩
  | some r, g :: gs =>
    if g.offset ≤ r.offset then
      let q := walk committedPlusOne lastCommittedOffset now (some r) gs
      { q with retired := orphanedAt g now :: q.retired }
    else if r.offset = g.previousOffset then
      let q := walk committedPlusOne lastCommittedOffset now (some (g.setWatermarkAdvanceTime now)) gs
      { q with retired := r :: q.retired }
    else ⟨some r, [], g :: gs⟩

/-- The part of `flushGapBuffers` behind the flag test. -/
def sortAndWalk (slices : SortFunc (WorkItem T)) (t : OffsetsTracker T) (now : Int) :
    OffsetsTracker T × List (WorkItem T) :=
  let q := walk t.committedPlusOne t.lastCommittedOffset now t.ready
    (sortGapBuffer slices t.gapBuffer)
  ({ t with ready := q.ready, gapBuffer := q.rest, needsGapAdvance := false }, q.retired)

def flush (slices : SortFunc (WorkItem T)) (t : OffsetsTracker T) (now : Int) :
    OffsetsTracker T × List (WorkItem T) :=
  if !t.needsGapAdvance then (t, [])
  else if t.gapBuffer = [] then ({ t with needsGapAdvance := false }, [])
  else t.sortAndWalk slices now

/-- One iteration of the scan for the lowest provable successor. -/
def successorStep (committedPlusOne committed : Int) (successor : Option (WorkItem T))
    (g : WorkItem T) : Option (WorkItem T) :=
  if g.offset < committedPlusOne then successor
  else if successor.any (fun s => decide (g.offset ≥ s.offset)) then successor
  else if g.offset = committedPlusOne then some g
  else if 0 ≤ g.previousOffset ∧ g.previousOffset ≤ committed then some g
  else successor

def findSuccessor (t : OffsetsTracker T) : Option (WorkItem T) :=
  t.gapBuffer.foldl (successorStep t.committedPlusOne t.lastCommittedOffset) none

def repairSuccessor (t : OffsetsTracker T) (now : Int) : OffsetsTracker T × List (WorkItem T) :=
  if t.ready.isSome ∨ t.gapBuffer = [] ∨ t.needsGapAdvance ∨ t.lastCommittedOffset < 0 then (t, [])
  else
    match t.findSuccessor with
    | none => (t, [])
    | some s =>
      let kept := t.gapBuffer.filter fun g => !(g.ptr == s.ptr) && !decide (g.offset < s.offset)
      let pruned := t.gapBuffer.filter fun g => !(g.ptr == s.ptr) && decide (g.offset < s.offset)
      ({ t with
          gapBuffer := kept
          ready := some (s.setWatermarkAdvanceTime now)
          needsGapAdvance := decide (kept ≠ []) },
        pruned.map (orphanedAt · now))

def discardOrphanedTracker (t : OffsetsTracker T) : OffsetsTracker T × List (WorkItem T) :=
  if t.ready.isNone ∧ t.gapBuffer = [] then (t, [])
  else
    ({ t with ready := none, gapBuffer := [], needsGapAdvance := false },
      t.ready.toList.map WorkItem.setOrphaned ++ t.gapBuffer.map WorkItem.setOrphaned)

/-- The tick's loop body for one partition: the item offered to the broker, if any. -/
def collectCommit (assigned : Bool) (t : OffsetsTracker T) (now : Int) :
    OffsetsTracker T × List (WorkItem T) × Option (WorkItem T) :=
  if !assigned then
    let d := t.discardOrphanedTracker
    (d.1, d.2, none)
  else
    let q := if t.ready.isNone then t.repairSuccessor now else (t, [])
    match q.1.ready with
    | none => (q.1, q.2, none)
    | some w =>
      if w.offset < q.1.committedPlusOne then
        ({ q.1 with
            ready := none
            needsGapAdvance := q.1.needsGapAdvance || decide (q.1.gapBuffer ≠ []) },
          q.2 ++ [w.setOrphaned], none)
      else (q.1, q.2, some w)

/-- The bookkeeping after the broker accepted `offset`. -/
def acceptCommit (t : OffsetsTracker T) (offset : Int) : OffsetsTracker T × List (WorkItem T) :=
  ({ t with
      committedPlusOne := if offset + 1 > t.committedPlusOne then offset + 1 else t.committedPlusOne
      lastCommittedOffset :=
        if offset > t.lastCommittedOffset then offset else t.lastCommittedOffset
      ready := none
      needsGapAdvance := t.needsGapAdvance || decide (t.gapBuffer ≠ []) },
    t.ready.toList)

def resetCommittedOffset (t : Option (OffsetsTracker T)) (committedOffset : Int) :
    OffsetsTracker T × List (WorkItem T) :=
  match t with
  | none => ({ committedPlusOne := committedOffset }, [])
  | some t =>
    let stale := t.ready.filter fun r => decide (r.offset < committedOffset)
    let ready := t.ready.filter fun r => !decide (r.offset < committedOffset)
    let revoked := t.assignment = .revoke
    let buffer := if revoked then [] else t.gapBuffer
    ({ t with
        ready := if revoked then none else ready
        gapBuffer := buffer
        committedPlusOne := committedOffset
        lastCommittedOffset := -1
        assignment := .assign
        needsGapAdvance := decide (buffer ≠ []) },
      stale.toList.map WorkItem.setOrphaned ++
        if revoked then ready.toList.map WorkItem.setOrphaned ++ t.gapBuffer.map WorkItem.setOrphaned
        else [])

end OffsetsTracker

end LlingrDemux.Offset
