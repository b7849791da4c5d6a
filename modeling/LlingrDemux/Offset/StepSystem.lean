import LlingrDemux.Offset.Projection
import LlingrDemux.Offset.Evidence
import LlingrDemux.Pipeline.Prev
import LlingrDemux.Shared.System

/-!
# One partition between the broker's log and its committed position

The environment of the committer for one partition: a log that grows above every
offset ever appended and may lose records at any moment, the broker's committed
position, and ownership epochs. An epoch is opened by `ResetCommittedOffsets` and
then `MarkPartitionAssigned`, and closed by `MarkPartitionRevoked`. A fetched
record's work item completes at most once and at any later time.
-/

namespace LlingrDemux.Offset

open Shared Prev
set_option autoImplicit false

variable {T : Type}

inductive Phase where
  | closed
  | opening
  | assigned
  deriving DecidableEq, Repr

/-- A work item with the epoch that fetched its record. -/
structure Fetched (T : Type) where
  epoch : Nat
  item : WorkItem T
  deriving DecidableEq, Repr

namespace Fetched

def offset (f : Fetched T) : Int := f.item.offset

def stamp (f : Fetched T) : WorkItem.Stamp := f.item.stamp

end Fetched

/-- The broker's side and the record of what happened. `otherCommitted` is the highest
position another owner committed, `openedAt` the position at which the current epoch
opened; `history`, `completed` and `accepted` list the fetches, the `processCommit`
calls and the accepted commits so far. -/
structure Ledger (T : Type) where
  log : List Int := []
  appended : List Int := []
  committed : Int := 0
  otherCommitted : Int := 0
  epoch : Nat := 0
  unknownBaseline : Bool := false
  openedAt : Int := 0
  fetchPosition : Int := 0
  prev : PartitionOffsets := {}
  history : List (Fetched T) := []
  completed : List (Fetched T) := []
  accepted : List (Nat × Int) := []

structure World (T : Type) extends Ledger T where
  phase : Phase := .closed
  committer : Committer T := {}
  inFlight : List (Fetched T) := []

namespace World

/-- The record that a fetch returns: the lowest in the log at or above the position. -/
def NextRecord (w : World T) (x : Int) : Prop :=
  x ∈ w.log ∧ w.fetchPosition ≤ x ∧ ∀ y ∈ w.log, w.fetchPosition ≤ y → x ≤ y

/-- The work items that are in flight or held by the tracker. -/
def Holds (p : Int) (w : World T) (g : WorkItem T) : Prop :=
  (∃ f ∈ w.inFlight, f.item = g) ∨
    ∃ t, w.committer.partitionMap p = some t ∧ (t.ready = some g ∨ g ∈ t.gapBuffer)

def append (w : World T) (x : Int) : World T :=
  { w with log := x :: w.log, appended := x :: w.appended }

def remove (w : World T) (kept : Int → Bool) : World T :=
  { w with log := w.log.filter kept }

def otherOwner (w : World T) (position : Int) : World T :=
  { w with committed := position, otherCommitted := position }

def reset (p : Int) (w : World T) (baseline : Int) : World T :=
  { w with
    phase := .opening
    epoch := w.epoch + 1
    unknownBaseline := decide (baseline < 0)
    openedAt := w.committed
    fetchPosition := w.committed
    prev := w.prev.reset [p]
    committer := w.committer.resetCommittedOffsets [(p, baseline)] }

def markAssigned (p : Int) (w : World T) : World T :=
  { w with phase := .assigned, committer := w.committer.markPartitionAssigned p }

def markRevoked (p : Int) (w : World T) : World T :=
  { w with phase := .closed, committer := w.committer.markPartitionRevoked p }

def fetch (w : World T) (item : WorkItem T) (prev : PartitionOffsets) : World T :=
  { w with
    fetchPosition := item.offset + 1
    prev := prev
    inFlight := w.inFlight ++ [⟨w.epoch, item⟩]
    history := w.history ++ [⟨w.epoch, item⟩] }

def complete (w : World T) (before : List (Fetched T)) (f : Fetched T) (after : List (Fetched T))
    (now : Int) : World T :=
  { w with
    inFlight := before ++ after
    completed := w.completed ++ [f]
    committer := w.committer.processCommit f.item now }

def flush (slices : SortFunc (WorkItem T)) (w : World T) (order : List Int) (now : Int) : World T :=
  { w with committer := w.committer.flushGapBuffers slices order now }

/-- The items of the partition that the broker accepts in one `CommitOffsets` call. -/
def taken (slices : SortFunc (WorkItem T)) (p : Int) (w : World T) (k : Tick) : List (WorkItem T) :=
  let r := w.committer.commitOffsets slices k
  if r.error.isNone then r.sent.filter fun m => m.partition == p else []

def tick (slices : SortFunc (WorkItem T)) (p : Int) (w : World T) (k : Tick) : World T :=
  { w with
    committer := (w.committer.commitOffsets slices k).committer
    committed := (w.taken slices p k).foldl (fun _ m => m.offset + 1) w.committed
    accepted := w.accepted ++ (w.taken slices p k).map fun m => (w.epoch, m.offset) }

/-- One step of the system of partition `p`. A reset carries the broker's position or a
negative unknown value; in an unknown epoch no `First` of an earlier epoch completes. -/
inductive Step (slices : SortFunc (WorkItem T)) (p : Int) : World T → World T → Prop where
  | append (w : World T) (x : Int) (nonneg : 0 ≤ x) (above : ∀ y ∈ w.appended, y < x) :
      Step slices p w (w.append x)
  | remove (w : World T) (kept : Int → Bool) : Step slices p w (w.remove kept)
  | otherOwner (w : World T) (position : Int) (away : w.phase = .closed)
      (forward : w.committed ≤ position) : Step slices p w (w.otherOwner position)
  | reset (w : World T) (baseline : Int) (away : w.phase = .closed)
      (value : baseline = w.committed ∨ baseline < 0) : Step slices p w (w.reset p baseline)
  | markAssigned (w : World T) (opening : w.phase = .opening) :
      Step slices p w (w.markAssigned p)
  | markRevoked (w : World T) (owned : w.phase = .assigned) : Step slices p w (w.markRevoked p)
  | fetch (w : World T) (item : WorkItem T) (prev : PartitionOffsets) (owned : w.phase = .assigned)
      (next : w.NextRecord item.offset) (partition : item.partition = p)
      (stamped : w.prev.getPrevious p item.offset = (prev, .ok (item.previousOffset, item.first)))
      (fresh : ∀ g, w.Holds p g → g.ptr ≠ item.ptr) : Step slices p w (w.fetch item prev)
  | complete (w : World T) (before : List (Fetched T)) (f : Fetched T) (after : List (Fetched T))
      (now : Int) (flying : w.inFlight = before ++ f :: after)
      (known : w.phase ≠ .closed → w.unknownBaseline = true → f.item.first = true →
        f.epoch = w.epoch) : Step slices p w (w.complete before f after now)
  | flush (w : World T) (order : List Int) (now : Int) (iterates : w.committer.Iterates order) :
      Step slices p w (w.flush slices order now)
  | tick (w : World T) (k : Tick) (flushes : w.committer.Iterates k.flushOrder)
      (commits : w.committer.Iterates k.commitOrder) : Step slices p w (w.tick slices p k)

end World

/-- The step system of one partition, started with an empty log and position `0`. -/
def partitionSystem (slices : SortFunc (WorkItem T)) (p : Int) : System (World T) where
  init w := w = {}
  step := World.Step slices p

end LlingrDemux.Offset
