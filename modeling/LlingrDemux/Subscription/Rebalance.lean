import LlingrDemux.Offset.Committer
import LlingrDemux.Pipeline.Prev
import LlingrDemux.Shared.System

/-!
# Rebalance events

`Subscription.HandleRebalance` with the parts of the processor and the committer that it
drives. A call is the list of its critical sections in the order of the source; each of
them takes its own lock, so other goroutines may run between any two. The sections of an
event run in one piece give `handleRebalance`; interleaved with the other goroutines they
give the step system of a session. Log lines are left out.
-/

namespace LlingrDemux.Rebalance

open Offset Prev Shared
set_option autoImplicit false

variable {T : Type}

structure RebalanceInfo where
  topicName : String := ""
  partition : Int
  committedOffset : Int := -1
  deriving DecidableEq, Repr

inductive RebalanceError where
  | foreignTopicRebalance (topicName ownTopic : String)
  | unsupportedRebalanceType (rebalanceType : RebalanceType)
  | ackRebalance
  deriving DecidableEq, Repr

/-- The subscription with the processor's predecessor tracking and the committer;
`emergencies` lists the reasons given to `TriggerEmergencyShutdown`. -/
structure Subscription (T : Type) where
  topicName : String
  prev : PartitionOffsets := {}
  committer : Committer T := {}
  signalAssigned : Bool := false
  emergencies : List RebalanceError := []

/-- The critical sections of a call. `ackRebalance` is the start of the acknowledgement's
round trip and `acknowledged` its return. -/
inductive Action where
  | offerAssigned
  | takeAssigned
  | resetFirstSeen (rebalanceInfo : List RebalanceInfo)
  | resetCommittedOffsets (rebalanceInfo : List RebalanceInfo)
  | markPartitionAssigned (partition : Int)
  | drain
  | markPartitionRevoked (partition : Int)
  | ackRebalance (rebalanceType : RebalanceType) (rebalanceInfo : List RebalanceInfo)
  | acknowledged
  deriving DecidableEq, Repr

/-- What the environment decides during a call: the iteration order of the reset's map,
the drain's `CommitOffsets` call (none when the workers' drain timed out) and the
outcome of the acknowledgement. -/
structure Choice where
  order : List Int := []
  commit : Option Tick := none
  ackFailed : Bool := false

def partitions (rebalanceInfo : List RebalanceInfo) : List Int :=
  rebalanceInfo.map RebalanceInfo.partition

/-- The value of a partition in the map that `resetCommittedOffsetsFromRebalanceInfo`
fills: the last entry wins. -/
def committedOffsetOf (rebalanceInfo : List RebalanceInfo) (p : Int) : Option Int :=
  (rebalanceInfo.reverse.find? fun r => r.partition == p).map RebalanceInfo.committedOffset

/-- The map's entries in the order of its iteration. -/
def partitionOffsets (rebalanceInfo : List RebalanceInfo) (order : List Int) : List (Int × Int) :=
  order.filterMap fun p => (committedOffsetOf rebalanceInfo p).map fun x => (p, x)

/-- The sections of an accepted event, in the order of the source. -/
def sections (rebalanceType : RebalanceType) (rebalanceInfo : List RebalanceInfo) : List Action :=
  match rebalanceType with
  | .assign =>
    [.offerAssigned, .resetFirstSeen rebalanceInfo, .resetCommittedOffsets rebalanceInfo] ++
      (partitions rebalanceInfo).map .markPartitionAssigned ++
      [.ackRebalance .assign rebalanceInfo, .acknowledged]
  | .revoke =>
    -- the marks come before the acknowledgement
    [.takeAssigned, .drain] ++ (partitions rebalanceInfo).map .markPartitionRevoked ++
      [.ackRebalance .revoke rebalanceInfo, .acknowledged]
  | .unsupported _ => []

namespace Subscription

def perform (slices : SortFunc (WorkItem T)) (choice : Choice) (s : Subscription T) :
    Action → Subscription T
  | .offerAssigned => { s with signalAssigned := true }
  | .takeAssigned => { s with signalAssigned := false }
  | .resetFirstSeen info => { s with prev := s.prev.reset (partitions info) }
  | .resetCommittedOffsets info =>
    { s with committer := s.committer.resetCommittedOffsets (partitionOffsets info choice.order) }
  | .markPartitionAssigned p => { s with committer := s.committer.markPartitionAssigned p }
  | .drain =>
    match choice.commit with
    | none => s
    | some k => { s with committer := (s.committer.commitOffsets slices k).committer }
  | .markPartitionRevoked p => { s with committer := s.committer.markPartitionRevoked p }
  | .ackRebalance _ _ => s
  | .acknowledged => s

/-- The first entry of another topic; an empty name is unspecified, not foreign. -/
def foreignTopic (s : Subscription T) (rebalanceInfo : List RebalanceInfo) : Option String :=
  (rebalanceInfo.find? fun r => r.topicName != "" && r.topicName != s.topicName).map
    RebalanceInfo.topicName

/-- `HandleRebalance` without interruption. -/
def handleRebalance (slices : SortFunc (WorkItem T)) (choice : Choice) (s : Subscription T)
    (rebalanceType : RebalanceType) (rebalanceInfo : List RebalanceInfo) :
    Subscription T × Option RebalanceError :=
  match s.foreignTopic rebalanceInfo with
  | some topic =>
    let err := RebalanceError.foreignTopicRebalance topic s.topicName
    ({ s with emergencies := s.emergencies ++ [err] }, some err)
  | none =>
    match rebalanceType with
    | .unsupported _ => (s, some (.unsupportedRebalanceType rebalanceType))
    | _ =>
      ((sections rebalanceType rebalanceInfo).foldl (perform slices choice) s,
        if choice.ackFailed then some .ackRebalance else none)

/-- The predecessor stamp that `Processor.Process` asks for. -/
def stampNext (s : Subscription T) (partition offset : Int) : Subscription T :=
  { s with prev := (s.prev.getPrevious partition offset).1 }

/-- One ingest batch: its `processCommit` calls and the flush, each at its own time, under one
lock. -/
def ingest (slices : SortFunc (WorkItem T)) (s : Subscription T) (batch : List (WorkItem T))
    (now : WorkItem T → Int) (flushTime : Int) (order : List Int) : Subscription T :=
  { s with
    committer := (batch.foldl (fun c w => c.processCommit w (now w)) s.committer).flushGapBuffers
      slices order flushTime }

end Subscription

/-- An order in which the choice's map and commit loops may run in the given state. -/
def Choice.Fits (choice : Choice) (s : Subscription T) : Action → Prop
  | .resetCommittedOffsets info => choice.order.Nodup ∧ ∀ p, p ∈ choice.order ↔ p ∈ partitions info
  | .drain => ∀ k, choice.commit = some k →
      s.committer.Iterates k.flushOrder ∧ s.committer.Iterates k.commitOrder
  | _ => True

/-! ## Sessions -/

/-- A call in progress with the sections still to come. -/
structure Call where
  rebalanceType : RebalanceType
  rebalanceInfo : List RebalanceInfo
  todo : List Action
  deriving DecidableEq, Repr

inductive Ownership where
  | revoked
  | assigning
  | assigned
  | revoking
  deriving DecidableEq, Repr

/-- What happened so far: who owns each partition, the number of its resets, whether it
was handed back to the broker, and the ingested work items with the epoch of their
partition at that moment. -/
structure Record (T : Type) where
  ownership : Int → Ownership := fun _ => .revoked
  epoch : Int → Nat := fun _ => 0
  released : Int → Bool := fun _ => false
  ingested : List (Nat × WorkItem T) := []

/-- A partition is released from the start of its revoke's acknowledgement until it is
marked as assigned. -/
def Record.note (r : Record T) : Action → Record T
  | .resetCommittedOffsets info =>
    { r with epoch := fun p => if p ∈ partitions info then r.epoch p + 1 else r.epoch p }
  | .markPartitionAssigned p => { r with released := Function.update r.released p false }
  | .ackRebalance .revoke info =>
    { r with released := fun p => if p ∈ partitions info then true else r.released p }
  | _ => r

/-- A subscription with its calls in progress. -/
structure Session (T : Type) extends Subscription T, Record T where
  calls : List Call := []

namespace Session

def begin (s : Session T) (rebalanceType : RebalanceType) (info : List RebalanceInfo)
    (busy : Ownership) : Session T :=
  { s with
    calls := s.calls ++ [⟨rebalanceType, info, sections rebalanceType info⟩]
    ownership := fun p => if p ∈ partitions info then busy else s.ownership p }

def act (slices : SortFunc (WorkItem T)) (choice : Choice) (s : Session T) (before : List Call)
    (c : Call) (after : List Call) (a : Action) (rest : List Action) : Session T where
  toSubscription := s.toSubscription.perform slices choice a
  toRecord := s.toRecord.note a
  calls := before ++ { c with todo := rest } :: after

def finish (s : Session T) (before : List Call) (c : Call) (after : List Call) : Session T :=
  { s with
    calls := before ++ after
    ownership := fun p =>
      if p ∈ partitions c.rebalanceInfo then
        if c.rebalanceType = .assign then .assigned else .revoked
      else s.ownership p }

def ingest (slices : SortFunc (WorkItem T)) (s : Session T) (batch : List (WorkItem T))
    (now : WorkItem T → Int) (flushTime : Int) (order : List Int) : Session T :=
  { s with
    toSubscription := s.toSubscription.ingest slices batch now flushTime order
    ingested := s.ingested ++ batch.map fun w => (s.epoch w.partition, w) }

def tick (slices : SortFunc (WorkItem T)) (s : Session T) (k : Tick) : Session T :=
  { s with committer := (s.committer.commitOffsets slices k).committer }

def poll (s : Session T) (partition offset : Int) : Session T :=
  { s with toSubscription := s.toSubscription.stampNext partition offset }

/-- One step. Assigns and revokes of a partition alternate, an assign first, and a work
item is ingested once; calls, batches, ticks and polls interleave freely. -/
inductive Step (slices : SortFunc (WorkItem T)) : Session T → Session T → Prop where
  | assign (s : Session T) (info : List RebalanceInfo) (accepted : s.foreignTopic info = none)
      (away : ∀ p ∈ partitions info, s.ownership p = .revoked) :
      Step slices s (s.begin .assign info .assigning)
  | revoke (s : Session T) (info : List RebalanceInfo) (accepted : s.foreignTopic info = none)
      (owned : ∀ p ∈ partitions info, s.ownership p = .assigned) :
      Step slices s (s.begin .revoke info .revoking)
  | act (s : Session T) (choice : Choice) (before : List Call) (c : Call) (after : List Call)
      (a : Action) (rest : List Action) (running : s.calls = before ++ c :: after)
      (next : c.todo = a :: rest) (fits : choice.Fits s.toSubscription a) :
      Step slices s (s.act slices choice before c after a rest)
  | finish (s : Session T) (before : List Call) (c : Call) (after : List Call)
      (running : s.calls = before ++ c :: after) (done : c.todo = []) :
      Step slices s (s.finish before c after)
  | ingest (s : Session T) (batch : List (WorkItem T)) (now : WorkItem T → Int) (flushTime : Int)
      (order : List Int)
      (once : ((s.ingested.map fun x => x.2.ptr) ++ batch.map WorkItem.ptr).Nodup)
      (iterates : (batch.foldl (fun c w => c.processCommit w (now w)) s.committer).Iterates order) :
      Step slices s (s.ingest slices batch now flushTime order)
  | tick (s : Session T) (k : Tick) (flushes : s.committer.Iterates k.flushOrder)
      (commits : s.committer.Iterates k.commitOrder) : Step slices s (s.tick slices k)
  | poll (s : Session T) (partition offset : Int) :
      Step slices s (s.poll partition offset)

end Session

/-- The session of a consumer of one topic, started with nothing assigned. -/
def sessionSystem (slices : SortFunc (WorkItem T)) (topicName : String) : System (Session T) where
  init s := s = { topicName := topicName }
  step := Session.Step slices

end LlingrDemux.Rebalance
