import LlingrDemux.Offset.WorkItem

/-!
# The worker loop

`startProcessingWorkItems` as a state machine: the goroutine's place in the loop, its
channel and the fields that the demultiplexer shares with it. A step reads and changes
nothing but the worker and reports what it did; what needs the shard's mutex, the token
channels or the pool is a step of the demultiplexer.
-/

namespace LlingrDemux.Pipeline

set_option autoImplicit false

variable {T : Type}

/-- The concurrency token a work item took in `Process`. -/
inductive Token where
  | guard
  | overflow
  deriving DecidableEq, Repr

def Token.ofOverflow (usedOverflow : Bool) : Token := if usedOverflow then .overflow else .guard

/-- Which work item it is and the key it is routed by. -/
structure Ident where
  ptr : Nat
  key : String
  deriving DecidableEq, Repr

def ident (w : WorkItem T) : Ident := ⟨w.ptr, w.message.key⟩

def token (w : WorkItem T) : Token := .ofOverflow w.metrics.traits.usedOverflow

inductive ProcessResult where
  | ok
  | error
  | panicked
  deriving DecidableEq, Repr

/-- What `process` leaves on a work item. -/
def processed (w : WorkItem T) (r : ProcessResult) (start duration : Int) : WorkItem T :=
  { w with
    metrics.processStartTime := start
    metrics.processDuration := duration
    message.traits.processPanic := w.message.traits.processPanic || decide (r = .panicked)
    message.traits.processError := w.message.traits.processError || decide (r ≠ .ok) }

/-- What `writeDeadLetter` leaves on a work item, whether the write succeeds or not. -/
def deadLettered (w : WorkItem T) (duration : Int) : WorkItem T :=
  { w with
    message.traits.deadLetter := true
    metrics.writeDeadLetterDuration := duration }

@[simp] theorem ident_processed (w : WorkItem T) (r : ProcessResult) (start duration : Int) :
    ident (processed w r start duration) = ident w := rfl

@[simp] theorem ident_deadLettered (w : WorkItem T) (duration : Int) :
    ident (deadLettered w duration) = ident w := rfl

/-- Where a worker's goroutine stands. `cold` waits with an empty `workItem`; `received`
is before the test of the shard's `done` flag and `cleared` behind it; `emptied` found
its channel empty and does not yet hold the mutex; `releasing` and `returning` have left
the shard's map. -/
inductive WorkerPc (T : Type) where
  | cold
  | received (w : WorkItem T)
  | cleared (w : WorkItem T)
  | processing (w : WorkItem T)
  | deadLettering (w : WorkItem T)
  | triggering (w : WorkItem T)
  | committing (w : WorkItem T)
  | hot
  | emptied
  | releasing
  | returning
  | exited

/-- A goroutine that holds a worker it has created or taken from a pool. -/
inductive Holder where
  | dispatcher
  | pruner (shard : Nat)
  | warmup (shard : Nat)
  deriving DecidableEq, Repr

inductive Place where
  | pooled
  | serving (key : String)
  | retiring
  | held (holder : Holder)
  | stopped
  deriving DecidableEq, Repr

/-- A worker with its goroutine. `place` and `activatedBy` record where it is and the
token of the item it was activated by, until it is released. -/
structure Worker (T : Type) where
  shard : Nat
  workItems : List (WorkItem T) := []
  isActive : Bool := true
  shutdown : Bool := false
  partitionKey : String := ""
  usedOverflow : Bool := false
  pc : WorkerPc T := .cold
  place : Place
  activatedBy : Option Token := none

/-- What a step of a worker reports. -/
inductive Event (T : Type) where
  | silent
  | skipped (w : WorkItem T)
  | invoked (w : WorkItem T)
  | finished (w : WorkItem T) (succeeded : Bool)
  | triggered (w : WorkItem T)
  | collected (w : WorkItem T)

/-- The steps a worker takes by itself; `done` is its shard's flag. -/
inductive WorkerStep (done : Bool) : Worker T → Event T → Worker T → Prop where
  | receive (w : Worker T) (x : WorkItem T) (rest : List (WorkItem T)) (pc : w.pc = .cold)
      (queue : w.workItems = x :: rest) :
      WorkerStep done w .silent
        { w with
          workItems := rest
          partitionKey := x.message.key
          usedOverflow := x.metrics.traits.usedOverflow
          pc := .received x }
  | exit (w : Worker T) (pc : w.pc = .cold) (closed : w.shutdown = true) :
      WorkerStep done w .silent { w with pc := .exited }
  | receiveHot (w : Worker T) (x : WorkItem T) (rest : List (WorkItem T)) (pc : w.pc = .hot)
      (queue : w.workItems = x :: rest) :
      WorkerStep done w .silent { w with workItems := rest, pc := .received x }
  | fallThrough (w : Worker T) (pc : w.pc = .hot) (queue : w.workItems = []) :
      WorkerStep done w .silent { w with pc := .emptied }
  | skip (w : Worker T) (x : WorkItem T) (pc : w.pc = .received x) (tripped : done = true) :
      WorkerStep done w (.skipped x) { w with pc := .hot }
  | clear (w : Worker T) (x : WorkItem T) (pc : w.pc = .received x) (live : done = false) :
      WorkerStep done w .silent { w with pc := .cleared x }
  | invoke (w : Worker T) (x : WorkItem T) (pc : w.pc = .cleared x) :
      WorkerStep done w (.invoked x) { w with pc := .processing x }
  | succeed (w : Worker T) (x : WorkItem T) (start duration : Int) (pc : w.pc = .processing x) :
      WorkerStep done w (.finished x true)
        { w with pc := .committing (processed x .ok start duration) }
  | fail (w : Worker T) (x : WorkItem T) (r : ProcessResult) (start duration : Int)
      (pc : w.pc = .processing x) (failed : r ≠ .ok) :
      WorkerStep done w .silent { w with pc := .deadLettering (processed x r start duration) }
  | deadLetter (w : Worker T) (x : WorkItem T) (duration : Int) (pc : w.pc = .deadLettering x) :
      WorkerStep done w (.finished x true) { w with pc := .committing (deadLettered x duration) }
  | deadLetterFail (w : Worker T) (x : WorkItem T) (duration : Int)
      (pc : w.pc = .deadLettering x) :
      WorkerStep done w (.finished x false) { w with pc := .triggering (deadLettered x duration) }
  | trigger (w : Worker T) (x : WorkItem T) (pc : w.pc = .triggering x) :
      WorkerStep done w (.triggered x) { w with pc := .hot }
  | commit (w : Worker T) (x : WorkItem T) (pc : w.pc = .committing x) :
      WorkerStep done w (.collected x) { w with pc := .hot }

end LlingrDemux.Pipeline
