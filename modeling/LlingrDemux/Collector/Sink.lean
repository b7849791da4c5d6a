import LlingrDemux.Offset.WorkItem

/-!
# The metrics collector

`Collect` puts a retired work item into a bounded channel or drops it. The collect loop takes
the items out in order, completes their metrics with what the message carries and calls the
sink. Log lines, the sink's context and the shutdown of the loop are left out.
-/

namespace LlingrDemux

set_option autoImplicit false

variable {T : Type}

namespace Traits

def or (a b : Traits) : Traits where
  usedOverflow := a.usedOverflow || b.usedOverflow
  firstAfterRebalance := a.firstAfterRebalance || b.firstAfterRebalance
  commitBuffered := a.commitBuffered || b.commitBuffered
  orphaned := a.orphaned || b.orphaned
  processPanic := a.processPanic || b.processPanic
  processError := a.processError || b.processError
  deadLetter := a.deadLetter || b.deadLetter

def and (a b : Traits) : Traits where
  usedOverflow := a.usedOverflow && b.usedOverflow
  firstAfterRebalance := a.firstAfterRebalance && b.firstAfterRebalance
  commitBuffered := a.commitBuffered && b.commitBuffered
  orphaned := a.orphaned && b.orphaned
  processPanic := a.processPanic && b.processPanic
  processError := a.processError && b.processError
  deadLetter := a.deadLetter && b.deadLetter

end Traits

/-- The mask and the method of `nexus` that the collector uses: `DeadLetter` is one of the
reserved traits, and custom traits are not. -/
structure NexusTraits where
  frameworkReserved : Traits
  addCustomTraits : Traits → Traits → Traits
  reserved_deadLetter : frameworkReserved.deadLetter = true
  custom_deadLetter : ∀ t custom, (addCustomTraits t custom).deadLetter = t.deadLetter

/-- The metrics record as the sink receives it, with the fields that only the collector
fills in. -/
structure SinkMetrics extends Metrics where
  workerPool : Nat
  partition : Int
  offset : Int
  deriving DecidableEq, Repr

/-- What `sendToMetricsSink` passes to the sink. -/
def sinkMetrics (nexus : NexusTraits) (w : WorkItem T) : SinkMetrics :=
  { w.metrics with
    workerPool := w.workerPool
    partition := w.message.partition
    offset := w.message.offset
    traits := nexus.addCustomTraits
      (w.metrics.traits.or (w.message.traits.and nexus.frameworkReserved)) w.message.traits }

theorem sinkMetrics_deadLetter (nexus : NexusTraits) (w : WorkItem T) :
    (sinkMetrics nexus w).traits.deadLetter =
      (w.metrics.traits.deadLetter || w.message.traits.deadLetter) := by
  simp [sinkMetrics, nexus.custom_deadLetter, Traits.or, Traits.and, nexus.reserved_deadLetter]

inductive SinkResult where
  | ok
  | error
  | panicked
  deriving DecidableEq, Repr

/-- `delivered` lists the arguments of the sink calls. -/
structure Collector (T : Type) where
  bufferSize : Nat
  workItems : List (WorkItem T) := []
  delivered : List SinkMetrics := []
  collectedCount : Nat := 0
  droppedCount : Nat := 0
  sendFailedCount : Nat := 0

namespace Collector

/-- `Collect`. What the loop takes between the two selects is taken before them. -/
def collect (c : Collector T) (w : WorkItem T) : Collector T :=
  if c.workItems.length < c.bufferSize then { c with workItems := c.workItems ++ [w] }
  else { c with droppedCount := c.droppedCount + 1 }

def sendToMetricsSink (nexus : NexusTraits) (c : Collector T) (w : WorkItem T) (r : SinkResult) :
    Collector T :=
  { c with
    delivered := c.delivered ++ [sinkMetrics nexus w]
    collectedCount := if r = .ok then c.collectedCount + 1 else c.collectedCount
    sendFailedCount := if r = .ok then c.sendFailedCount else c.sendFailedCount + 1 }

/-- One turn of the collect loop that finds an item. -/
def turn (nexus : NexusTraits) (c : Collector T) (w : WorkItem T) (rest : List (WorkItem T))
    (r : SinkResult) : Collector T :=
  sendToMetricsSink nexus { c with workItems := rest } w r

/-- The sink has received some of the `retired` items, in order, and the channel holds some of
the later ones. -/
def Serves (nexus : NexusTraits) (c : Collector T) (retired : List (WorkItem T)) : Prop :=
  ∃ sent : List (WorkItem T), (sent ++ c.workItems).Sublist retired ∧
    c.delivered = sent.map (sinkMetrics nexus)

namespace Serves
variable {nexus : NexusTraits} {c : Collector T} {retired : List (WorkItem T)}

theorem mono (h : c.Serves nexus retired) {retired' : List (WorkItem T)}
    (hsub : retired.Sublist retired') : c.Serves nexus retired' := by
  obtain ⟨sent, hsent, hdelivered⟩ := h
  exact ⟨sent, hsent.trans hsub, hdelivered⟩

theorem collect (h : c.Serves nexus retired) (w : WorkItem T) :
    (c.collect w).Serves nexus (retired ++ [w]) := by
  unfold Collector.collect
  split_ifs
  · obtain ⟨sent, hsent, hdelivered⟩ := h
    refine ⟨sent, ?_, hdelivered⟩
    rw [← List.append_assoc]
    exact hsent.append (List.Sublist.refl [w])
  · exact h.mono (List.sublist_append_left retired [w])

theorem turn (h : c.Serves nexus retired) {w : WorkItem T} {rest : List (WorkItem T)}
    (queue : c.workItems = w :: rest) (r : SinkResult) :
    (c.turn nexus w rest r).Serves nexus retired := by
  obtain ⟨sent, hsent, hdelivered⟩ := h
  refine ⟨sent ++ [w], ?_, ?_⟩
  · rw [queue] at hsent
    rw [List.append_assoc]
    exact hsent
  · simp [Collector.turn, sendToMetricsSink, hdelivered]

end Serves

end Collector

end LlingrDemux
