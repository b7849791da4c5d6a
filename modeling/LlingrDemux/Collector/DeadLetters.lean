import LlingrDemux.Collector.Sink
import LlingrDemux.Offset.Carried
import LlingrDemux.Offset.RingBuffer
import LlingrDemux.Pipeline.WorkerPlace

/-!
# Dead letters from the worker to the metrics

A work item has two words of traits, on its message and on its metrics. The worker marks a
dead letter on the message. The committer records the mark of the metrics, where nobody has
put one, and the collector later merges the message's traits into the metrics for the sink.
So the sink learns of every dead letter and the committer's window of none.
-/

namespace LlingrDemux

open Shared Offset Pipeline
set_option autoImplicit false

variable {T : Type}

/-- As `Borrow` hands an item out and `Process` fills it in: no trait but `UsedOverflow`. -/
def WorkItem.Borrowed (w : WorkItem T) : Prop :=
  w.message.traits = {} ∧ w.metrics.traits = { usedOverflow := w.metrics.traits.usedOverflow }

namespace Pipeline

/-- The item whose dead letter has been written on the way from one place to the next. -/
def WorkerPc.written : WorkerPc T → WorkerPc T → List (WorkItem T)
  | .deadLettering _, .committing w => [w]
  | _, _ => []

/-- The item handed to `CollectAndCommit`. -/
def Event.committed : Event T → List (WorkItem T)
  | .collected w => [w]
  | _ => []

end Pipeline

/-- Workers, the committer's channel, the committer and the collector. `deadLetters` lists the
items whose dead letter was written; `offered` counts the retired items that `Collect` was
called with. -/
structure Journey (T : Type) where
  workers : Nat → Worker T
  deadLetters : List (WorkItem T) := []
  commitsIn : List (WorkItem T) := []
  history : History T := {}
  offered : Nat := 0
  collector : Collector T

namespace Journey

def setWorker (j : Journey T) (i : Nat) (w : Worker T) : Journey T :=
  { j with workers := Function.update j.workers i w }

/-- The items the committer has recorded and handed to the collector. -/
def retired (j : Journey T) : List (WorkItem T) := j.history.committer.collected

/-- The worker wrote the dead letter of this item. The committer changes neither the message
nor what identifies an item. -/
def DeadLettered (j : Journey T) (w : WorkItem T) : Prop :=
  ∃ y ∈ j.deadLetters, y.stamp = w.stamp ∧ y.message = w.message

/-- Any number of workers take borrowed items and finish them with any outcome; `demux` stands
for what the demultiplexer does to a worker with empty hands. The committer ingests what the
workers commit and makes its other calls at any time. -/
inductive Step (slices : SortFunc (WorkItem T)) (nexus : NexusTraits) :
    Journey T → Journey T → Prop where
  | poll (j : Journey T) (i : Nat) (w : WorkItem T) (borrowed : w.Borrowed) :
      Step slices nexus j
        (j.setWorker i { j.workers i with workItems := (j.workers i).workItems ++ [w] })
  | work (j : Journey T) (i : Nat) (done : Bool) (e : Event T) (w : Worker T)
      (step : WorkerStep done (j.workers i) e w) :
      Step slices nexus j { j.setWorker i w with
        deadLetters := j.deadLetters ++ (j.workers i).pc.written w.pc
        commitsIn := j.commitsIn ++ e.committed }
  | demux (j : Journey T) (i : Nat) (w : Worker T) (idle : (j.workers i).pc.item = none)
      (queue : w.workItems = (j.workers i).workItems) (idle' : w.pc.item = none) :
      Step slices nexus j (j.setWorker i w)
  | ingest (j : Journey T) (w : WorkItem T) (rest : List (WorkItem T)) (now : Int)
      (queue : j.commitsIn = w :: rest) :
      Step slices nexus j { j with
        commitsIn := rest
        history := j.history.record slices (.processCommit w now) }
  | call (j : Journey T) (call : Call T) (legal : call.Legal j.history.committer)
      (quiet : call.ingested = []) :
      Step slices nexus j { j with history := j.history.record slices call }
  | collect (j : Journey T) (w : WorkItem T) (next : j.retired[j.offered]? = some w) :
      Step slices nexus j { j with
        offered := j.offered + 1
        collector := j.collector.collect w }
  | send (j : Journey T) (w : WorkItem T) (rest : List (WorkItem T)) (r : SinkResult)
      (queue : j.collector.workItems = w :: rest) :
      Step slices nexus j { j with collector := j.collector.turn nexus w rest r }

end Journey

def journeySystem (slices : SortFunc (WorkItem T)) (nexus : NexusTraits) : System (Journey T) where
  init j := ∃ workers bufferSize,
    (∀ i, (workers i).workItems = [] ∧ (workers i).pc = WorkerPc.cold) ∧
      j = { workers := workers, collector := { bufferSize := bufferSize } }
  step := Journey.Step slices nexus

/-! ## Following the marks -/

/-- No dead-letter mark on either word. -/
def WorkItem.Unmarked (w : WorkItem T) : Prop :=
  w.message.traits.deadLetter = false ∧ w.metrics.traits.deadLetter = false

/-- An item a worker is done with: a mark on the message is a dead letter written, and there
is none on the metrics. -/
def WorkItem.Handled (deadLetters : List (WorkItem T)) (w : WorkItem T) : Prop :=
  w.metrics.traits.deadLetter = false ∧ (w.message.traits.deadLetter = true → w ∈ deadLetters)

theorem WorkItem.Borrowed.unmarked {w : WorkItem T} (h : w.Borrowed) : w.Unmarked := by
  obtain ⟨hmessage, hmetrics⟩ := h
  exact ⟨by rw [hmessage], by rw [hmetrics]⟩

theorem WorkItem.Handled.mono {l l' : List (WorkItem T)} {w : WorkItem T} (h : w.Handled l)
    (hsub : l ⊆ l') : w.Handled l' :=
  ⟨h.1, fun hw => hsub (h.2 hw)⟩

def Pipeline.WorkerPc.Marked (deadLetters : List (WorkItem T)) : WorkerPc T → Prop
  | .received w | .cleared w | .processing w | .deadLettering w => w.Unmarked
  | .committing w => w.Handled deadLetters
  | _ => True

theorem Pipeline.WorkerPc.Marked.mono {l l' : List (WorkItem T)} {pc : WorkerPc T}
    (h : pc.Marked l) (hsub : l ⊆ l') : pc.Marked l' := by
  cases pc with
  | committing w => exact WorkItem.Handled.mono h hsub
  | received | cleared | processing | deadLettering => exact h
  | _ => trivial

/-- What a worker's step does to the marks. -/
theorem Pipeline.WorkerStep.marked {done : Bool} {w w' : Worker T} {e : Event T}
    (step : WorkerStep done w e w') {l : List (WorkItem T)}
    (queued : ∀ x ∈ w.workItems, x.Unmarked) (inHand : w.pc.Marked l) :
    (∀ x ∈ w'.workItems, x.Unmarked) ∧ w'.pc.Marked (l ++ w.pc.written w'.pc) ∧
      (∀ x ∈ e.committed, x.Handled l) ∧
      ∀ x ∈ w.pc.written w'.pc, x.message.traits.deadLetter = true := by
  cases step with
  | receive x rest pc queue | receiveHot x rest pc queue =>
    rw [queue] at queued
    obtain ⟨hx, hrest⟩ := List.forall_mem_cons.mp queued
    exact ⟨hrest, hx, List.forall_mem_nil _, by rw [pc]; exact List.forall_mem_nil _⟩
  | exit pc | fallThrough pc | skip x pc | trigger x pc =>
    exact ⟨queued, trivial, List.forall_mem_nil _, by rw [pc]; exact List.forall_mem_nil _⟩
  | clear x pc | invoke x pc =>
    rw [pc] at inHand ⊢
    exact ⟨queued, inHand, List.forall_mem_nil _, List.forall_mem_nil _⟩
  | succeed x start duration pc =>
    rw [pc] at inHand ⊢
    refine ⟨queued, ⟨inHand.2, fun hmark => ?_⟩, List.forall_mem_nil _, List.forall_mem_nil _⟩
    exact absurd (inHand.1.symm.trans hmark) (by decide)
  | fail x r start duration pc failed =>
    rw [pc] at inHand ⊢
    exact ⟨queued, inHand, List.forall_mem_nil _, List.forall_mem_nil _⟩
  | deadLetter x duration pc =>
    rw [pc] at inHand ⊢
    refine ⟨queued, ⟨inHand.2, fun _ => List.mem_append_right l List.mem_cons_self⟩,
      List.forall_mem_nil _, ?_⟩
    intro y hy
    rw [List.mem_singleton.mp hy]
    rfl
  | deadLetterFail x duration pc =>
    rw [pc]
    exact ⟨queued, trivial, List.forall_mem_nil _, List.forall_mem_nil _⟩
  | commit x pc =>
    rw [pc] at inHand ⊢
    refine ⟨queued, trivial, ?_, List.forall_mem_nil _⟩
    intro y hy
    rw [List.mem_singleton.mp hy]
    exact inHand

/-- Where every item on its way has its mark, and how far the collector is. -/
structure Journey.Traced (slices : SortFunc (WorkItem T)) (nexus : NexusTraits)
    (j : Journey T) : Prop where
  queued : ∀ i, ∀ w ∈ (j.workers i).workItems, w.Unmarked
  inHand : ∀ i, (j.workers i).pc.Marked j.deadLetters
  commits : ∀ w ∈ j.commitsIn, w.Handled j.deadLetters
  ingested : ∀ w ∈ j.history.ingested, w.Handled j.deadLetters
  written : ∀ w ∈ j.deadLetters, w.message.traits.deadLetter = true
  run : (callSystem slices Call.Legal).Reachable j.history
  served : j.collector.Serves nexus (j.retired.take j.offered)

namespace Journey.Traced
variable {slices : SortFunc (WorkItem T)} {nexus : NexusTraits} {j j' : Journey T}

/-- A worker changes its queue or its place. -/
theorem setWorker (h : j.Traced slices nexus) (i : Nat) {w : Worker T}
    (queued : ∀ x ∈ w.workItems, x.Unmarked) (inHand : w.pc.Marked j.deadLetters) :
    (j.setWorker i w).Traced slices nexus := by
  refine ⟨?_, ?_, h.commits, h.ingested, h.written, h.run, h.served⟩
  · exact (Function.forall_update_iff j.workers fun _ v => ∀ x ∈ v.workItems, x.Unmarked).mpr
      ⟨queued, fun k _ => h.queued k⟩
  · exact (Function.forall_update_iff j.workers fun _ v => v.pc.Marked j.deadLetters).mpr
      ⟨inHand, fun k _ => h.inHand k⟩

theorem work (h : j.Traced slices nexus) {i : Nat} {done : Bool} {e : Event T} {w : Worker T}
    (step : WorkerStep done (j.workers i) e w) :
    Traced slices nexus { j.setWorker i w with
      deadLetters := j.deadLetters ++ (j.workers i).pc.written w.pc
      commitsIn := j.commitsIn ++ e.committed } := by
  obtain ⟨hqueued, hpc, hcommitted, hwritten⟩ := step.marked (h.queued i) (h.inHand i)
  have hsub : j.deadLetters ⊆ j.deadLetters ++ (j.workers i).pc.written w.pc :=
    List.subset_append_left _ _
  refine ⟨?_, ?_, ?_, fun x hx => (h.ingested x hx).mono hsub,
    List.forall_mem_append.mpr ⟨h.written, hwritten⟩, h.run, h.served⟩
  · exact (Function.forall_update_iff j.workers fun _ v => ∀ x ∈ v.workItems, x.Unmarked).mpr
      ⟨hqueued, fun k _ => h.queued k⟩
  · exact (Function.forall_update_iff j.workers fun _ v => v.pc.Marked _).mpr
      ⟨hpc, fun k _ => (h.inHand k).mono hsub⟩
  · refine List.forall_mem_append.mpr ⟨fun x hx => (h.commits x hx).mono hsub, ?_⟩
    exact fun x hx => (hcommitted x hx).mono hsub

theorem record (h : j.Traced slices nexus) (call : Call T)
    (legal : call.Legal j.history.committer)
    (handled : ∀ w ∈ call.ingested, w.Handled j.deadLetters) :
    Traced slices nexus { j with history := j.history.record slices call } := by
  refine ⟨h.queued, h.inHand, h.commits, ?_, h.written, h.run.step ⟨call, legal, rfl⟩, ?_⟩
  · rw [History.record_ingested]
    exact List.forall_mem_append.mpr ⟨h.ingested, handled⟩
  · obtain ⟨more, hmore⟩ := Committer.run_collected slices j.history.committer call
    refine h.served.mono ?_
    simp only [retired, History.record, ← hmore, List.take_append]
    exact List.sublist_append_left _ _

theorem step (h : j.Traced slices nexus) (step : Step slices nexus j j') :
    j'.Traced slices nexus := by
  cases step with
  | poll i w borrowed =>
    refine h.setWorker i (List.forall_mem_append.mpr ⟨h.queued i, ?_⟩) (h.inHand i)
    intro x hx
    rw [List.mem_singleton.mp hx]
    exact borrowed.unmarked
  | work i done e w step => exact h.work step
  | demux i w idle queue idle' =>
    refine h.setWorker i (queue ▸ h.queued i) ?_
    cases hpc : w.pc <;> simp_all [WorkerPc.item, WorkerPc.Marked]
  | ingest w rest now queue =>
    have hcommits := h.commits
    rw [queue] at hcommits
    obtain ⟨hw, hrest⟩ := List.forall_mem_cons.mp hcommits
    obtain ⟨h1, h2, _, h4, h5, h6, h7⟩ := h.record (.processCommit w now) trivial
      (fun x hx => by rw [List.mem_singleton.mp hx]; exact hw)
    exact ⟨h1, h2, hrest, h4, h5, h6, h7⟩
  | call call legal quiet => exact h.record call legal (by rw [quiet]; exact List.forall_mem_nil _)
  | collect w next =>
    refine ⟨h.queued, h.inHand, h.commits, h.ingested, h.written, h.run, ?_⟩
    have htake : j.retired.take (j.offered + 1) = j.retired.take j.offered ++ [w] := by
      rw [List.take_add_one, next]
      rfl
    exact htake ▸ h.served.collect w
  | send w rest r queue =>
    exact ⟨h.queued, h.inHand, h.commits, h.ingested, h.written, h.run, h.served.turn queue r⟩

theorem of_reachable (h : (journeySystem slices nexus).Reachable j) : j.Traced slices nexus := by
  refine System.invariant (M := journeySystem slices nexus) (P := Traced slices nexus) ?_ ?_ j h
  · rintro _ ⟨workers, bufferSize, hempty, rfl⟩
    refine ⟨fun i => ?_, fun i => ?_, List.forall_mem_nil _, List.forall_mem_nil _,
      List.forall_mem_nil _, .init rfl, ⟨[], List.Sublist.slnil, rfl⟩⟩
    · rw [(hempty i).1]
      exact List.forall_mem_nil _
    · rw [(hempty i).2]
      trivial
  · exact fun j j' _ hj hstep => hj.step hstep

/-- The committer finds no mark on a retired item's metrics, and the message is marked exactly
if the dead letter was written. -/
theorem retired_marks (h : j.Traced slices nexus) (w : WorkItem T) (hw : w ∈ j.retired) :
    w.metrics.traits.deadLetter = false ∧
      (w.message.traits.deadLetter = true ↔ j.DeadLettered w) := by
  have hcarried : Carried fun w : WorkItem T => w.metrics.traits.deadLetter = false ∧
      (w.message.traits.deadLetter = true → j.DeadLettered w) :=
    ⟨fun _ hw => hw, fun _ hw => hw, fun _ hw => hw, fun _ _ hw => hw⟩
  obtain ⟨hmetrics, hmessage⟩ := History.carried h.run (fun _ _ legal => legal) hcarried
    (fun x hx => ⟨(h.ingested x hx).1, fun hmark => ⟨x, (h.ingested x hx).2 hmark, rfl, rfl⟩⟩) w hw
  refine ⟨hmetrics, hmessage, ?_⟩
  rintro ⟨y, hy, _, hsame⟩
  rw [← hsame]
  exact h.written y hy

end Journey.Traced

/-! ## The accounts -/

namespace Journey

/-- When the processing of a retired item ended, as the committer records it. -/
def processedAt (w : WorkItem T) : Int := (MetricsRecord.ofItem w).processedAt

open Classical in
/-- The dead-lettered messages among those that bucket `i` of the window counts. -/
noncomputable def deadLettersIn (j : Journey T) (bucketDuration now : Int)
    (bucketCount i : Nat) : Nat :=
  (recordedIn processedAt bucketDuration now bucketCount i j.retired).countP
    fun w => decide (j.DeadLettered w)

/-- The record of an item, its metrics at the sink and the window agree with the worker. -/
structure Accounted (nexus : NexusTraits) (bucketDuration now : Int) (bucketCount : Nat)
    [NeZero bucketCount] (j : Journey T) : Prop where
  recorded : ∀ w ∈ j.retired, (MetricsRecord.ofItem w).deadLetter = true ↔ j.DeadLettered w
  delivered : ∀ w ∈ j.retired,
    (MetricsRecord.ofItem w).deadLetter = (sinkMetrics nexus w).traits.deadLetter
  window : ∀ i, i < bucketCount →
    (j.history.committer.recorded.foldl MetricsRingBuffer.record
        (newRingBuffer bucketDuration bucketCount now)).windowData.deadLetterPerBucket[i]? =
      some (j.deadLettersIn bucketDuration now bucketCount i)

variable {slices : SortFunc (WorkItem T)} {nexus : NexusTraits} {j : Journey T}

/-- The window of a committer counts no dead letter. -/
theorem Traced.window_zero (h : j.Traced slices nexus) (bucketDuration now : Int)
    (bucketCount : Nat) [NeZero bucketCount] {i : Nat} (hi : i < bucketCount) :
    (j.history.committer.recorded.foldl MetricsRingBuffer.record
        (newRingBuffer bucketDuration bucketCount now)).windowData.deadLetterPerBucket[i]? =
      some 0 := by
  rw [windowData_deadLetterPerBucket _ _ _ _ hi, Committer.recorded_eq h.run, recordedIn_map,
    List.countP_map, List.countP_eq_zero.mpr, Nat.zero_mod]
  intro w hw
  have hretired : w ∈ j.retired := (Ring.attributed_sublist _ _ _ _).mem hw
  simpa [MetricsRecord.ofItem] using (h.retired_marks w hretired).1

/-- Every retired item is recorded once and the sink is told of every dead letter, but the
record, the sink and the window agree only where no retired item was dead-lettered. -/
theorem dead_letters_accounted_iff (reachable : (journeySystem slices nexus).Reachable j)
    (bucketDuration now : Int) (bucketCount : Nat) [NeZero bucketCount] :
    j.history.committer.recorded = j.retired.map MetricsRecord.ofItem ∧
    (∃ sent : List (WorkItem T), sent.Sublist j.retired ∧
      j.collector.delivered = sent.map (sinkMetrics nexus)) ∧
    (∀ w ∈ j.retired, (sinkMetrics nexus w).traits.deadLetter = true ↔ j.DeadLettered w) ∧
    (j.Accounted nexus bucketDuration now bucketCount ↔
      ∀ w ∈ j.retired, ¬ j.DeadLettered w) := by
  have traced := Traced.of_reachable reachable
  have hsink : ∀ w ∈ j.retired,
      (sinkMetrics nexus w).traits.deadLetter = w.message.traits.deadLetter := by
    intro w hw
    rw [sinkMetrics_deadLetter, (traced.retired_marks w hw).1, Bool.false_or]
  refine ⟨Committer.recorded_eq traced.run, ?_, ?_, ?_, ?_⟩
  · obtain ⟨sent, hsent, hdelivered⟩ := traced.served
    refine ⟨sent, ?_, hdelivered⟩
    exact (List.sublist_append_left _ _).trans (hsent.trans (List.take_sublist _ _))
  · intro w hw
    rw [hsink w hw]
    exact (traced.retired_marks w hw).2
  · intro accounted w hw hdead
    have hflag := (accounted.recorded w hw).mpr hdead
    have hnone : (MetricsRecord.ofItem w).deadLetter = false := (traced.retired_marks w hw).1
    exact absurd (hnone.symm.trans hflag) (by decide)
  · intro hnone
    have hflag : ∀ w ∈ j.retired, (MetricsRecord.ofItem w).deadLetter = false :=
      fun w hw => (traced.retired_marks w hw).1
    refine ⟨fun w hw => ?_, fun w hw => ?_, fun i hi => ?_⟩
    · rw [hflag w hw]
      exact iff_of_false Bool.false_ne_true (hnone w hw)
    · rw [hflag w hw, hsink w hw, eq_comm, Bool.eq_false_iff]
      exact fun hmark => hnone w hw ((traced.retired_marks w hw).2.mp hmark)
    · rw [traced.window_zero _ _ _ hi, deadLettersIn, List.countP_eq_zero.mpr]
      intro w hw
      simpa using hnone w ((Ring.attributed_sublist _ _ _ _).mem hw)

/-- Every named trait is reserved. -/
def plainTraits : NexusTraits where
  frameworkReserved := ⟨true, true, true, true, true, true, true⟩
  addCustomTraits t _ := t
  reserved_deadLetter := rfl
  custom_deadLetter _ _ := rfl

/-- The first record of partition 0. -/
def firstItem : WorkItem Unit where
  ptr := 0
  message := { partition := 0, offset := 0 }
  metrics := { readTime := 1 }
  first := true

/-- One message fails, its dead letter is written and its offset is committed. The committer
records an ordinary message and the window stays at zero; the sink is told. -/
theorem dead_letter_recorded_plain : ∃ j : Journey Unit,
    (journeySystem (SortFunc.insertion (WorkItem Unit)) plainTraits).Reachable j ∧
    (∃ w ∈ j.retired, j.DeadLettered w ∧ (MetricsRecord.ofItem w).deadLetter = false ∧
      (sinkMetrics plainTraits w).traits.deadLetter = true) ∧
    ∀ i, i < 15 → (j.history.committer.recorded.foldl MetricsRingBuffer.record
      (newRingBuffer 1000000000 15 0)).windowData.deadLetterPerBucket[i]? = some 0 := by
  have h0 : (journeySystem (SortFunc.insertion (WorkItem Unit)) plainTraits).Reachable
      { workers := fun _ => { shard := 0, place := .pooled }, collector := { bufferSize := 1 } } :=
    .init ⟨_, 1, fun _ => ⟨rfl, rfl⟩, rfl⟩
  have h1 := h0.step (.poll _ 0 firstItem ⟨rfl, rfl⟩)
  have h2 := h1.step (.work _ 0 false _ _ (.receive _ firstItem [] rfl rfl))
  have h3 := h2.step (.work _ 0 false _ _ (.clear _ firstItem rfl rfl))
  have h4 := h3.step (.work _ 0 false _ _ (.invoke _ firstItem rfl))
  have h5 := h4.step (.work _ 0 false _ _ (.fail _ firstItem .error 2 3 rfl nofun))
  have h6 := h5.step (.work _ 0 false _ _ (.deadLetter _ _ 1 rfl))
  have h7 := h6.step (.work _ 0 false _ _ (.commit _ _ rfl))
  have h8 := h7.step (.ingest _ _ [] 10 rfl)
  have h9 := h8.step (.call _ (.markPartitionAssigned 0) trivial rfl)
  have h10 := h9.step (.call _ (.commitOffsets { flushOrder := [0], commitOrder := [0] })
    ⟨Committer.iterates_singleton rfl fun q hq => Function.update_of_ne hq _ _,
      Committer.iterates_singleton rfl fun q hq => Function.update_of_ne hq _ _⟩ rfl)
  refine ⟨_, h10, ⟨_, List.mem_cons_self, ⟨_, List.mem_cons_self, rfl, rfl⟩, rfl, rfl⟩, ?_⟩
  exact fun i hi => (Traced.of_reachable h10).window_zero _ _ _ hi

/-- One message succeeds, is committed and its metrics are delivered. -/
theorem dead_letters_accounted_success : ∃ j : Journey Unit,
    (journeySystem (SortFunc.insertion (WorkItem Unit)) plainTraits).Reachable j ∧
    j.retired.map WorkItem.ptr = [0] ∧ j.collector.delivered.length = 1 ∧
    j.Accounted plainTraits 1000000000 0 15 := by
  have h0 : (journeySystem (SortFunc.insertion (WorkItem Unit)) plainTraits).Reachable
      { workers := fun _ => { shard := 0, place := .pooled }, collector := { bufferSize := 1 } } :=
    .init ⟨_, 1, fun _ => ⟨rfl, rfl⟩, rfl⟩
  have h1 := h0.step (.poll _ 0 firstItem ⟨rfl, rfl⟩)
  have h2 := h1.step (.work _ 0 false _ _ (.receive _ firstItem [] rfl rfl))
  have h3 := h2.step (.work _ 0 false _ _ (.clear _ firstItem rfl rfl))
  have h4 := h3.step (.work _ 0 false _ _ (.invoke _ firstItem rfl))
  have h5 := h4.step (.work _ 0 false _ _ (.succeed _ firstItem 2 3 rfl))
  have h6 := h5.step (.work _ 0 false _ _ (.commit _ _ rfl))
  have h7 := h6.step (.ingest _ _ [] 10 rfl)
  have h8 := h7.step (.call _ (.markPartitionAssigned 0) trivial rfl)
  have h9 := h8.step (.call _ (.commitOffsets { flushOrder := [0], commitOrder := [0] })
    ⟨Committer.iterates_singleton rfl fun q hq => Function.update_of_ne hq _ _,
      Committer.iterates_singleton rfl fun q hq => Function.update_of_ne hq _ _⟩ rfl)
  have h10 := h9.step (.collect _ _ rfl)
  have h11 := h10.step (.send _ _ [] .ok rfl)
  obtain ⟨_, _, _, accounted⟩ := dead_letters_accounted_iff h11 1000000000 0 15
  refine ⟨_, h11, rfl, rfl, accounted.mpr ?_⟩
  rintro w _ ⟨y, hy, _⟩
  cases hy

end Journey

end LlingrDemux
