import LlingrDemux.Pipeline.Prev
import LlingrDemux.Pipeline.Worker
import LlingrDemux.Shared.System

/-!
# Recycled work items

A work item lives in three pooled structs, and `WorkItemsPool` hands the same structs from one
message to the next. Here every field of the three is modelled, with trait words as numbers and
the functions of `nexus` on them as parameters, and a message is followed from `toWorkItem`
through every assignment of the pipeline to `Return`.

`Return` does not clear `Metrics.WorkerPool`. The collector overwrites it before the sink sees
it, so a pooled item is a new one up to that field, and what a message shows to the handlers and
to the sink is what it would show on a new item. `PreviousOffset` and `First` are the answer of
`GetPrevious`, which depends on the messages before it by design; the committer branches on
`First`, so messages it treats alike agree in that one.
-/

namespace LlingrDemux.Recycling

open Shared Prev
open Pipeline (ProcessResult)

set_option autoImplicit false

variable {T C : Type}

/-- `nexus.Message` as it is pooled. -/
structure PooledMessage (T : Type) where
  traits : Nat := 0
  partition : Int := 0
  offset : Int := 0
  key : String := ""
  payload : Option T := none

/-- `nexus.Metrics` as it is pooled. -/
structure PooledMetrics where
  traits : Nat := 0
  queueDepth : Int := 0
  partition : Int := 0
  offset : Int := 0
  processDuration : Int := 0
  writeDeadLetterDuration : Int := 0
  processStartTime : Int := 0
  readTime : Int := 0
  watermarkAdvanceTime : Int := 0
  workerPool : Nat := 0
  deriving DecidableEq, Repr

/-- `ports.WorkItem`; the defaults are what the pool's `New` builds. -/
structure PooledItem (T C : Type) where
  message : PooledMessage T := {}
  metrics : PooledMetrics := {}
  ctx : Option C := none
  previousOffset : Int := -1
  first : Bool := false
  workerPool : Nat := 0

/-- The functions of `nexus` that read or write a trait word. -/
structure TraitWords where
  setUsedOverflow : Nat → Nat
  setProcessPanic : Nat → Nat
  setProcessError : Nat → Nat
  setDeadLetter : Nat → Nat
  setFirstAfterRebalance : Nat → Nat
  setCommitBuffered : Nat → Nat
  setOrphaned : Nat → Nat
  frameworkReserved : Nat
  addCustomTraits : PooledMetrics → Nat → PooledMetrics

/-- What `ExtractEnvelope` returns. -/
structure Envelope (C : Type) where
  ctx : Option C
  key : String
  partition : Int
  offset : Int

/-- What the polling loop passes to `Process`, with the payload's envelope. -/
structure Source (T C : Type) where
  payload : T
  envelope : Envelope C
  readTime : Int

/-- `toWorkItem` on a borrowed item with the answer of `GetPrevious`, and the read time that
`Process` adds. -/
def toWorkItem (w : PooledItem T C) (source : Source T C) (answer : Int × Bool) :
    PooledItem T C :=
  { w with
    previousOffset := answer.1
    first := answer.2
    ctx := source.envelope.ctx
    message.key := source.envelope.key
    message.partition := source.envelope.partition
    message.offset := source.envelope.offset
    message.payload := some source.payload
    metrics.readTime := source.readTime }

/-- `Return`: the item as it goes back into the pool. -/
def returned (w : PooledItem T C) : PooledItem T C :=
  { w with
    message.traits := 0
    message.partition := 0
    message.offset := 0
    message.key := ""
    message.payload := none
    metrics.traits := 0
    metrics.queueDepth := 0
    metrics.partition := 0
    metrics.offset := 0
    metrics.processDuration := 0
    metrics.writeDeadLetterDuration := 0
    metrics.readTime := 0
    metrics.processStartTime := 0
    metrics.watermarkAdvanceTime := 0
    ctx := none
    previousOffset := -1
    first := false
    workerPool := 0 }

/-- What the committer writes on an item between its arrival and its retirement. -/
inductive Mark where
  | commitBuffered
  | orphaned
  | watermarkAdvanced (now : Int)
  deriving DecidableEq, Repr

/-- What happens to a message after `toWorkItem`. The host's functions get a pointer to the
message and may change it; clocks are part of the action that reads them, and `first` is the
branch that the committer takes on the item's arrival. -/
inductive Action (T : Type) where
  | acquire (overflow : Bool)
  | awaitRateLimit (edit : PooledMessage T → PooledMessage T)
  | route (hashIndex : Nat)
  | measure (queueDepth : Int)
  | process (edit : PooledMessage T → PooledMessage T) (r : ProcessResult) (start duration : Int)
  | writeDeadLetter (edit : PooledMessage T → PooledMessage T) (written : Bool) (duration : Int)
  | commit (first : Bool)
  | mark (m : Mark)
  | sink

/-- How far a message is in the pipeline. -/
inductive Stage where
  | read | granted | limited | routed | failed | abandoned | processed | committing | sunk
  deriving DecidableEq, Repr

/-- The order of the source. The dispatcher measures the queue again on every retry, a failed
message is committed only after its dead letter is written, and an item that the collector
drops is returned without the sink. -/
def Stage.after : Stage → Action T → Option Stage
  | .read, .acquire _ => some .granted
  | .granted, .awaitRateLimit _ => some .limited
  | .limited, .route _ => some .routed
  | .routed, .measure _ => some .routed
  | .routed, .process _ .ok _ _ => some .processed
  | .routed, .process _ _ _ _ => some .failed
  | .failed, .writeDeadLetter _ true _ => some .processed
  | .failed, .writeDeadLetter _ false _ => some .abandoned
  | .processed, .commit _ => some .committing
  | .committing, .mark _ => some .committing
  | .committing, .sink => some .sunk
  | _, _ => none

def Mark.apply (words : TraitWords) (metrics : PooledMetrics) : Mark → PooledMetrics
  | .commitBuffered => { metrics with traits := words.setCommitBuffered metrics.traits }
  | .orphaned => { metrics with traits := words.setOrphaned metrics.traits }
  | .watermarkAdvanced now => { metrics with watermarkAdvanceTime := now }

/-- The message after `process`: the deferred function marks a panic and then any error. -/
def markOutcome (words : TraitWords) (m : PooledMessage T) : ProcessResult → PooledMessage T
  | .ok => m
  | .error => { m with traits := words.setProcessError m.traits }
  | .panicked => { m with traits := words.setProcessError (words.setProcessPanic m.traits) }

/-- The message as `WriteDeadLetter` receives it. -/
def deadLetterMessage (words : TraitWords) (w : PooledItem T C) : PooledMessage T :=
  { w.message with traits := words.setDeadLetter w.message.traits }

/-- The record as `MetricsSink` receives it. -/
def sentMetrics (words : TraitWords) (w : PooledItem T C) : PooledMetrics :=
  words.addCustomTraits
    { w.metrics with
      workerPool := w.workerPool
      partition := w.message.partition
      offset := w.message.offset
      traits := w.metrics.traits ||| (w.message.traits &&& words.frameworkReserved) }
    w.message.traits

/-- What an action leaves on the item. -/
def Action.apply (words : TraitWords) (w : PooledItem T C) : Action T → PooledItem T C
  | .acquire true => { w with metrics.traits := words.setUsedOverflow w.metrics.traits }
  | .acquire false => w
  | .awaitRateLimit edit => { w with message := edit w.message }
  | .route hashIndex => { w with workerPool := hashIndex }
  | .measure queueDepth => { w with metrics.queueDepth := queueDepth }
  | .process edit r start duration =>
    { w with
      message := markOutcome words (edit w.message) r
      metrics.processDuration := duration
      metrics.processStartTime := start }
  | .writeDeadLetter edit _ duration =>
    { w with
      message := edit (deadLetterMessage words w)
      metrics.writeDeadLetterDuration := duration }
  | .commit true => { w with metrics.traits := words.setFirstAfterRebalance w.metrics.traits }
  | .commit false => w
  | .mark m => { w with metrics := m.apply words w.metrics }
  | .sink => { w with metrics := sentMetrics words w }

/-- The committer's branch is the item's own `First`. -/
def Action.enabled (w : PooledItem T C) : Action T → Bool
  | .commit first => first == w.first
  | _ => true

/-- What a message has shown so far to `ProcessMessage`, `WriteDeadLetter`, the committer and
`MetricsSink`. -/
structure Seen (T C : Type) where
  handled : List (Option C × PooledMessage T) := []
  deadLettered : List (Option C × PooledMessage T) := []
  committed : List (Int × Bool) := []
  sunk : List PooledMetrics := []

def Action.present (words : TraitWords) (w : PooledItem T C) (seen : Seen T C) :
    Action T → Seen T C
  | .process _ _ _ _ => { seen with handled := seen.handled ++ [(w.ctx, w.message)] }
  | .writeDeadLetter _ _ _ =>
    { seen with deadLettered := seen.deadLettered ++ [(w.ctx, deadLetterMessage words w)] }
  | .commit _ => { seen with committed := seen.committed ++ [(w.previousOffset, w.first)] }
  | .sink => { seen with sunk := seen.sunk ++ [sentMetrics words w] }
  | _ => seen

/-- A message's history: where it came from, the tracker that `GetPrevious` was asked with, its
answer, the actions on it in their order and what they showed. -/
structure Record (T C : Type) where
  source : Source T C
  tracker : PartitionOffsets
  answer : Int × Bool
  accepted :
    (tracker.getPrevious source.envelope.partition source.envelope.offset).2 = .ok answer
  trace : List (Action T) := []
  seen : Seen T C := {}

structure Flight (T C : Type) where
  record : Record T C
  stage : Stage := .read
  item : PooledItem T C

def Flight.advance (words : TraitWords) (f : Flight T C) (a : Action T) :
    Option (Flight T C) :=
  if a.enabled f.item then
    (f.stage.after a).map fun stage =>
      { record :=
          { f.record with
            trace := f.record.trace ++ [a]
            seen := a.present words f.item f.record.seen }
        stage := stage
        item := a.apply words f.item }
  else none

/-- The pool, the predecessor tracker, the messages on their way and those whose items went
back. -/
structure State (T C : Type) where
  pool : List (PooledItem T C)
  tracker : PartitionOffsets := {}
  flights : List (Flight T C) := []
  finished : List (Record T C) := []

def State.records (s : State T C) : List (Record T C) :=
  s.flights.map Flight.record ++ s.finished

/-- `sync.Pool.Get`: any pooled item or a new one. -/
inductive Borrow : List (PooledItem T C) → PooledItem T C → List (PooledItem T C) → Prop where
  | new (pool : List (PooledItem T C)) : Borrow pool {} pool
  | pooled (before after : List (PooledItem T C)) (w : PooledItem T C) :
    Borrow (before ++ w :: after) w (before ++ after)

/-- An item that is neither committed nor dropped is never returned: a rejected offset, a
timeout, the breaker and a failed dead letter leave it to the garbage collector, as
`sync.Pool` may do with any item it holds. -/
inductive Step (words : TraitWords) : State T C → State T C → Prop where
  | poll {s : State T C} {w : PooledItem T C} {pool : List (PooledItem T C)}
    {tracker : PartitionOffsets} (source : Source T C) (answer : Int × Bool)
    (borrow : Borrow s.pool w pool)
    (accepted : (s.tracker.getPrevious source.envelope.partition source.envelope.offset).2
      = .ok answer)
    (tracked : (s.tracker.getPrevious source.envelope.partition source.envelope.offset).1
      = tracker) :
    Step words s
      { s with
        pool := pool
        tracker := tracker
        flights := s.flights ++
          [{ record := { source := source, tracker := s.tracker, answer := answer,
                         accepted := accepted }
             item := toWorkItem w source answer }] }
  | reject {s : State T C} {w : PooledItem T C} {pool : List (PooledItem T C)}
    (borrow : Borrow s.pool w pool) : Step words s { s with pool := pool }
  | resetPrevOffsets {s : State T C} (partitions : List Int) :
    Step words s { s with tracker := s.tracker.reset partitions }
  | act {s : State T C} {f f' : Flight T C} (before after : List (Flight T C)) (a : Action T)
    (flying : s.flights = before ++ f :: after) (advanced : f.advance words a = some f') :
    Step words s { s with flights := before ++ f' :: after }
  | giveBack {s : State T C} {f : Flight T C} (before after : List (Flight T C))
    (flying : s.flights = before ++ f :: after)
    (retired : f.stage = .committing ∨ f.stage = .sunk) :
    Step words s
      { s with
        pool := returned f.item :: s.pool
        flights := before ++ after
        finished := s.finished ++ [f.record] }

/-- The pool starts with the new items of `warmPool`. -/
def poolSystem (T C : Type) (words : TraitWords) : System (State T C) where
  init s := (∀ w ∈ s.pool, w = {}) ∧ s.tracker = {} ∧ s.flights = [] ∧ s.finished = []
  step := Step words

/-! ## What may differ between a recycled item and a new one -/

/-- The item with the three fields that depend on earlier messages. -/
def PooledItem.stamped (w : PooledItem T C) (pool : Nat) (answer : Int × Bool) :
    PooledItem T C :=
  { w with metrics.workerPool := pool, previousOffset := answer.1, first := answer.2 }

def Seen.stamped (seen : Seen T C) (answer : Int × Bool) : Seen T C :=
  { seen with committed := seen.committed.map fun _ => answer }

theorem returned_eq (w : PooledItem T C) :
    returned w = PooledItem.stamped {} w.metrics.workerPool (-1, false) := rfl

theorem toWorkItem_stamped (w : PooledItem T C) (source : Source T C) (pool : Nat)
    (old answer : Int × Bool) :
    toWorkItem (w.stamped pool old) source answer
      = (toWorkItem w source (-1, false)).stamped pool answer := rfl

/-- The collector writes the shard over whatever the last message left there. -/
theorem sentMetrics_stamped (words : TraitWords) (w : PooledItem T C) (pool : Nat)
    (answer : Int × Bool) :
    sentMetrics words (w.stamped pool answer) = sentMetrics words w := rfl

theorem Mark.apply_workerPool (words : TraitWords) (metrics : PooledMetrics) (pool : Nat)
    (m : Mark) :
    m.apply words { metrics with workerPool := pool }
      = { m.apply words metrics with workerPool := pool } := by
  cases m <;> rfl

/-- No action copies one of the three fields into another field of the item. -/
theorem Action.apply_stamped (words : TraitWords) (w : PooledItem T C) (pool : Nat)
    (answer : Int × Bool) (a : Action T) :
    ∃ pool', a.apply words (w.stamped pool answer) = (a.apply words w).stamped pool' answer := by
  cases a with
  | acquire overflow => cases overflow <;> exact ⟨pool, rfl⟩
  | commit first => cases first <;> exact ⟨pool, rfl⟩
  | mark m =>
    refine ⟨pool, ?_⟩
    simp only [apply, PooledItem.stamped, Mark.apply_workerPool]
  | sink =>
    refine ⟨(sentMetrics words w).workerPool, ?_⟩
    simp only [apply, sentMetrics_stamped]
    rfl
  | _ => exact ⟨pool, rfl⟩

/-- Only the committer sees one of the three fields, and it sees the answer. -/
theorem Action.present_stamped (words : TraitWords) (w : PooledItem T C) (seen : Seen T C)
    (pool : Nat) (answer : Int × Bool) (a : Action T) :
    a.present words (w.stamped pool answer) (seen.stamped answer)
      = (a.present words w seen).stamped answer := by
  cases a with
  | commit first => simp [present, Seen.stamped, PooledItem.stamped]
  | sink => simp only [present, sentMetrics_stamped, Seen.stamped]
  | _ => rfl

/-- The branches that the committer took. -/
def Action.branch : Action T → Option Bool
  | .commit first => some first
  | _ => none

theorem Action.present_committed_first (words : TraitWords) (w : PooledItem T C)
    (seen : Seen T C) {a : Action T} (h : a.enabled w = true) :
    (a.present words w seen).committed.map Prod.snd
      = seen.committed.map Prod.snd ++ [a].filterMap Action.branch := by
  cases a with
  | commit first =>
    have hfirst : first = w.first := by simpa [enabled] using h
    simp [present, branch, hfirst]
  | _ => simp [present, branch]

/-! ## A message on an item of its own -/

/-- The item and what it has shown when the actions run on a new item, without a
predecessor. -/
def replay (words : TraitWords) (source : Source T C) (trace : List (Action T)) :
    PooledItem T C × Seen T C :=
  trace.foldl (fun p a => (a.apply words p.1, a.present words p.1 p.2))
    (toWorkItem {} source (-1, false), {})

theorem replay_append (words : TraitWords) (source : Source T C) (trace : List (Action T))
    (a : Action T) :
    replay words source (trace ++ [a])
      = (a.apply words (replay words source trace).1,
          a.present words (replay words source trace).1 (replay words source trace).2) := by
  simp [replay, List.foldl_append]

/-- The message has shown what it shows on a new item, with its own answer to the committer,
and its `First` is the branch that the committer took. -/
structure Record.Replays (words : TraitWords) (r : Record T C) : Prop where
  seen : r.seen = (replay words r.source r.trace).2.stamped r.answer
  first : r.seen.committed.map Prod.snd = r.trace.filterMap Action.branch

structure Flight.Replays (words : TraitWords) (f : Flight T C) : Prop where
  record : f.record.Replays words
  item : ∃ pool, f.item = (replay words f.record.source f.record.trace).1.stamped pool
    f.record.answer

theorem Flight.Replays.advance {words : TraitWords} {f f' : Flight T C} {a : Action T}
    (h : f.Replays words) (hadv : f.advance words a = some f') : f'.Replays words := by
  unfold Flight.advance at hadv
  split at hadv
  · rename_i henabled
    obtain ⟨stage, _, rfl⟩ := Option.map_eq_some_iff.mp hadv
    obtain ⟨pool, hitem⟩ := h.item
    refine ⟨⟨?_, ?_⟩, ?_⟩
    · simp only [replay_append]
      rw [hitem, h.record.seen, Action.present_stamped]
    · simp only [List.filterMap_append]
      rw [Action.present_committed_first words f.item f.record.seen henabled, h.record.first]
    · obtain ⟨pool', hpool⟩ := Action.apply_stamped words
        (replay words f.record.source f.record.trace).1 pool f.record.answer a
      refine ⟨pool', ?_⟩
      simp only [replay_append, hitem, hpool]
  · simp at hadv

/-- A pooled item is a new one up to `Metrics.WorkerPool`. -/
def Cleared (w : PooledItem T C) : Prop := ∃ pool, w = PooledItem.stamped {} pool (-1, false)

theorem cleared_new : Cleared ({} : PooledItem T C) := ⟨0, rfl⟩

theorem cleared_returned (w : PooledItem T C) : Cleared (returned w) :=
  ⟨w.metrics.workerPool, returned_eq w⟩

theorem Borrow.cleared {pool pool' : List (PooledItem T C)} {w : PooledItem T C}
    (h : Borrow pool w pool') (hpool : ∀ v ∈ pool, Cleared v) :
    Cleared w ∧ ∀ v ∈ pool', Cleared v := by
  cases h with
  | new => exact ⟨cleared_new, hpool⟩
  | pooled before after w =>
    constructor
    · apply hpool
      simp
    · intro v hv
      apply hpool
      simp only [List.mem_append, List.mem_cons] at hv ⊢
      exact hv.imp_right .inr

/-- What every reachable state keeps. -/
structure Invariant (words : TraitWords) (s : State T C) : Prop where
  pool : ∀ w ∈ s.pool, Cleared w
  flights : ∀ f ∈ s.flights, f.Replays words
  finished : ∀ r ∈ s.finished, r.Replays words

theorem Invariant.init {words : TraitWords} {s : State T C}
    (h : (poolSystem T C words).init s) : Invariant words s := by
  obtain ⟨hpool, _, hflights, hfinished⟩ := h
  constructor
  · intro w hw
    rw [hpool w hw]
    exact cleared_new
  · simp [hflights]
  · simp [hfinished]

theorem Invariant.step {words : TraitWords} {s t : State T C} (h : Invariant words s)
    (hstep : Step words s t) : Invariant words t := by
  cases hstep with
  | @poll w pool tracker source answer borrow accepted tracked =>
    obtain ⟨⟨old, rfl⟩, hpool⟩ := borrow.cleared h.pool
    refine ⟨hpool, ?_, h.finished⟩
    intro f hf
    rcases List.mem_append.mp hf with hf | hf
    · exact h.flights f hf
    · obtain rfl := List.mem_singleton.mp hf
      exact ⟨⟨rfl, rfl⟩, old, toWorkItem_stamped _ _ _ _ _⟩
  | reject borrow => exact ⟨(borrow.cleared h.pool).2, h.flights, h.finished⟩
  | resetPrevOffsets => exact ⟨h.pool, h.flights, h.finished⟩
  | @act f f' before after a flying advanced =>
    refine ⟨h.pool, ?_, h.finished⟩
    have hflights := h.flights
    simp only [flying, List.forall_mem_append, List.forall_mem_cons] at hflights ⊢
    obtain ⟨hbefore, hf, hafter⟩ := hflights
    exact ⟨hbefore, hf.advance advanced, hafter⟩
  | @giveBack f before after flying retired =>
    have hflights := h.flights
    simp only [flying, List.forall_mem_append, List.forall_mem_cons] at hflights
    obtain ⟨hbefore, hf, hafter⟩ := hflights
    constructor
    · exact List.forall_mem_cons.mpr ⟨cleared_returned f.item, h.pool⟩
    · exact List.forall_mem_append.mpr ⟨hbefore, hafter⟩
    · exact List.forall_mem_append.mpr ⟨h.finished, List.forall_mem_singleton.mpr hf.record⟩

theorem Invariant.of_reachable {words : TraitWords} {s : State T C}
    (hs : (poolSystem T C words).Reachable s) : Invariant words s :=
  System.invariant (P := Invariant words) (fun _ => Invariant.init)
    (fun _ _ _ h hstep => h.step hstep) s hs

theorem Invariant.records {words : TraitWords} {s : State T C} (h : Invariant words s)
    {r : Record T C} (hr : r ∈ s.records) : r.Replays words := by
  rcases List.mem_append.mp hr with hr | hr
  · obtain ⟨f, hf, rfl⟩ := List.mem_map.mp hr
    exact (h.flights f hf).record
  · exact h.finished r hr

/-- `GetPrevious` answers from the last offset of the partition alone. -/
theorem getPrevious_answer_congr {s t : PartitionOffsets} {partition : Int}
    (h : s.prevOffsets partition = t.prevOffsets partition) (offset : Int) :
    (s.getPrevious partition offset).2 = (t.getPrevious partition offset).2 := by
  unfold PartitionOffsets.getPrevious
  rw [h]
  split
  · rfl
  · split
    · rfl
    · split
      · rfl
      · split <;> rfl

theorem Record.answer_eq {r₁ r₂ : Record T C} (hsource : r₁.source = r₂.source)
    (hlast : r₁.tracker.prevOffsets r₁.source.envelope.partition
      = r₂.tracker.prevOffsets r₁.source.envelope.partition) : r₁.answer = r₂.answer := by
  have h := getPrevious_answer_congr hlast r₁.source.envelope.offset
  have hother := r₂.accepted
  rw [← hsource] at hother
  rw [r₁.accepted, hother] at h
  exact Except.ok.inj h

/-- Two messages that are read and treated alike after any two histories of the pool show the
same message and context to the handlers and the same metrics to the sink. To the committer
each shows what `GetPrevious` answered: the same `First`, and the same `PreviousOffset` where
the partition's last accepted offset is the same. -/
theorem recycled_no_residue (words : TraitWords) {s₁ s₂ : State T C}
    (h₁ : (poolSystem T C words).Reachable s₁) (h₂ : (poolSystem T C words).Reachable s₂)
    {r₁ r₂ : Record T C} (hr₁ : r₁ ∈ s₁.records) (hr₂ : r₂ ∈ s₂.records)
    (hsource : r₁.source = r₂.source) (htrace : r₁.trace = r₂.trace) :
    r₁.seen.handled = r₂.seen.handled ∧
      r₁.seen.deadLettered = r₂.seen.deadLettered ∧
      r₁.seen.sunk = r₂.seen.sunk ∧
      r₁.seen.committed.map Prod.snd = r₂.seen.committed.map Prod.snd ∧
      (∀ shown ∈ r₁.seen.committed, shown = r₁.answer) ∧
      (r₁.tracker.prevOffsets r₁.source.envelope.partition
          = r₂.tracker.prevOffsets r₁.source.envelope.partition →
        r₁.seen.committed = r₂.seen.committed) := by
  obtain ⟨hseen₁, hfirst₁⟩ := (Invariant.of_reachable h₁).records hr₁
  obtain ⟨hseen₂, hfirst₂⟩ := (Invariant.of_reachable h₂).records hr₂
  rw [← hsource, ← htrace] at hseen₂
  refine ⟨?_, ?_, ?_, ?_, ?_, ?_⟩
  · rw [hseen₁, hseen₂]
    rfl
  · rw [hseen₁, hseen₂]
    rfl
  · rw [hseen₁, hseen₂]
    rfl
  · rw [hfirst₁, hfirst₂, htrace]
  · intro shown hshown
    rw [hseen₁] at hshown
    obtain ⟨_, _, rfl⟩ := List.mem_map.mp hshown
    rfl
  · intro hlast
    rw [hseen₁, hseen₂, Record.answer_eq hsource hlast]

/-! ## Two histories -/

section Histories
variable {words : TraitWords}

/-- A flight that is alone takes the actions of a list one after the other. -/
theorem reachable_advances {pool : List (PooledItem T C)} {tracker : PartitionOffsets}
    {finished : List (Record T C)} {f f' : Flight T C} (trace : List (Action T))
    (hs : (poolSystem T C words).Reachable ⟨pool, tracker, [f], finished⟩)
    (hrun : trace.foldlM (fun f a => f.advance words a) f = some f') :
    (poolSystem T C words).Reachable ⟨pool, tracker, [f'], finished⟩ := by
  induction trace generalizing f with
  | nil =>
    obtain rfl := Option.some.inj hrun
    exact hs
  | cons a rest ih =>
    simp only [List.foldlM_cons, Option.bind_eq_bind, Option.bind_eq_some_iff] at hrun
    obtain ⟨mid, hadv, hrest⟩ := hrun
    apply ih _ hrest
    exact hs.step (Step.act [] [] a rfl hadv)

theorem reachable_polled {s : State T C} (hs : (poolSystem T C words).Reachable s)
    (halone : s.flights = []) {w : PooledItem T C} {pool : List (PooledItem T C)}
    {f : Flight T C} {answer : Int × Bool} (source : Source T C) (trace : List (Action T))
    (borrow : Borrow s.pool w pool)
    (accepted : (s.tracker.getPrevious source.envelope.partition source.envelope.offset).2
      = .ok answer)
    (hrun : trace.foldlM (fun f a => f.advance words a)
      { record := { source := source, tracker := s.tracker, answer := answer,
                    accepted := accepted }
        item := toWorkItem w source answer } = some f) :
    (poolSystem T C words).Reachable
      { s with
        pool := pool
        tracker := (s.tracker.getPrevious source.envelope.partition source.envelope.offset).1
        flights := [f] } := by
  have hpolled := hs.step (Step.poll source answer borrow accepted rfl)
  rw [halone] at hpolled
  exact reachable_advances trace hpolled hrun

end Histories

def bitWords : TraitWords where
  setUsedOverflow := (· ||| 1)
  setProcessPanic := (· ||| 2)
  setProcessError := (· ||| 4)
  setDeadLetter := (· ||| 8)
  setFirstAfterRebalance := (· ||| 16)
  setCommitBuffered := (· ||| 32)
  setOrphaned := (· ||| 64)
  frameworkReserved := 127
  addCustomTraits metrics custom := { metrics with traits := metrics.traits ||| (custom &&& 128) }

/-- A record of partition 0 at the given offset. -/
def recordAt (offset : Int) : Source Unit Unit := ⟨(), ⟨some (), "invoice", 0, offset⟩, 20⟩

/-- Over the overflow guard, behind two others in the queue, panicking, dead-lettered and first
after the rebalance. -/
def deadLetterTrace : List (Action Unit) :=
  [.acquire true, .awaitRateLimit id, .route 3, .measure 2,
    .process (fun m => { m with traits := m.traits ||| 128 }) .panicked 11 5,
    .writeDeadLetter id true 2, .commit true, .mark (.watermarkAdvanced 19), .sink]

def plainTrace : List (Action Unit) :=
  [.acquire false, .awaitRateLimit id, .route 1, .process id .ok 21 1, .commit false,
    .mark (.watermarkAdvanced 23), .sink]

/-- The metrics of offset 7, with nothing of any other message in them. -/
def plainMetrics : PooledMetrics where
  offset := 7
  processDuration := 1
  processStartTime := 21
  readTime := 20
  watermarkAdvanceTime := 23
  workerPool := 1

/-- Offset 7 follows offset 4, which was dead-lettered on the item before it. -/
theorem seven_after_four : ∃ (s : State Unit Unit) (r : Record Unit Unit),
    (poolSystem Unit Unit bitWords).Reachable s ∧ r ∈ s.records ∧ r.source = recordAt 7 ∧
      r.trace = plainTrace ∧ r.seen.committed = [(4, false)] := by
  have hinit : (poolSystem Unit Unit bitWords).Reachable { pool := [] } :=
    .init ⟨by simp, rfl, rfl, rfl⟩
  have hread := reachable_polled hinit rfl (recordAt 4) deadLetterTrace (.new []) rfl rfl
  have hback := hread.step (Step.giveBack [] [] rfl (.inr rfl))
  have hagain := reachable_polled hback rfl (recordAt 7) plainTrace (.pooled [] [] _) rfl rfl
  exact ⟨_, _, hagain, List.mem_cons_self, rfl, rfl, rfl⟩

/-- Offset 7 follows offset 5, whose item the pool has lost. -/
theorem seven_after_five : ∃ (s : State Unit Unit) (r : Record Unit Unit),
    (poolSystem Unit Unit bitWords).Reachable s ∧ r ∈ s.records ∧ r.source = recordAt 7 ∧
      r.trace = plainTrace ∧ r.seen.committed = [(5, false)] ∧ r.seen.sunk = [plainMetrics] := by
  have hinit : (poolSystem Unit Unit bitWords).Reachable { pool := [] } :=
    .init ⟨by simp, rfl, rfl, rfl⟩
  have hread := reachable_polled hinit rfl (recordAt 5) deadLetterTrace (.new []) rfl rfl
  have hback := hread.step (Step.giveBack [] [] rfl (.inr rfl))
  have hagain := reachable_polled hback rfl (recordAt 7) plainTrace (.new _) rfl rfl
  exact ⟨_, _, hagain, List.mem_cons_self, rfl, rfl, rfl, rfl⟩

theorem recycled_no_residue_seven : ∃ (s : State Unit Unit) (r : Record Unit Unit),
    (poolSystem Unit Unit bitWords).Reachable s ∧ r ∈ s.records ∧
      r.seen.committed = [(4, false)] ∧ r.seen.sunk = [plainMetrics] := by
  obtain ⟨s₁, r₁, hs₁, hr₁, hsource₁, htrace₁, hshown⟩ := seven_after_four
  obtain ⟨s₂, r₂, hs₂, hr₂, hsource₂, htrace₂, _, hsunk⟩ := seven_after_five
  have h := recycled_no_residue bitWords hs₁ hs₂ hr₁ hr₂ (hsource₁.trans hsource₂.symm)
    (htrace₁.trans htrace₂.symm)
  exact ⟨s₁, r₁, hs₁, hr₁, hshown, h.2.2.1.trans hsunk⟩

/-- The same message, treated alike, shows the committer another predecessor after another
history: `GetPrevious` remembers the partition's last offset. -/
theorem recycled_previous_differs : ∃ (s₁ s₂ : State Unit Unit) (r₁ r₂ : Record Unit Unit),
    (poolSystem Unit Unit bitWords).Reachable s₁ ∧ (poolSystem Unit Unit bitWords).Reachable s₂ ∧
      r₁ ∈ s₁.records ∧ r₂ ∈ s₂.records ∧ r₁.source = r₂.source ∧ r₁.trace = r₂.trace ∧
      r₁.seen.committed = [(4, false)] ∧ r₂.seen.committed = [(5, false)] := by
  obtain ⟨s₁, r₁, hs₁, hr₁, hsource₁, htrace₁, hshown₁⟩ := seven_after_four
  obtain ⟨s₂, r₂, hs₂, hr₂, hsource₂, htrace₂, hshown₂, _⟩ := seven_after_five
  exact ⟨s₁, s₂, r₁, r₂, hs₁, hs₂, hr₁, hr₂, hsource₁.trans hsource₂.symm,
    htrace₁.trans htrace₂.symm, hshown₁, hshown₂⟩

end LlingrDemux.Recycling
