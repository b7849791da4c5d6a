import LlingrDemux.Shared.System
import Mathlib.Data.List.Perm.Basic
import Mathlib.Data.List.Count

/-!
# A lane: one queue served by one server at a time

Items arrive one by one, wait in a queue and are taken in order. Until the lane is closed
a taken item is accepted, run to an outcome and delivered when the outcome is good;
afterwards taken items are dropped. The items run are a prefix of the arrivals, and every
arrival is delivered, failed, dropped or still in the lane.
-/

namespace LlingrDemux.Shared

set_option autoImplicit false

universe u
variable {α : Type u}

inductive Stage (α : Type u) where
  | idle
  | taken (a : α)
  | accepted (a : α)
  | running (a : α)
  | ending (a : α) (good : Bool)

namespace Stage

def takenItems : Stage α → List α
  | taken a => [a]
  | _ => []

def acceptedItems : Stage α → List α
  | accepted a => [a]
  | _ => []

def runningItems : Stage α → List α
  | running a => [a]
  | _ => []

/-- The item whose good outcome is known and which is not yet delivered. -/
def leaving : Stage α → List α
  | ending a true => [a]
  | _ => []

def items : Stage α → List α
  | idle => []
  | taken a | accepted a | running a | ending a _ => [a]

end Stage

/-- A lane with its history; `offered` has arrived and waits outside the queue. -/
structure Lane (α : Type u) where
  arrived : List α := []
  offered : Option α := none
  queue : List α := []
  stage : Stage α := .idle
  closed : Bool := false
  started : List α := []
  finished : List (α × Bool) := []
  delivered : List α := []
  dropped : List α := []
  failed : List α := []

namespace Lane

inductive Step : Lane α → Lane α → Prop where
  | arrive (l : Lane α) (a : α) (free : l.offered = none) :
      Step l { l with arrived := l.arrived ++ [a], offered := some a }
  | enqueue (l : Lane α) (a : α) (offer : l.offered = some a) :
      Step l { l with offered := none, queue := l.queue ++ [a] }
  | abandon (l : Lane α) (a : α) (offer : l.offered = some a) (closed : l.closed = true) :
      Step l { l with offered := none, dropped := l.dropped ++ [a] }
  | take (l : Lane α) (a : α) (rest : List α) (stage : l.stage = .idle)
      (queue : l.queue = a :: rest) : Step l { l with queue := rest, stage := .taken a }
  | drop (l : Lane α) (a : α) (stage : l.stage = .taken a) (closed : l.closed = true) :
      Step l { l with stage := .idle, dropped := l.dropped ++ [a] }
  | accept (l : Lane α) (a : α) (stage : l.stage = .taken a) (opened : l.closed = false) :
      Step l { l with stage := .accepted a }
  | start (l : Lane α) (a : α) (stage : l.stage = .accepted a) :
      Step l { l with stage := .running a, started := l.started ++ [a] }
  | finish (l : Lane α) (a : α) (good : Bool) (stage : l.stage = .running a) :
      Step l { l with stage := .ending a good, finished := l.finished ++ [(a, good)] }
  | deliver (l : Lane α) (a : α) (stage : l.stage = .ending a true) :
      Step l { l with stage := .idle, delivered := l.delivered ++ [a] }
  | fail (l : Lane α) (a : α) (stage : l.stage = .ending a false) :
      Step l { l with stage := .idle, failed := l.failed ++ [a] }
  | close (l : Lane α) : Step l { l with closed := true }

/-- What holds of a lane at any time. -/
structure Inv (l : Lane α) : Prop where
  order : ∃ rest, l.arrived = l.started ++ l.stage.acceptedItems ++ rest ∧
    (l.closed = false → rest = l.stage.takenItems ++ l.queue ++ l.offered.toList)
  handled : l.started = l.finished.map Prod.fst ++ l.stage.runningItems
  passed : (l.finished.filter Prod.snd).map Prod.fst = l.delivered ++ l.stage.leaving
  kept : l.arrived.Perm
    (l.delivered ++ l.failed ++ l.dropped ++ l.stage.items ++ l.queue ++ l.offered.toList)
  dropped_closed : l.dropped ≠ [] → l.closed = true

theorem Inv.initial : Inv ({} : Lane α) :=
  ⟨⟨[], rfl, fun _ => rfl⟩, rfl, rfl, .refl _, fun h => absurd rfl h⟩

section Steps
variable {l l' : Lane α}

theorem Inv.order_step (h : l.Inv) (step : Step l l') :
    ∃ rest, l'.arrived = l'.started ++ l'.stage.acceptedItems ++ rest ∧
      (l'.closed = false → rest = l'.stage.takenItems ++ l'.queue ++ l'.offered.toList) := by
  obtain ⟨rest, harrived, hrest⟩ := h.order
  cases step with
  | arrive a free =>
    refine ⟨rest ++ [a], by simp [harrived], fun hopen => ?_⟩
    simp [hrest hopen, free]
  | enqueue a offer =>
    refine ⟨rest, harrived, fun hopen => ?_⟩
    simp [hrest hopen, offer]
  | abandon a offer closed =>
    refine ⟨rest, harrived, fun hopen => ?_⟩
    exact absurd (closed.symm.trans hopen) (by decide)
  | take a waiting stage queue =>
    refine ⟨rest, by simpa [stage, Stage.acceptedItems] using harrived, fun hopen => ?_⟩
    simp [hrest hopen, stage, queue, Stage.takenItems]
  | drop a stage closed =>
    refine ⟨rest, by simpa [stage, Stage.acceptedItems] using harrived, fun hopen => ?_⟩
    exact absurd (closed.symm.trans hopen) (by decide)
  | accept a stage opened =>
    -- the only step that shortens the unaccepted rest, and the lane is open
    refine ⟨l.queue ++ l.offered.toList, ?_, fun _ => rfl⟩
    simp [harrived, hrest opened, stage, Stage.acceptedItems, Stage.takenItems]
  | start a stage =>
    refine ⟨rest, by simpa [stage, Stage.acceptedItems] using harrived, fun hopen => ?_⟩
    simp [hrest hopen, stage, Stage.takenItems]
  | finish a good stage | deliver a stage | fail a stage =>
    refine ⟨rest, by simpa [stage, Stage.acceptedItems] using harrived, fun hopen => ?_⟩
    simp [hrest hopen, stage, Stage.takenItems]
  | close => exact ⟨rest, harrived, fun hopen => nomatch hopen⟩

theorem Inv.handled_step (h : l.Inv) (step : Step l l') :
    l'.started = l'.finished.map Prod.fst ++ l'.stage.runningItems := by
  have hh := h.handled
  cases step with
  | arrive | enqueue | abandon | close => exact hh
  | start a stage => simpa [stage, Stage.runningItems] using hh
  | take a rest stage | drop a stage | accept a stage | finish a good stage | deliver a stage
  | fail a stage => simpa [stage, Stage.runningItems] using hh

theorem Inv.passed_step (h : l.Inv) (step : Step l l') :
    (l'.finished.filter Prod.snd).map Prod.fst = l'.delivered ++ l'.stage.leaving := by
  have hp := h.passed
  cases step with
  | arrive | enqueue | abandon | close => exact hp
  | finish a good stage =>
    cases good <;> simpa [stage, Stage.leaving, List.filter_append] using hp
  | take a rest stage | drop a stage | accept a stage | start a stage | deliver a stage
  | fail a stage => simpa [stage, Stage.leaving] using hp

theorem Inv.kept_step (h : l.Inv) (step : Step l l') :
    l'.arrived.Perm (l'.delivered ++ l'.failed ++ l'.dropped ++ l'.stage.items ++ l'.queue ++
      l'.offered.toList) := by
  classical
  rw [List.perm_iff_count]
  intro b
  have hb := h.kept.count_eq b
  simp only [List.count_append] at hb
  cases step with
  | arrive a offer | enqueue a offer | abandon a offer =>
    simp only [offer, Option.toList_some, Option.toList_none, List.count_append,
      List.count_nil] at hb ⊢
    omega
  | take a rest stage queue =>
    simp only [stage, queue, Stage.items, List.count_append, List.count_cons, List.count_nil]
      at hb ⊢
    omega
  | drop a stage | accept a stage | start a stage | finish a good stage | deliver a stage
  | fail a stage =>
    simp only [stage, Stage.items, List.count_append, List.count_nil] at hb ⊢
    omega
  | close => simpa only [List.count_append] using hb

theorem Inv.dropped_step (h : l.Inv) (step : Step l l') : l'.dropped ≠ [] → l'.closed = true := by
  intro hne
  cases step with
  | abandon a offer closed => exact closed
  | drop a stage closed => exact closed
  | close => rfl
  | _ => exact h.dropped_closed hne

theorem Inv.step (h : l.Inv) (step : Step l l') : l'.Inv :=
  ⟨h.order_step step, h.handled_step step, h.passed_step step, h.kept_step step,
    h.dropped_step step⟩

end Steps

section Facts
variable {l : Lane α}

/-- Runs start in the order of arrival, without gaps. -/
theorem Inv.started_prefix (h : l.Inv) : l.started <+: l.arrived := by
  obtain ⟨rest, harrived, _⟩ := h.order
  exact ⟨l.stage.acceptedItems ++ rest, by rw [harrived, List.append_assoc]⟩

/-- An idle lane with nothing waiting has settled every arrival. -/
theorem Inv.settled (h : l.Inv) (stage : l.stage = .idle) (queue : l.queue = [])
    (offered : l.offered = none) : l.arrived.Perm (l.delivered ++ l.failed ++ l.dropped) := by
  simpa [stage, queue, offered, Stage.items] using h.kept

end Facts

end Lane

end LlingrDemux.Shared
