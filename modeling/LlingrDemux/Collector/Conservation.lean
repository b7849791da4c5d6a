import LlingrDemux.Collector.Sink
import LlingrDemux.Shared.System
import Mathlib.Data.List.Count

/-!
# Every collected item is returned once

The metrics collector as a step system: any number of `Collect` calls, the collect loop with
its sink, and a `Stop` that begins after the last `Collect` has returned. An item is the loan
it is collected from, numbered by its `Collect` call; once it is returned the pool may lend the
same struct again, which is another loan. The log keeps every access to an item and every
return.
-/

namespace LlingrDemux.Collecting

open Shared
set_option autoImplicit false

/-- Where a `Collect` call stands: before its first select, before its second one, about to
return the item, and about to count the drop. -/
inductive CollectPc where
  | trying
  | yielded
  | dropping
  | counting
  deriving DecidableEq, Repr

structure CollectCall where
  item : Nat
  pc : CollectPc
  deriving DecidableEq, Repr

/-- Where the collect loop stands, with the item in its hands and its local `quit` flag. -/
inductive LoopPc where
  | selecting (quit : Bool)
  | received (item : Nat) (quit : Bool)
  | calling (item : Nat) (quit : Bool)
  | answered (item : Nat) (quit : Bool) (result : SinkResult)
  | returning (item : Nat) (quit : Bool) (panicked : Bool)
  | recovering (quit : Bool)
  | sent (quit : Bool)
  | quitting
  | exited
  deriving DecidableEq, Repr

inductive StopPc where
  | idle
  | closing
  | waiting
  | returned
  deriving DecidableEq, Repr

inductive Access where
  | touched (item : Nat)
  | returned (item : Nat)
  deriving DecidableEq, Repr

def Access.item : Access → Nat
  | .touched x | .returned x => x

/-- `calls` are the `Collect` calls in progress, `begun` counts all of them. -/
structure State where
  begun : Nat := 0
  calls : List CollectCall := []
  workItems : List Nat := []
  quit : Bool := false
  loop : LoopPc := .selecting false
  stop : StopPc := .idle
  collectedCount : Nat := 0
  droppedCount : Nat := 0
  sendFailedCount : Nat := 0
  log : List Access := []
  deriving DecidableEq, Repr

/-- The steps of the `Collect` calls. None begins once `Stop` has begun. -/
inductive CollectStep (bufferSize : Nat) : State → State → Prop where
  | begin (s : State) (idle : s.stop = .idle) :
      CollectStep bufferSize s
        { s with begun := s.begun + 1, calls := s.calls ++ [⟨s.begun, .trying⟩] }
  | send (s : State) (before after : List CollectCall) (x : Nat)
      (pc : s.calls = before ++ ⟨x, .trying⟩ :: after) (room : s.workItems.length < bufferSize) :
      CollectStep bufferSize s
        { s with
          calls := before ++ after
          workItems := s.workItems ++ [x]
          log := s.log ++ [.touched x] }
  | full (s : State) (before after : List CollectCall) (x : Nat)
      (pc : s.calls = before ++ ⟨x, .trying⟩ :: after) (full : ¬ s.workItems.length < bufferSize) :
      CollectStep bufferSize s { s with calls := before ++ ⟨x, .yielded⟩ :: after }
  | sendLate (s : State) (before after : List CollectCall) (x : Nat)
      (pc : s.calls = before ++ ⟨x, .yielded⟩ :: after) (room : s.workItems.length < bufferSize) :
      CollectStep bufferSize s
        { s with
          calls := before ++ after
          workItems := s.workItems ++ [x]
          log := s.log ++ [.touched x] }
  | fullAgain (s : State) (before after : List CollectCall) (x : Nat)
      (pc : s.calls = before ++ ⟨x, .yielded⟩ :: after)
      (full : ¬ s.workItems.length < bufferSize) :
      CollectStep bufferSize s { s with calls := before ++ ⟨x, .dropping⟩ :: after }
  | giveBack (s : State) (before after : List CollectCall) (x : Nat)
      (pc : s.calls = before ++ ⟨x, .dropping⟩ :: after) :
      CollectStep bufferSize s
        { s with
          calls := before ++ ⟨x, .counting⟩ :: after
          log := s.log ++ [.touched x, .returned x] }
  | countDrop (s : State) (before after : List CollectCall) (x : Nat)
      (pc : s.calls = before ++ ⟨x, .counting⟩ :: after) :
      CollectStep bufferSize s
        { s with calls := before ++ after, droppedCount := s.droppedCount + 1 }

/-- The steps of `startCollectLoop` and, inside it, of `sendToMetricsSink`. -/
inductive LoopStep : State → State → Prop where
  | receive (s : State) (x : Nat) (rest : List Nat) (q : Bool) (pc : s.loop = .selecting q)
      (queue : s.workItems = x :: rest) :
      LoopStep s { s with workItems := rest, loop := .received x q }
  | complete (s : State) (x : Nat) (q : Bool) (pc : s.loop = .received x q) :
      LoopStep s { s with loop := .calling x q, log := s.log ++ [.touched x] }
  | call (s : State) (x : Nat) (q : Bool) (r : SinkResult) (pc : s.loop = .calling x q) :
      LoopStep s { s with loop := .answered x q r, log := s.log ++ [.touched x] }
  | countCollected (s : State) (x : Nat) (q : Bool) (pc : s.loop = .answered x q .ok) :
      LoopStep s
        { s with loop := .returning x q false, collectedCount := s.collectedCount + 1 }
  | countFailed (s : State) (x : Nat) (q : Bool) (pc : s.loop = .answered x q .error) :
      LoopStep s
        { s with loop := .returning x q false, sendFailedCount := s.sendFailedCount + 1 }
  | unwind (s : State) (x : Nat) (q : Bool) (pc : s.loop = .answered x q .panicked) :
      LoopStep s { s with loop := .returning x q true }
  | giveBack (s : State) (x : Nat) (q p : Bool) (pc : s.loop = .returning x q p) :
      LoopStep s
        { s with
          loop := if p then .recovering q else .sent q
          log := s.log ++ [.touched x, .returned x] }
  | recover (s : State) (q : Bool) (pc : s.loop = .recovering q) :
      LoopStep s { s with loop := .sent q, sendFailedCount := s.sendFailedCount + 1 }
  | again (s : State) (q : Bool) (pc : s.loop = .sent q)
      (more : ¬ (q = true ∧ s.workItems.length = 0)) :
      LoopStep s { s with loop := .selecting q }
  | leave (s : State) (pc : s.loop = .sent true) (empty : s.workItems.length = 0) :
      LoopStep s { s with loop := .exited }
  | quit (s : State) (q : Bool) (pc : s.loop = .selecting q) (closed : s.quit = true) :
      LoopStep s { s with loop := .quitting }
  | quitAgain (s : State) (pc : s.loop = .quitting) (more : ¬ s.workItems.length = 0) :
      LoopStep s { s with loop := .selecting true }
  | quitLeave (s : State) (pc : s.loop = .quitting) (empty : s.workItems.length = 0) :
      LoopStep s { s with loop := .exited }

/-- The steps of `Stop`, which begins when every `Collect` call has returned. -/
inductive StopStep : State → State → Prop where
  | begin (s : State) (pc : s.stop = .idle) (last : s.calls = []) :
      StopStep s { s with stop := .closing }
  | close (s : State) (pc : s.stop = .closing) :
      StopStep s { s with stop := .waiting, quit := true }
  | return_ (s : State) (pc : s.stop = .waiting) (done : s.loop = .exited) :
      StopStep s { s with stop := .returned }

inductive Step (bufferSize : Nat) (s s' : State) : Prop where
  | collect (step : CollectStep bufferSize s s')
  | loop (step : LoopStep s s')
  | stop (step : StopStep s s')

def collectorSystem (bufferSize : Nat) : System State where
  init s := s = {}
  step := Step bufferSize

namespace LoopPc

@[simp] def item : LoopPc → Option Nat
  | received x _ | calling x _ | answered x _ _ | returning x _ _ => some x
  | selecting _ | recovering _ | sent _ | quitting | exited => none

/-- An item that the loop has taken and no counter has counted yet. -/
@[simp] def uncounted : LoopPc → Nat
  | received _ _ | calling _ _ | answered _ _ _ | returning _ _ true | recovering _ => 1
  | returning _ _ false | selecting _ | sent _ | quitting | exited => 0

/-- The loop has seen the quit channel closed. -/
@[simp] def flagged : LoopPc → Bool
  | selecting q | received _ q | calling _ q | answered _ q _ | returning _ q _ | recovering q
  | sent q => q
  | quitting | exited => true

end LoopPc

/-- The call still has to pass the item on or to return it. -/
def CollectCall.holds (x : Nat) (c : CollectCall) : Bool := c.item == x && c.pc != .counting

/-- In how many hands the item `x` is: a `Collect` call's, the channel's, the loop's or the
pool's. -/
def holders (s : State) (x : Nat) : Nat :=
  s.calls.countP (CollectCall.holds x) + s.workItems.count x +
    (if s.loop.item = some x then 1 else 0) + s.log.count (.returned x)

structure Tracked (s : State) : Prop where
  once : ∀ x, holders s x = if x < s.begun then 1 else 0
  untouched : s.log.Pairwise fun a b => a ≠ .returned b.item
  balance : s.collectedCount + s.droppedCount + s.sendFailedCount + s.calls.length +
    s.workItems.length + s.loop.uncounted = s.begun
  stopped : s.stop ≠ .idle → s.calls = []
  closed : s.quit = true ↔ s.stop = .waiting ∨ s.stop = .returned
  flagged : s.loop.flagged = true → s.quit = true
  drained : s.loop = .exited → s.workItems = []
  waited : s.stop = .returned → s.loop = .exited

theorem pairwise_touch {log : List Access} {x : Nat}
    (h : log.Pairwise fun a b => a ≠ .returned b.item) (kept : log.count (.returned x) = 0)
    {tail : List Access} (tail_item : ∀ a ∈ tail, a.item = x)
    (tail_ok : tail.Pairwise fun a b => a ≠ .returned b.item) :
    (log ++ tail).Pairwise fun a b => a ≠ .returned b.item := by
  refine List.pairwise_append.mpr ⟨h, tail_ok, ?_⟩
  intro a ha b hb he
  rw [tail_item b hb] at he
  exact List.count_eq_zero.mp kept (he ▸ ha)

namespace Tracked
variable {s s' : State} {bufferSize : Nat}

theorem initial : Tracked {} where
  once _ := rfl
  untouched := List.Pairwise.nil
  balance := rfl
  stopped _ := rfl
  closed := by decide
  flagged h := Bool.noConfusion h
  drained _ := rfl
  waited h := StopPc.noConfusion h

theorem holders_le_one (h : Tracked s) (x : Nat) : holders s x ≤ 1 := by
  rw [h.once x]
  split <;> omega

/-- What is in somebody else's hands has not been returned. -/
theorem not_returned_of_call (h : Tracked s) {c : CollectCall} (hc : c ∈ s.calls)
    (pc : c.pc ≠ .counting) : s.log.count (.returned c.item) = 0 := by
  have hpos : 0 < s.calls.countP (CollectCall.holds c.item) :=
    List.countP_pos_iff.mpr ⟨c, hc, by simp [CollectCall.holds, pc]⟩
  have hle := h.holders_le_one c.item
  unfold holders at hle
  omega

theorem not_returned_of_loop (h : Tracked s) {x : Nat} (hx : s.loop.item = some x) :
    s.log.count (.returned x) = 0 := by
  have hle := h.holders_le_one x
  unfold holders at hle
  rw [if_pos hx] at hle
  omega

/-- While `Collect` calls are in progress nothing has been stopped. -/
theorem running (h : Tracked s) {c : CollectCall} (hc : c ∈ s.calls) :
    s.stop = .idle ∧ s.loop ≠ .exited := by
  have hidle : s.stop = .idle := by
    by_contra hne
    rw [h.stopped hne] at hc
    cases hc
  refine ⟨hidle, ?_⟩
  intro hexit
  have hquit := h.closed.mp (h.flagged (by rw [hexit]; rfl))
  simp [hidle] at hquit

/-- A call passes its item to the channel. -/
theorem send (h : Tracked s) {before after : List CollectCall} {x : Nat} {pc : CollectPc}
    (calls : s.calls = before ++ ⟨x, pc⟩ :: after) (holding : pc ≠ .counting) :
    Tracked { s with
      calls := before ++ after
      workItems := s.workItems ++ [x]
      log := s.log ++ [.touched x] } := by
  have hmem : (⟨x, pc⟩ : CollectCall) ∈ s.calls := by simp [calls]
  obtain ⟨hidle, hrunning⟩ := h.running hmem
  refine ⟨?_, ?_, ?_, fun hne => absurd hidle hne, h.closed, h.flagged,
    fun hexit => absurd hexit hrunning, h.waited⟩
  · intro y
    rw [← h.once y]
    simp only [holders, calls, List.countP_append, List.countP_cons, List.count_append,
      List.count_cons, List.count_nil, CollectCall.holds]
    grind
  · exact pairwise_touch h.untouched (h.not_returned_of_call hmem holding) (by simp [Access.item])
      (List.pairwise_singleton _ _)
  · have := h.balance
    simp only [calls, List.length_append, List.length_cons, List.length_nil] at this ⊢
    omega

/-- A call goes on with its item. -/
theorem retry (h : Tracked s) {before after : List CollectCall} {x : Nat} {pc pc' : CollectPc}
    (calls : s.calls = before ++ ⟨x, pc⟩ :: after) (holding : pc ≠ .counting)
    (holding' : pc' ≠ .counting) :
    Tracked { s with calls := before ++ ⟨x, pc'⟩ :: after } := by
  have hmem : (⟨x, pc⟩ : CollectCall) ∈ s.calls := by simp [calls]
  refine ⟨?_, h.untouched, ?_, fun hne => absurd (h.running hmem).1 hne, h.closed, h.flagged,
    h.drained, h.waited⟩
  · intro y
    rw [← h.once y]
    simp only [holders, calls, List.countP_append, List.countP_cons, CollectCall.holds]
    grind
  · have := h.balance
    simp only [calls, List.length_append, List.length_cons] at this ⊢
    omega

theorem collectStep (h : Tracked s) (step : CollectStep bufferSize s s') : Tracked s' := by
  cases step with
  | begin idle =>
    refine ⟨?_, h.untouched, ?_, ?_, h.closed, h.flagged, h.drained, h.waited⟩
    · intro x
      have honce := h.once x
      simp only [holders, List.countP_append, List.countP_cons, List.countP_nil,
        CollectCall.holds] at honce ⊢
      grind
    · have := h.balance
      simp only [List.length_append, List.length_singleton]
      omega
    · exact fun hne => absurd idle hne
  | send before after x pc room => exact h.send pc (by decide)
  | full before after x pc full => exact h.retry pc (by decide) (by decide)
  | sendLate before after x pc room => exact h.send pc (by decide)
  | fullAgain before after x pc full => exact h.retry pc (by decide) (by decide)
  | giveBack before after x pc =>
    have hmem : (⟨x, .dropping⟩ : CollectCall) ∈ s.calls := by simp [pc]
    refine ⟨?_, ?_, ?_, fun hne => absurd (h.running hmem).1 hne, h.closed, h.flagged,
      h.drained, h.waited⟩
    · intro y
      rw [← h.once y]
      simp only [holders, pc, List.countP_append, List.countP_cons, List.count_append,
        List.count_cons, List.count_nil, CollectCall.holds]
      grind
    · exact pairwise_touch h.untouched (h.not_returned_of_call hmem (by simp))
        (by simp [Access.item]) (by simp)
    · have := h.balance
      simp only [pc, List.length_append, List.length_cons] at this ⊢
      omega
  | countDrop before after x pc =>
    have hmem : (⟨x, .counting⟩ : CollectCall) ∈ s.calls := by simp [pc]
    refine ⟨?_, h.untouched, ?_, fun hne => absurd (h.running hmem).1 hne, h.closed, h.flagged,
      h.drained, h.waited⟩
    · intro y
      rw [← h.once y]
      simp only [holders, pc, List.countP_append, List.countP_cons, CollectCall.holds]
      grind
    · have := h.balance
      simp only [pc, List.length_append, List.length_cons] at this ⊢
      omega

/-- The loop goes on with the item it has, or without one. -/
theorem advance (h : Tracked s) {pc : LoopPc} {collected failed : Nat}
    (running : s.loop ≠ .exited) (item : pc.item = s.loop.item)
    (counted : collected + failed + pc.uncounted =
      s.collectedCount + s.sendFailedCount + s.loop.uncounted)
    (flagged : pc.flagged = true → s.quit = true) (exits : pc = .exited → s.workItems = []) :
    Tracked { s with loop := pc, collectedCount := collected, sendFailedCount := failed } := by
  refine ⟨?_, h.untouched, ?_, h.stopped, h.closed, flagged, exits, ?_⟩
  · intro y
    rw [← h.once y]
    simp only [holders, item]
  · have hbalance := h.balance
    simp only
    omega
  · exact fun hstop => absurd (h.waited hstop) running

/-- The loop reads or writes the item in its hands. -/
theorem touch (h : Tracked s) {x : Nat} (item : s.loop.item = some x) :
    Tracked { s with log := s.log ++ [.touched x] } := by
  refine ⟨?_, ?_, h.balance, h.stopped, h.closed, h.flagged, h.drained, h.waited⟩
  · intro y
    rw [← h.once y]
    simp [holders]
  · exact pairwise_touch h.untouched (h.not_returned_of_loop item) (by simp [Access.item])
      (List.pairwise_singleton _ _)

theorem receive (h : Tracked s) {x : Nat} {rest : List Nat} {q : Bool}
    (pc : s.loop = .selecting q) (queue : s.workItems = x :: rest) :
    Tracked { s with workItems := rest, loop := .received x q } := by
  refine ⟨?_, h.untouched, ?_, h.stopped, h.closed, ?_, ?_, ?_⟩
  · intro y
    rw [← h.once y]
    simp only [holders, pc, queue, LoopPc.item, List.count_cons]
    grind
  · have hbalance := h.balance
    simp only [pc, queue, LoopPc.uncounted, List.length_cons] at hbalance ⊢
    omega
  · intro hf
    apply h.flagged
    rw [pc]
    exact hf
  · intro hexit
    cases hexit
  · intro hstop
    rw [h.waited hstop] at pc
    cases pc

theorem giveBack (h : Tracked s) {x : Nat} {q p : Bool} (pc : s.loop = .returning x q p) :
    Tracked { s with
      loop := if p then .recovering q else .sent q
      log := s.log ++ [.touched x, .returned x] } := by
  have hitem : s.loop.item = some x := by rw [pc]; rfl
  refine ⟨?_, ?_, ?_, h.stopped, h.closed, ?_, ?_, ?_⟩
  · intro y
    have hnone : (if p then LoopPc.recovering q else .sent q).item = none := by cases p <;> rfl
    rw [← h.once y]
    simp only [holders, hitem, hnone, List.count_append, List.count_cons, List.count_nil]
    grind
  · exact pairwise_touch h.untouched (h.not_returned_of_loop hitem) (by simp [Access.item])
      (by simp)
  · have hbalance := h.balance
    rw [pc] at hbalance
    cases p <;> exact hbalance
  · intro hf
    apply h.flagged
    rw [pc]
    cases p <;> exact hf
  · intro hexit
    cases p <;> cases hexit
  · intro hstop
    rw [h.waited hstop] at pc
    cases pc

theorem loopStep (h : Tracked s) (step : LoopStep s s') : Tracked s' := by
  have hflagged := h.flagged
  cases step with
  | receive x rest q pc queue => exact h.receive pc queue
  | complete x q pc | call x q r pc =>
    have htouch := h.touch (x := x) (by simp [pc])
    exact htouch.advance (by simp [pc]) (by simp [pc]) (by simp [pc]) (by simpa [pc] using hflagged)
      (by simp)
  | countCollected x q pc | countFailed x q pc | recover q pc =>
    refine h.advance (by simp [pc]) (by simp [pc]) ?_ (by simpa [pc] using hflagged) (by simp)
    simp only [pc, LoopPc.uncounted]
    omega
  | unwind x q pc | again q pc | quitAgain pc =>
    exact h.advance (by simp [pc]) (by simp [pc]) (by simp [pc]) (by simpa [pc] using hflagged)
      (by simp)
  | leave pc empty | quitLeave pc empty =>
    exact h.advance (by simp [pc]) (by simp [pc]) (by simp [pc]) (by simpa [pc] using hflagged)
      fun _ => List.length_eq_zero_iff.mp empty
  | quit q pc closed =>
    exact h.advance (by simp [pc]) (by simp [pc]) (by simp [pc]) (fun _ => closed) (by simp)
  | giveBack x q p pc => exact h.giveBack pc

theorem stopStep (h : Tracked s) (step : StopStep s s') : Tracked s' := by
  have hclosed := h.closed
  cases step with
  | begin pc last =>
    exact ⟨h.once, h.untouched, h.balance, fun _ => last, by simpa [pc] using hclosed, h.flagged,
      h.drained, by simp⟩
  | close pc =>
    exact ⟨h.once, h.untouched, h.balance, fun _ => h.stopped (by simp [pc]), by simp,
      fun _ => rfl, h.drained, by simp⟩
  | return_ pc done =>
    exact ⟨h.once, h.untouched, h.balance, fun _ => h.stopped (by simp [pc]),
      by simpa [pc] using hclosed, h.flagged, h.drained, fun _ => done⟩

theorem of_reachable (hr : (collectorSystem bufferSize).Reachable s) : Tracked s := by
  refine System.invariant (P := Tracked) ?_ ?_ s hr
  · intro s hs
    rw [show s = {} from hs]
    exact initial
  · intro s s' _ hs hstep
    cases hstep with
    | collect step => exact hs.collectStep step
    | loop step => exact hs.loopStep step
    | stop step => exact hs.stopStep step

end Tracked

/-! ## `Stop` comes back -/

/-- How far the loop is from its end once the quit channel is closed, if it takes an item
whenever there is one. -/
def remaining (s : State) : Nat :=
  10 * s.workItems.length + match s.loop with
    | .received _ _ => 8
    | .calling _ _ => 7
    | .answered _ _ _ => 6
    | .returning _ _ _ => 5
    | .recovering _ => 4
    | .sent _ => 3
    | .selecting _ => 2
    | .quitting => if s.workItems.length = 0 then 1 else 3
    | .exited => 0

theorem loop_progress {s : State} (closed : s.quit = true) (running : s.loop ≠ .exited) :
    ∃ s', LoopStep s s' ∧ remaining s' < remaining s ∧ s'.quit = s.quit ∧ s'.stop = s.stop := by
  cases hpc : s.loop with
  | selecting q =>
    cases hqueue : s.workItems with
    | nil =>
      refine ⟨_, .quit s q hpc closed, ?_, rfl, rfl⟩
      simp [remaining, hpc, hqueue]
    | cons x rest =>
      refine ⟨_, .receive s x rest q hpc hqueue, ?_, rfl, rfl⟩
      simp only [remaining, hpc, hqueue, List.length_cons]
      omega
  | received x q => exact ⟨_, .complete s x q hpc, by simp [remaining, hpc], rfl, rfl⟩
  | calling x q => exact ⟨_, .call s x q .ok hpc, by simp [remaining, hpc], rfl, rfl⟩
  | answered x q r =>
    cases r with
    | ok => exact ⟨_, .countCollected s x q hpc, by simp [remaining, hpc], rfl, rfl⟩
    | error => exact ⟨_, .countFailed s x q hpc, by simp [remaining, hpc], rfl, rfl⟩
    | panicked => exact ⟨_, .unwind s x q hpc, by simp [remaining, hpc], rfl, rfl⟩
  | returning x q p =>
    refine ⟨_, .giveBack s x q p hpc, ?_, rfl, rfl⟩
    cases p <;> simp [remaining, hpc]
  | recovering q => exact ⟨_, .recover s q hpc, by simp [remaining, hpc], rfl, rfl⟩
  | sent q =>
    by_cases hlast : q = true ∧ s.workItems.length = 0
    · obtain ⟨rfl, hempty⟩ := hlast
      exact ⟨_, .leave s hpc hempty, by simp [remaining, hpc], rfl, rfl⟩
    · exact ⟨_, .again s q hpc hlast, by simp [remaining, hpc], rfl, rfl⟩
  | quitting =>
    by_cases hempty : s.workItems.length = 0
    · exact ⟨_, .quitLeave s hpc hempty, by simp [remaining, hpc, hempty], rfl, rfl⟩
    · exact ⟨_, .quitAgain s hpc hempty, by simp [remaining, hpc, hempty], rfl, rfl⟩
  | exited => exact absurd hpc running

theorem loop_ends (bufferSize : Nat) {s : State} (closed : s.quit = true) :
    ∃ s', (collectorSystem bufferSize).Run s s' ∧ s'.loop = .exited ∧ s'.stop = s.stop := by
  induction hn : remaining s using Nat.strongRecOn generalizing s with
  | _ n ih =>
    by_cases hexit : s.loop = .exited
    · exact ⟨s, .refl, hexit, rfl⟩
    · obtain ⟨t, hstep, hlt, hquit, hstop⟩ := loop_progress closed hexit
      obtain ⟨u, hrun, hdone, hsame⟩ := ih _ (hn ▸ hlt) (hquit.trans closed) rfl
      exact ⟨u, .head (.loop hstep) hrun, hdone, hsame.trans hstop⟩

theorem waiting_returns (bufferSize : Nat) {s : State} (waiting : s.stop = .waiting)
    (closed : s.quit = true) :
    ∃ s', (collectorSystem bufferSize).Run s s' ∧ s'.stop = .returned := by
  obtain ⟨t, hrun, hdone, hstop⟩ := loop_ends bufferSize closed
  exact ⟨_, hrun.tail (.stop (.return_ t (hstop.trans waiting) hdone)), rfl⟩

/-- Whatever has happened since `Stop` began, it can still come back. -/
theorem Tracked.stop_returns {bufferSize : Nat} {s : State} (h : Tracked s)
    (begun : s.stop ≠ .idle) :
    ∃ s', (collectorSystem bufferSize).Run s s' ∧ s'.stop = .returned := by
  cases hpc : s.stop with
  | idle => exact absurd hpc begun
  | closing =>
    obtain ⟨t, hrun, hdone⟩ := waiting_returns bufferSize
      (s := { s with stop := .waiting, quit := true }) rfl rfl
    exact ⟨t, .head (.stop (.close s hpc)) hrun, hdone⟩
  | waiting => exact waiting_returns bufferSize hpc (h.closed.mpr (.inl hpc))
  | returned => exact ⟨s, .refl, hpc⟩

/-- No item is returned twice or touched after its return, and once `Stop` is back nothing is
left: every item has been returned and counted. -/
structure Conserved (s : State) : Prop where
  once : ∀ x, s.log.count (.returned x) ≤ 1
  untouched : s.log.Pairwise fun a b => a ≠ .returned b.item
  complete : s.stop = .returned →
    (∀ x < s.begun, s.log.count (.returned x) = 1) ∧ s.workItems = [] ∧
      s.collectedCount + s.droppedCount + s.sendFailedCount = s.begun

theorem Tracked.conserved {s : State} (h : Tracked s) : Conserved s where
  once x := by
    have hle := h.holders_le_one x
    unfold holders at hle
    omega
  untouched := h.untouched
  complete := by
    intro hstop
    have hexit := h.waited hstop
    have hcalls := h.stopped (by simp [hstop])
    have hempty := h.drained hexit
    refine ⟨?_, hempty, ?_⟩
    · intro x hx
      have honce := h.once x
      simpa [holders, hcalls, hempty, hexit, hx] using honce
    · have hbalance := h.balance
      simpa [hcalls, hempty, hexit] using hbalance

/-- In every interleaving of `Collect` calls, the collect loop and a `Stop` after the last of
them, with a sink that succeeds, fails or panics as it likes. -/
theorem collector_conserves {bufferSize : Nat} {s : State}
    (hr : (collectorSystem bufferSize).Reachable s) :
    Conserved s ∧ (s.stop ≠ .idle →
      ∃ s', (collectorSystem bufferSize).Run s s' ∧ s'.stop = .returned) := by
  have htracked := Tracked.of_reachable hr
  exact ⟨htracked.conserved, htracked.stop_returns⟩

/-- A channel of one: the sink panics on the first item and the second one is dropped. -/
def stoppedState : State where
  begun := 2
  quit := true
  loop := .exited
  stop := .returned
  droppedCount := 1
  sendFailedCount := 1
  log := [.touched 0, .touched 1, .returned 1, .touched 0, .touched 0, .touched 0, .returned 0]

theorem stoppedState_reachable : (collectorSystem 1).Reachable stoppedState := by
  have h0 : (collectorSystem 1).Reachable {} := .init rfl
  have hfirst := h0.step (.collect (.begin _ rfl))
  have hsecond := hfirst.step (.collect (.begin _ rfl))
  have hsend := hsecond.step (.collect (.send _ [] [⟨1, .trying⟩] 0 rfl (by decide)))
  have hfull := hsend.step (.collect (.full _ [] [] 1 rfl (by decide)))
  have hagain := hfull.step (.collect (.fullAgain _ [] [] 1 rfl (by decide)))
  have hdrop := hagain.step (.collect (.giveBack _ [] [] 1 rfl))
  have hcount := hdrop.step (.collect (.countDrop _ [] [] 1 rfl))
  have hreceive := hcount.step (.loop (.receive _ 0 [] false rfl rfl))
  have hcomplete := hreceive.step (.loop (.complete _ 0 false rfl))
  have hcall := hcomplete.step (.loop (.call _ 0 false .panicked rfl))
  have hunwind := hcall.step (.loop (.unwind _ 0 false rfl))
  have hback := hunwind.step (.loop (.giveBack _ 0 false true rfl))
  have hrecover := hback.step (.loop (.recover _ false rfl))
  have hselect := hrecover.step (.loop (.again _ false rfl (by decide)))
  have hstop := hselect.step (.stop (.begin _ rfl rfl))
  have hclose := hstop.step (.stop (.close _ rfl))
  have hquit := hclose.step (.loop (.quit _ false rfl rfl))
  have hleave := hquit.step (.loop (.quitLeave _ rfl rfl))
  exact hleave.step (.stop (.return_ _ rfl rfl))

theorem collector_conserves_stopped :
    stoppedState.stop = .returned ∧ stoppedState.begun = 2 ∧ Conserved stoppedState :=
  ⟨rfl, rfl, (collector_conserves stoppedState_reachable).1⟩

end LlingrDemux.Collecting
