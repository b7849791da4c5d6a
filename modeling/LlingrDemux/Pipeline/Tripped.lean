import LlingrDemux.Pipeline.KeyOrder
import LlingrDemux.Pipeline.Load
import LlingrDemux.Pipeline.WorkerDrain

/-!
# After a trip of the circuit breaker

A shard's `done` flag is set once, after the trip, and then its workers skip what they receive.
Only a worker that had passed the test of the flag still calls `ProcessMessage`, once.
-/

namespace LlingrDemux.Pipeline

open Shared
set_option autoImplicit false

variable {T : Type} {cfg : Config} {c : Caller} {s s' : Demux T} {i : Nat}

namespace Demux

/-- A step leaves the flag of a shard alone or sets it, after the trip. -/
theorem Step.done (layout : Layout cfg s) (step : Step cfg c s s') (i : Nat) :
    (s'.shards i).done = (s.shards i).done ∨ s.tripped = true ∧ (s'.shards i).done = true := by
  cases step with
  | dispatch step =>
    left
    cases step with
    | poll | takeGuard | guardFull | takeGuardLate | takeOverflow | acquireTimeout | call | pipeline
    | stall | stallExit | stallRetry | missing | hand => rfl
    | deposit t => exact congrArg (fun sh => (sh i).done) (acquire_tokensOnly t).shards
    | settle t pc filled => exact congrArg (fun sh => (sh i).done) (release_tokensOnly t).shards
    | borrow w pc => exact (Keeps.borrowWorker layout (cfg.shardOf w.message.key) .dispatcher).done i
    | insert w id pc => exact (insert_mapOnly cfg w id i).done
  | work step =>
    left
    cases step with
    | work | resume => rfl
    | retire id => exact (retire_mapOnly id i).done
    | release id => exact congrArg (fun sh => (sh i).done) (release_tokensOnly _).shards
    | giveBack id made pc => exact (keeps_giveBack layout made pc).done i
  | pool step => exact .inl ((step.keeps layout).done i)
  | env step =>
    cases step with
    | trip | others => exact .inl rfl
    | observe j tripped =>
      by_cases hj : i = j
      · exact .inr ⟨tripped, by rw [setDone_shards]; simp [hj]⟩
      · exact .inl (by rw [setDone_shards]; simp [hj])
  | drain step => cases step <;> exact .inl rfl

/-- The breaker stays tripped. -/
theorem Step.tripped (step : Step cfg c s s') (h : s.tripped = true) : s'.tripped = true := by
  rcases step.failed with ⟨_, hkeep⟩ | htripped
  · exact hkeep h
  · exact htripped

/-- A shard sees a trip only after it. -/
theorem done_tripped (h : (demuxSystem T cfg c).Reachable s) :
    ∀ i, (s.shards i).done = true → s.tripped = true := by
  refine System.invariant (M := demuxSystem T cfg c)
    (P := fun s => ∀ i, (s.shards i).done = true → s.tripped = true) ?_ ?_ s h
  · intro s hs i hdone
    rw [show s = initial from hs] at hdone
    exact nomatch hdone
  · intro s s' hs hinv hstep i hdone
    apply Step.tripped hstep
    rcases Step.done (Placed.of_reachable hs).layout hstep i with hsame | ⟨htripped, _⟩
    · exact hinv i (hsame ▸ hdone)
    · exact htripped

end Demux

/-- The worker belongs to the shard and has passed the test of its flag with an item. -/
def Worker.cleared (i : Nat) (w : Worker T) : Nat :=
  match w.pc with
  | .cleared _ => if w.shard = i then 1 else 0
  | _ => 0

def Load.cleared (T : Type) (i : Nat) : Load T Nat where
  of := Worker.cleared i
  same w w' shard pc _ := by rw [Worker.cleared, Worker.cleared, pc, shard]
  rest w pc _ := by rw [Worker.cleared, pc]

/-- Workers without an item are not among them. -/
theorem Load.cleared_eq {w w' : Worker T} (pc' : w'.pc.item = none) (pc : w.pc.item = none) :
    (Load.cleared T i).of w' = (Load.cleared T i).of w := by
  have hzero : ∀ {v : Worker T}, v.pc.item = none → v.cleared i = 0 := by
    intro v hv
    cases hpc : v.pc with
    | cleared x =>
      rw [hpc] at hv
      exact nomatch hv
    | _ => rw [Worker.cleared, hpc]
  exact (hzero pc').trans (hzero pc).symm

def Event.started : Event T → Nat
  | .invoked _ => 1
  | .silent | .skipped _ | .finished _ _ | .triggered _ | .collected _ => 0

/-- Behind a flag that is set, every call of `ProcessMessage` uses up a cleared worker. -/
theorem WorkerStep.cleared {done : Bool} {w w' : Worker T} {e : Event T}
    (step : WorkerStep done w e w') (flag : w.shard = i → done = true) :
    w'.cleared i + (if w.shard = i then e.started else 0) ≤ w.cleared i := by
  cases step with
  | clear x pc live =>
    have hother : w.shard ≠ i := fun hi => nomatch live.symm.trans (flag hi)
    simp [Worker.cleared, hother]
  | invoke x pc => simp [Worker.cleared, Event.started, pc]
  | receive x rest pc | exit pc | receiveHot x rest pc | fallThrough pc | skip x pc
  | succeed x start duration pc | fail x r start duration pc | deadLetter x duration pc
  | deadLetterFail x duration pc | trigger x pc | commit x pc =>
    simp [Worker.cleared, Event.started]

namespace Demux

/-- The calls of `ProcessMessage` on keys of a shard. -/
def invokedOn (cfg : Config) (i : Nat) (s : Demux T) : Nat :=
  (s.log.invoked.filter fun a => cfg.shardOf a.key = i).length

/-- The calls made so far and those that can still be made. -/
def started (cfg : Config) (i : Nat) (s : Demux T) : Nat :=
  s.invokedOn cfg i + s.total (.cleared T i)

theorem started_congr (log : s'.log.invoked = s.log.invoked)
    (total : s'.total (.cleared T i) = s.total (.cleared T i)) :
    s'.started cfg i = s.started cfg i := by
  rw [started, started, invokedOn, invokedOn, log, total]

theorem DispatchStep.started (step : s.DispatchStep cfg c s') :
    s'.started cfg i = s.started cfg i := by
  cases step with
  | poll | takeGuard | guardFull | takeGuardLate | takeOverflow | acquireTimeout | call | stall
  | stallExit | stallRetry | missing => rfl
  | deposit t =>
    have hsame := acquire_tokensOnly (s := s) t
    exact started_congr (congrArg Log.invoked hsame.log) (total_tokensOnly hsame)
  | settle t =>
    have hsame := release_tokensOnly (s := s) t
    have htotal : (s.release t).total (.cleared T i) = s.total (.cleared T i) := total_tokensOnly hsame
    exact started_congr (congrArg Log.invoked hsame.log) htotal
  | pipeline w id => exact started_congr rfl (total_setWorker (f := .cleared T i) rfl)
  | hand w id => exact started_congr rfl (total_setWorker (f := .cleared T i) rfl)
  | borrow w pc =>
    have hpools := borrowWorker_poolsOnly (s := s) (cfg.shardOf w.message.key) .dispatcher
    exact started_congr (congrArg Log.invoked hpools.log) (total_borrowWorker _ _)
  | insert w id =>
    exact started_congr rfl
      (total_relabel (s := s.setEntry (cfg.shardOf w.message.key) w.message.key (some id)) rfl rfl rfl)

/-- An invoked item is of a key of the worker's shard. -/
theorem invokedOn_record (layout : Layout cfg s) {id : Nat} {e : Event T} {w : Worker T}
    (made : id < s.created)
    (step : WorkerStep (s.shards (s.workers id).shard).done (s.workers id) e w) :
    ((s.setWorker id w).record e).invokedOn cfg i =
      s.invokedOn cfg i + (if (s.workers id).shard = i then e.started else 0) := by
  cases step with
  | invoke x pc =>
    have hentry := layout.entry_of_item made (w := x) (by rw [pc]; rfl)
    have hshard := ((layout.mapped _ _ _).mp hentry).shard
    show ((s.log.invoked ++ [ident x]).filter fun a => cfg.shardOf a.key = i).length = _
    rw [List.filter_append, List.length_append, hshard]
    by_cases hi : cfg.shardOf x.message.key = i
    · simp [hi, ident, Event.started, invokedOn]
    · simp [hi, ident, invokedOn]
  | _ =>
    simp only [Event.started, ite_self, Nat.add_zero]
    rfl

theorem WorkStep.started (layout : Layout cfg s) (step : s.WorkStep cfg s')
    (flag : (s.shards i).done = true) : s'.started cfg i ≤ s.started cfg i := by
  cases step with
  | work id e w made step =>
    have hrecord := invokedOn_record (i := i) layout made step
    have hchange : (s.setWorker id w).total (.cleared T i) + (s.workers id).cleared i =
        s.total (.cleared T i) + w.cleared i := total_change made
    have hcleared := step.cleared (i := i) fun hi => hi ▸ flag
    show ((s.setWorker id w).record e).invokedOn cfg i + (s.setWorker id w).total (.cleared T i) ≤ _
    rw [hrecord, Demux.started]
    omega
  | resume id made pc =>
    refine le_of_eq (started_congr rfl (total_setWorker (f := .cleared T i) ?_))
    exact Load.cleared_eq rfl (by rw [pc]; rfl)
  | retire id made pc =>
    refine le_of_eq (started_congr rfl (total_retire (f := .cleared T i) ?_))
    exact Load.cleared_eq rfl (by rw [pc]; rfl)
  | release id made pc =>
    refine le_of_eq (started_congr (congrArg Log.invoked (release_tokensOnly _).log)
      (total_releaseWorker (f := .cleared T i) ?_))
    exact Load.cleared_eq rfl (by rw [pc]; rfl)
  | giveBack id made pc =>
    have hpools := giveBack_poolsOnly (s := s) cfg id
    refine le_of_eq (started_congr (congrArg Log.invoked hpools.log)
      (total_giveBack (f := .cleared T i) ?_))
    exact Load.cleared_eq rfl (by rw [pc]; rfl)

theorem Step.started (layout : Layout cfg s) (step : Step cfg c s s')
    (flag : (s.shards i).done = true) : s'.started cfg i ≤ s.started cfg i := by
  cases step with
  | dispatch step => exact le_of_eq step.started
  | work step => exact step.started layout flag
  | pool step =>
    exact le_of_eq (started_congr (congrArg Log.invoked step.poolsOnly.log) step.total)
  | env step => cases step <;> exact le_refl _
  | drain step => cases step <;> exact le_refl _

/-- Cleared workers hold a token. -/
theorem total_cleared_le (h : (demuxSystem T cfg c).Reachable s) :
    s.total (.cleared T i) ≤ s.activated := by
  have hle : s.total (.cleared T i) ≤ 1 * s.activated := by
    apply sum_le_mul_count
    intro id hid
    show Worker.cleared i (s.workers id) ≤ _
    have hqueued := queued_le h hid
    cases hpc : (s.workers id).pc with
    | cleared x =>
      rw [Worker.items_length, hpc] at hqueued
      rw [Worker.cleared, hpc]
      split at hqueued
      · rename_i hne
        rw [if_pos hne]
        dsimp only
        split <;> omega
      · exact absurd hqueued (by simp [WorkerPc.item])
    | _ =>
      rw [Worker.cleared, hpc]
      exact Nat.zero_le _
  omega

/-- Once a shard sees the trip, at most as many calls of `ProcessMessage` on its keys follow, in
any run, as it has workers that had passed the test before, and not more than there are tokens. -/
theorem invocations_after_trip (cfg : Config) (s s' : Demux T) (i : Nat)
    (h : (demuxSystem T cfg .process).Reachable s) (flag : (s.shards i).done = true)
    (run : (demuxSystem T cfg .process).Run s s') :
    s'.invokedOn cfg i ≤ s.invokedOn cfg i + s.total (.cleared T i) ∧
      s.total (.cleared T i) ≤ cfg.workerPoolSize := by
  have hrun := System.run_invariant (M := demuxSystem T cfg .process)
    (P := fun b => (b.shards i).done = true ∧ b.started cfg i ≤ s.started cfg i) h
    ⟨flag, le_refl _⟩ (fun a b ha hinv hstep => by
      have hlayout := (Placed.of_reachable ha).layout
      refine ⟨?_, (Step.started hlayout hstep hinv.1).trans hinv.2⟩
      rcases Step.done hlayout hstep i with hsame | ⟨_, hset⟩
      · exact hsame.trans hinv.1
      · exact hset) run
  have hactive := activated_le h
  have hcleared := total_cleared_le (i := i) h
  refine ⟨?_, by omega⟩
  have hle : s'.invokedOn cfg i ≤ s'.started cfg i := Nat.le_add_right _ _
  exact hle.trans hrun.2

/-- The trip becomes visible when the worker has passed the test: its item is still processed. -/
theorem invocations_after_trip_sample : ∃ s s' : Demux Unit,
    (demuxSystem Unit .small .process).Reachable s ∧ (s.shards 0).done = true ∧
      (demuxSystem Unit .small .process).Run s s' ∧ s.invokedOn .small 0 = 0 ∧
      s'.invokedOn .small 0 = 1 ∧ s'.invokedOn .small 0 ≤ 0 + s.total (.cleared Unit 0) := by
  have hclear := receivedA_reachable.step (.work (.work _ 0 _ _ (by decide) (.clear _ _ rfl rfl)))
  have htrip := hclear.step (.env (.trip _))
  have hdone := htrip.step (.env (.observe _ 0 rfl))
  have hthen : ∀ {s t : Demux Unit}, (demuxSystem Unit .small .process).Reachable s →
      (demuxSystem Unit .small .process).step s t → (demuxSystem Unit .small .process).Run s t :=
    fun _ hstep => .single hstep
  have hrun := hthen hdone (.work (.work _ 0 _ _ (by decide) (.invoke _ _ rfl)))
  exact ⟨_, _, hdone, rfl, hrun, rfl, rfl, (invocations_after_trip .small _ _ 0 hdone rfl hrun).1⟩

end Demux

end LlingrDemux.Pipeline
