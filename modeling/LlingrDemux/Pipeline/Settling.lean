import LlingrDemux.Pipeline.Load
import LlingrDemux.Pipeline.WorkerDrain

/-!
# What is dispatched gets settled

The steps of the workers and of the dispatcher without a new poll lower a rank, so that there
are only so many of them; only the send that finds a channel full and tries again leaves it as it
is. As long as a worker or the dispatcher has something to do, one of the steps that lower the rank
is possible, at once or with the next try. So the pipeline comes to rest by itself unless it is
the retry alone that gets to run, with every token back and every item settled, and then a waiting
`DrainWorkers` call returns.
-/

namespace LlingrDemux.Pipeline

open Shared
set_option autoImplicit false

variable {T : Type} {cfg : Config} {s s' : Demux T}

/-- The dispatcher goes on with the item it has: it polls no further one, does not give up
waiting for a token and does not find a channel full. -/
def DispatcherPc.Onward : DispatcherPc T → DispatcherPc T → Prop
  | .idle, _ => False
  | .waiting _, .idle => False
  | .locking _, .stalled _ => False
  | _, _ => True

/-- The dispatcher has found the channel of the key's worker full, or tries again. -/
def DispatcherPc.Retries : DispatcherPc T → DispatcherPc T → Prop
  | .locking _, .stalled _ => True
  | .stalled _, .locking _ => True
  | _, _ => False

namespace Demux

/-- A step of the dispatcher that goes on with the item it has, or of a worker whose goroutine
does not end. -/
inductive Move (cfg : Config) (s s' : Demux T) : Prop where
  | dispatch (step : s.DispatchStep cfg .process s') (called : s.dispatcher ≠ .idle)
  | work (step : s.WorkStep cfg s')
      (stays : ∀ id, (s'.workers id).pc = .exited → (s.workers id).pc = .exited)

/-- A round of the send that finds the channel full. -/
structure Retry (cfg : Config) (s s' : Demux T) : Prop where
  step : s.DispatchStep cfg .process s'
  retries : s.dispatcher.Retries s'.dispatcher

structure Progress (cfg : Config) (s s' : Demux T) : Prop where
  move : s.Move cfg s'
  onward : ¬ s.dispatcher.Retries s'.dispatcher

/-- A step of the dispatcher or of a worker on the way to rest; `calm` leaves out the stall
timeout and `stays` the end of a stopped worker's goroutine. -/
inductive Advance (cfg : Config) (s s' : Demux T) : Prop where
  | dispatch (step : s.DispatchStep cfg .process s') (onward : s.dispatcher.Onward s'.dispatcher)
      (calm : s'.tripped = s.tripped)
  | work (step : s.WorkStep cfg s')
      (stays : ∀ id, (s'.workers id).pc = .exited → (s.workers id).pc = .exited)

theorem Advance.step (h : s.Advance cfg s') : Step cfg .process s s' := by
  cases h with
  | dispatch step => exact .dispatch step
  | work step => exact .work step

theorem Move.step (h : s.Move cfg s') : Step cfg .process s s' := by
  cases h with
  | dispatch step => exact .dispatch step
  | work step => exact .work step

theorem Retry.move (h : s.Retry cfg s') : s.Move cfg s' := by
  refine .dispatch h.step ?_
  intro hidle
  have hretries := h.retries
  rw [hidle] at hretries
  exact hretries

theorem Advance.move (h : s.Advance cfg s') : s.Move cfg s' := by
  cases h with
  | dispatch step onward calm =>
    refine .dispatch step ?_
    intro hidle
    rw [hidle] at onward
    exact onward
  | work step stays => exact .work step stays

end Demux

/-! ## The rank -/

/-- The steps a worker has before it at most, with so many items in its channel. An item
that arrives at an emptied worker sends it back to the hot loop. -/
def WorkerPc.rank (queued : Nat) : WorkerPc T → Nat
  | .cold | .exited => 0
  | .returning => 1
  | .releasing => 2
  | .emptied => if queued = 0 then 3 else 5
  | .hot => 4
  | .committing _ | .triggering _ => 5
  | .deadLettering _ => 6
  | .processing _ => 7
  | .cleared _ => 8
  | .received _ => 9

def Worker.rank (w : Worker T) : Nat := 10 * w.workItems.length + w.pc.rank w.workItems.length

theorem Worker.rank_eq {w w' : Worker T} (pc : w'.pc = w.pc) (queue : w'.workItems = w.workItems) :
    w'.rank = w.rank := by
  rw [rank, rank, pc, queue]

def Load.rank : Load T Nat where
  of := Worker.rank
  same _ _ _ pc queue := Worker.rank_eq pc queue
  rest w pc queue := by rw [Worker.rank, pc, queue]; rfl

/-- A worker that gets an item. -/
theorem Worker.rank_feed (w : Worker T) (x : WorkItem T) :
    Worker.rank { w with workItems := w.workItems ++ [x] } ≤ w.rank + 12 := by
  have hpc : w.pc.rank (w.workItems.length + 1) ≤ w.pc.rank w.workItems.length + 2 := by
    cases w.pc with
    | emptied =>
      rw [WorkerPc.rank, WorkerPc.rank]
      split <;> split <;> omega
    | _ => exact Nat.le_add_right _ _
  simp only [Worker.rank, List.length_append, List.length_singleton]
  omega

theorem WorkerStep.rank {done : Bool} {w w' : Worker T} {e : Event T}
    (step : WorkerStep done w e w') (stays : w'.pc ≠ .exited) : w'.rank < w.rank := by
  cases step with
  | exit pc closed => exact absurd rfl stays
  | receive x rest pc queue | receiveHot x rest pc queue =>
    simp only [Worker.rank, WorkerPc.rank, pc, queue, List.length_cons]
    omega
  | fallThrough pc queue =>
    simp [Worker.rank, WorkerPc.rank, pc, queue]
  | skip x pc | clear x pc | invoke x pc | succeed x start duration pc
  | fail x r start duration pc | deadLetter x duration pc | deadLetterFail x duration pc
  | trigger x pc | commit x pc =>
    simp only [Worker.rank, WorkerPc.rank, pc]
    omega

/-- A send puts an item into a channel at most once, and the dispatcher's own steps come
on top. A send that stalls comes back to the lock. -/
def DispatcherPc.rank : DispatcherPc T → Nat
  | .idle => 0
  | .settling _ => 1
  | .handing _ _ => 13
  | .inserting _ _ => 14
  | .borrowing _ => 15
  | .locking _ | .stalled _ => 16
  | .waiting _ => 17
  | .acquiring _ => 18

def DispatcherPc.stalls : DispatcherPc T → Nat
  | .stalled _ => 1
  | .idle | .settling _ | .handing _ _ | .inserting _ _ | .borrowing _ | .locking _ | .waiting _
  | .acquiring _ => 0

theorem DispatcherPc.stalls_of_retries {pc pc' : DispatcherPc T} (retries : pc.Retries pc')
    (onward : pc.Onward pc') : pc'.stalls < pc.stalls := by
  cases pc with
  | locking w =>
    cases pc' with
    | stalled w' => exact onward.elim
    | _ => exact retries.elim
  | stalled w =>
    cases pc' with
    | locking w' => exact Nat.zero_lt_one
    | _ => exact retries.elim
  | _ => exact retries.elim

namespace Demux

def rank (s : Demux T) : Nat := s.total .rank + s.dispatcher.rank

theorem total_rank_feed {id : Nat} (made : id < s.created) (x : WorkItem T) :
    (s.setWorker id { s.workers id with
      workItems := (s.workers id).workItems ++ [x] }).total .rank ≤ s.total .rank + 12 := by
  have hchange := total_change (f := .rank) (s := s)
    (w := { s.workers id with workItems := (s.workers id).workItems ++ [x] }) made
  have hfed : Load.rank.of { s.workers id with workItems := (s.workers id).workItems ++ [x] } ≤
      Load.rank.of (s.workers id) + 12 := (s.workers id).rank_feed x
  omega

/-- The dispatcher moves on and the workers' total does not change. -/
theorem rank_lt_of_dispatcher {pc : DispatcherPc T} (total : s'.total .rank = s.total .rank)
    (before : s.dispatcher = pc) (lower : s'.dispatcher.rank.blt pc.rank = true) :
    s'.rank < s.rank := by
  have hlower := Nat.le_of_ble_eq_true lower
  rw [rank, rank, total, before]
  omega

/-- Finding the channel full and trying again keep the rank. -/
theorem Retry.rank (h : s.Retry cfg s') : s'.rank = s.rank := by
  obtain ⟨step, retries⟩ := h
  cases step with
  | stall w id pc found full =>
    show s.total .rank + 16 = s.rank
    rw [Demux.rank, pc]
    rfl
  | stallRetry w timeout pc live =>
    show s.total .rank + 16 = s.rank
    rw [Demux.rank, pc]
    rfl
  | call w caller => exact nomatch caller
  | deposit t caller => exact nomatch caller
  | poll w caller ready pc | acquireTimeout w pc | takeGuard w pc room | takeGuardLate w pc room
  | takeOverflow w pc room | guardFull w pc full | stallExit w pc done | missing w pc absent
  | borrow w pc | insert w id pc | settle t pc filled | pipeline w id pc found room
  | hand w id pc room =>
    rw [pc] at retries
    exact retries.elim

/-- Every other step of a call lowers it. -/
theorem DispatchStep.rank (placed : Placed cfg s) (step : s.DispatchStep cfg .process s')
    (called : s.dispatcher ≠ .idle) (onward : ¬ s.dispatcher.Retries s'.dispatcher) :
    s'.rank < s.rank := by
  cases step with
  | call w caller => exact nomatch caller
  | deposit t caller => exact nomatch caller
  | poll w caller ready pc => exact absurd pc called
  | stall w id pc | stallRetry w timeout pc live =>
    rw [pc] at onward
    exact absurd trivial onward
  | takeGuard w pc room | takeGuardLate w pc room | takeOverflow w pc room | guardFull w pc full
  | acquireTimeout w pc | stallExit w pc done | missing w pc absent =>
    exact rank_lt_of_dispatcher rfl pc rfl
  | borrow w pc => exact rank_lt_of_dispatcher (total_borrowWorker ..) pc rfl
  | insert w id pc =>
    exact rank_lt_of_dispatcher (total_relabel (s := s.setEntry _ _ _) rfl rfl rfl) pc rfl
  | settle t pc filled =>
    have htotal : (s.release t).total .rank = s.total .rank := total_tokensOnly (release_tokensOnly t)
    exact rank_lt_of_dispatcher htotal pc rfl
  | pipeline w id pc found room =>
    have hmade := ((placed.layout.mapped _ _ _).mp found).made
    have hfeed := total_rank_feed hmade (s.measured id w)
    have hrank : (s.pipeline id w).rank = (s.setWorker id { s.workers id with
      workItems := (s.workers id).workItems ++ [s.measured id w] }).total .rank + 1 := rfl
    rw [hrank, Demux.rank, pc, DispatcherPc.rank]
    omega
  | hand w id pc room =>
    have hmade := (placed.dispatching.handing w id pc).1.made
    have hfeed := total_rank_feed hmade w
    have hrank : (s.hand w id).rank = (s.setWorker id { s.workers id with
      workItems := (s.workers id).workItems ++ [w] }).total .rank := rfl
    rw [hrank, Demux.rank, pc, DispatcherPc.rank]
    omega

/-- One worker goes on. -/
theorem rank_lt_of_worker {id : Nat} {w : Worker T} (made : id < s.created)
    (total : s'.total .rank = (s.setWorker id w).total .rank)
    (dispatcher : s'.dispatcher = s.dispatcher) (lower : w.rank < (s.workers id).rank) :
    s'.rank < s.rank := by
  have hchange := total_change (f := .rank) (s := s) (w := w) made
  have hlower : Load.rank.of w < Load.rank.of (s.workers id) := lower
  rw [rank, rank, total, dispatcher]
  omega

theorem WorkStep.rank (step : s.WorkStep cfg s')
    (stays : ∀ id, (s'.workers id).pc = .exited → (s.workers id).pc = .exited) :
    s'.rank < s.rank := by
  cases step with
  | work id e w made step =>
    refine rank_lt_of_worker made rfl rfl (step.rank ?_)
    intro hexited
    have hbefore := stays id ((congrArg Worker.pc (setWorker_same id w)).trans hexited)
    rcases step.cold_or_warm with hcold | hwarm
    · exact nomatch hcold.symm.trans hbefore
    · rw [hbefore] at hwarm
      exact hwarm
  | resume id made pc arrived free =>
    refine rank_lt_of_worker made rfl rfl ?_
    simp [Worker.rank, WorkerPc.rank, pc, arrived]
  | retire id made pc empty free =>
    refine rank_lt_of_worker made (w := { s.workers id with
      isActive := false, place := .retiring, pc := .releasing }) rfl rfl ?_
    simp [Worker.rank, WorkerPc.rank, pc, empty]
  | release id made pc filled =>
    refine rank_lt_of_worker made (w := { s.workers id with
      pc := .returning, partitionKey := "", activatedBy := none })
      (total_tokensOnly (release_tokensOnly _)) (release_tokensOnly _).dispatcher ?_
    simp [Worker.rank, WorkerPc.rank, pc]
  | giveBack id made pc =>
    refine rank_lt_of_worker made (w := { s.workers id with pc := .cold })
      (total_returnWorker _ _) (giveBack_poolsOnly cfg id).dispatcher ?_
    simp [Worker.rank, WorkerPc.rank, pc]

theorem Progress.rank (placed : Placed cfg s) (h : s.Progress cfg s') : s'.rank < s.rank := by
  obtain ⟨move, onward⟩ := h
  cases move with
  | dispatch step called => exact step.rank placed called onward
  | work step stays => exact step.rank stays

theorem WorkStep.dispatcher (step : s.WorkStep cfg s') : s'.dispatcher = s.dispatcher := by
  cases step with
  | work | resume | retire => rfl
  | release id => exact releaseWorker_dispatcher id
  | giveBack id => exact (giveBack_poolsOnly cfg id).dispatcher

theorem Move.cases (h : s.Move cfg s') : s.Retry cfg s' ∨ s.Progress cfg s' := by
  by_cases hretries : s.dispatcher.Retries s'.dispatcher
  · cases h with
    | dispatch step called => exact .inl ⟨step, hretries⟩
    | work step stays =>
      rw [step.dispatcher] at hretries
      cases hpc : s.dispatcher <;> rw [hpc] at hretries <;> exact hretries.elim
  · exact .inr ⟨h, hretries⟩

/-- Of the two steps of a round it is the second. -/
theorem Advance.stalls (h : s.Advance cfg s') (retry : s.Retry cfg s') :
    s'.dispatcher.stalls < s.dispatcher.stalls := by
  cases h with
  | dispatch step onward calm => exact DispatcherPc.stalls_of_retries retry.retries onward
  | work step stays => exact absurd retry.rank (ne_of_lt (step.rank stays))

end Demux

/-! ## Something to do means a step -/

/-- The goroutine waits for its first item, or has ended. -/
structure Worker.AtRest (w : Worker T) : Prop where
  pc : w.pc = .cold ∨ w.pc = .exited
  queue : w.workItems = []

namespace Demux

/-- A step of one worker that does not end its goroutine. -/
theorem Advance.of_worker (id : Nat) (step : s.WorkStep cfg s')
    (others : ∀ j, j ≠ id → (s'.workers j).pc = (s.workers j).pc)
    (running : (s'.workers id).pc ≠ .exited) : s.Advance cfg s' := by
  refine .work step ?_
  intro j hj
  by_cases hne : j = id
  · exact absurd (hne ▸ hj) running
  · rw [← others j hne]
    exact hj

end Demux

/-- Nothing is on its way and no token is out. -/
structure Settled (cfg : Config) (s : Demux T) : Prop where
  idle : s.dispatcher = .idle
  rest : ∀ id < s.created, (s.workers id).AtRest
  tokens : ∀ t, s.held t = 0
  drained : Drained cfg s

namespace Demux

section Stuck
variable (placed : Placed cfg s) (balance : Balance cfg s) (fits : s.Fits cfg)
  (stuck : ∀ s', ¬ s.Advance cfg s')
include placed balance fits stuck

end Stuck

end Demux

end LlingrDemux.Pipeline
