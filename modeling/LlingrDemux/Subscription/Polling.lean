import LlingrDemux.Pipeline.WorkerDrain
import LlingrDemux.Pipeline.Tokens

/-!
# The polling loop and the drains

`PollAndForward` is the only goroutine that dispatches. A drain stops it first: a revoke runs
inside its poll, `Unsubscribe` has it leave the loop, an asynchronous drain pauses it. The
drain coordinator's mutex then lets one drain at a time wait for the workers and for the
committer. What `DrainCommitter` does in its time is left to the committer: here it ends with or
without an error. A timer may fire whenever its goroutine waits.
-/

namespace LlingrDemux.Polling

open Shared Pipeline
set_option autoImplicit false

variable {T : Type}

inductive DrainBehaviour where
  | syncPollingAlreadyStopped
  | asyncStopPollingBeforeDrain
  | shutdownStopPollingBeforeDrain
  deriving DecidableEq, Repr

/-- `PollAndForward`: `outer` and `inner` are its two selects, `polling` is in `poll`,
`rebalancing` in a drain of `HandleRebalance` called from there, `forwarding` in `Process`, and
`failing` holds an error of it. -/
inductive LoopPc where
  | outer
  | paused
  | inner
  | polling
  | rebalancing
  | forwarding
  | failing
  | stopped
  deriving DecidableEq, Repr

/-- What keeps the polling loop from dispatching during a drain; with `nothing` the shutdown
timed out waiting for it and drains all the same. -/
inductive Hold where
  | rebalance
  | pause
  | stop
  | nothing
  deriving DecidableEq, Repr

/-- A goroutine in `Subscription.drain`: `asking` is at the select on `stopPolling` or
`pausePolling`, `locking` before the coordinator's mutex; `drainWorkers` waits for the
`DrainWorkers` goroutine it has started, and `failing` is about to trip the breaker. -/
inductive DrainPc where
  | idle
  | asking (behaviour : DrainBehaviour)
  | locking (hold : Hold)
  | drainWorkers (hold : Hold) (drainer : Nat)
  | drainCommitter (hold : Hold)
  | failing (hold : Hold)
  | unlocking (hold : Hold) (failed : Bool)
  | resuming (failed : Bool)
  | returned (hold : Hold) (failed : Bool)
  deriving DecidableEq, Repr

/-- Who drains: the polling goroutine in a revoke, or another one. -/
inductive Who where
  | poller
  | other (n : Nat)
  deriving DecidableEq, Repr

/-- A subscription with its demultiplexer; `mu` is the owner of the coordinator's mutex. -/
structure Subscription (T : Type) where
  demux : Demux T := Demux.initial
  loop : LoopPc := .outer
  drains : Who → DrainPc := fun _ => .idle
  mu : Option Who := none

namespace Subscription

def setDrain (s : Subscription T) (x : Who) (pc : DrainPc) : Subscription T :=
  { s with drains := Function.update s.drains x pc }

theorem setDrain_same (s : Subscription T) (x : Who) (pc : DrainPc) :
    (s.setDrain x pc).drains x = pc := Function.update_self ..

theorem setDrain_other (s : Subscription T) {x y : Who} (pc : DrainPc) (h : y ≠ x) :
    (s.setDrain x pc).drains y = s.drains y := Function.update_of_ne h ..

def setLoop (s : Subscription T) (pc : LoopPc) : Subscription T := { s with loop := pc }

/-- `TriggerEmergencyShutdown`. -/
def trip (s : Subscription T) : Subscription T := { s with demux.tripped := true }

/-- `c.mu.Lock` and the start of the `DrainWorkers` goroutine `d`. -/
def lock (s : Subscription T) (x : Who) (hold : Hold) (d : Nat) : Subscription T :=
  { s.setDrain x (.drainWorkers hold d) with
    mu := some x
    demux := s.demux.setDrainer d (.scanning 0) }

/-- Where the goroutine goes on after `Drain`: back into `poll`, to the deferred resume, or out. -/
def unlock (s : Subscription T) (x : Who) (hold : Hold) (failed : Bool) : Subscription T :=
  match hold with
  | .rebalance => { (s.setDrain x .idle).setLoop .polling with mu := none }
  | .pause => { s.setDrain x (.resuming failed) with mu := none }
  | .stop | .nothing => { s.setDrain x (.returned hold failed) with mu := none }

/-- A step of the polling goroutine. The selects take a channel that is ready before their
default. -/
inductive LoopStep (cfg : Config) : Subscription T → Subscription T → Prop where
  | pause (s : Subscription T) (n : Nat) (pc : s.loop = .outer)
      (sender : s.drains (.other n) = .asking .asyncStopPollingBeforeDrain) :
      LoopStep cfg s ((s.setLoop .paused).setDrain (.other n) (.locking .pause))
  | enter (s : Subscription T) (pc : s.loop = .outer)
      (none : ∀ n, s.drains (.other n) ≠ .asking .asyncStopPollingBeforeDrain) :
      LoopStep cfg s (s.setLoop .inner)
  | resume (s : Subscription T) (n : Nat) (failed : Bool) (pc : s.loop = .paused)
      (sender : s.drains (.other n) = .resuming failed) :
      LoopStep cfg s ((s.setLoop .outer).setDrain (.other n) (.returned .pause failed))
  | cancelled (s : Subscription T) (pc : s.loop = .inner) (done : s.demux.tripped = true) :
      LoopStep cfg s (s.setLoop .stopped)
  | stop (s : Subscription T) (n : Nat) (pc : s.loop = .inner)
      (sender : s.drains (.other n) = .asking .shutdownStopPollingBeforeDrain) :
      LoopStep cfg s ((s.setLoop .stopped).setDrain (.other n) (.locking .stop))
  | poll (s : Subscription T) (pc : s.loop = .inner) (live : s.demux.tripped = false)
      (none : ∀ n, s.drains (.other n) ≠ .asking .shutdownStopPollingBeforeDrain) :
      LoopStep cfg s (s.setLoop .polling)
  | noMessage (s : Subscription T) (pc : s.loop = .polling) : LoopStep cfg s (s.setLoop .outer)
  | process (s : Subscription T) (w : WorkItem T) (pc : s.loop = .polling)
      (ready : s.demux.Ready cfg) (clean : w.metrics.traits.usedOverflow = false) :
      LoopStep cfg s { s with loop := .forwarding, demux.dispatcher := .acquiring w }
  | refuse (s : Subscription T) (pc : s.loop = .polling) : LoopStep cfg s (s.setLoop .failing)
  | processed (s : Subscription T) (pc : s.loop = .forwarding) (idle : s.demux.dispatcher = .idle) :
      LoopStep cfg s (s.setLoop .outer)
  | acquireTimeout (s : Subscription T) (w : WorkItem T) (pc : s.loop = .forwarding)
      (waiting : s.demux.dispatcher = .waiting w) :
      LoopStep cfg s { s with loop := .failing, demux.dispatcher := .idle }
  | fail (s : Subscription T) (pc : s.loop = .failing) : LoopStep cfg s (s.trip.setLoop .stopped)
  | revoke (s : Subscription T) (pc : s.loop = .polling) :
      LoopStep cfg s ((s.setLoop .rebalancing).setDrain .poller (.locking .rebalance))

/-- A step of a goroutine in `drain`. -/
inductive DrainStep (cfg : Config) : Subscription T → Subscription T → Prop where
  | ask (s : Subscription T) (n : Nat) (behaviour : DrainBehaviour)
      (aside : behaviour ≠ .syncPollingAlreadyStopped) (pc : s.drains (.other n) = .idle) :
      DrainStep cfg s (s.setDrain (.other n) (.asking behaviour))
  | stopTimeout (s : Subscription T) (n : Nat)
      (pc : s.drains (.other n) = .asking .shutdownStopPollingBeforeDrain) :
      DrainStep cfg s (s.setDrain (.other n) (.locking .nothing))
  | pauseTimeout (s : Subscription T) (n : Nat)
      (pc : s.drains (.other n) = .asking .asyncStopPollingBeforeDrain) :
      DrainStep cfg s (s.trip.setDrain (.other n) (.returned .nothing true))
  | lock (s : Subscription T) (x : Who) (hold : Hold) (d : Nat) (pc : s.drains x = .locking hold)
      (free : s.mu = none) (ready : s.demux.Ready cfg) (fresh : s.demux.drainers d = .idle) :
      DrainStep cfg s (s.lock x hold d)
  | workersDrained (s : Subscription T) (x : Who) (hold : Hold) (d : Nat)
      (pc : s.drains x = .drainWorkers hold d) (done : s.demux.drainers d = .returned) :
      DrainStep cfg s (s.setDrain x (.drainCommitter hold))
  | workersTimeout (s : Subscription T) (x : Who) (hold : Hold) (d : Nat)
      (pc : s.drains x = .drainWorkers hold d) : DrainStep cfg s (s.setDrain x (.failing hold))
  | committerDrained (s : Subscription T) (x : Who) (hold : Hold)
      (pc : s.drains x = .drainCommitter hold) :
      DrainStep cfg s (s.setDrain x (.unlocking hold false))
  | committerFailed (s : Subscription T) (x : Who) (hold : Hold)
      (pc : s.drains x = .drainCommitter hold) : DrainStep cfg s (s.setDrain x (.failing hold))
  | fail (s : Subscription T) (x : Who) (hold : Hold) (pc : s.drains x = .failing hold) :
      DrainStep cfg s (s.trip.setDrain x (.unlocking hold true))
  | unlock (s : Subscription T) (x : Who) (hold : Hold) (failed : Bool)
      (pc : s.drains x = .unlocking hold failed) : DrainStep cfg s (s.unlock x hold failed)
  | resumeTimeout (s : Subscription T) (n : Nat) (failed : Bool)
      (pc : s.drains (.other n) = .resuming failed) :
      DrainStep cfg s (s.setDrain (.other n) (.returned .pause failed))

/-- The polls, the timeouts of `Process` and the starts of `DrainWorkers` are steps of the
polling loop and of the drains. -/
structure Inner (d d' : Demux T) : Prop where
  polled : d.dispatcher = .idle → d'.dispatcher = .idle
  patient : ∀ w, d.dispatcher = .waiting w → d'.dispatcher ≠ .idle
  drainers : ∀ k, d.drainers k = .idle → d'.drainers k = .idle

inductive Step (cfg : Config) : Subscription T → Subscription T → Prop where
  | loop {s s' : Subscription T} (step : LoopStep cfg s s') : Step cfg s s'
  | drain {s s' : Subscription T} (step : DrainStep cfg s s') : Step cfg s s'
  | pipeline (s : Subscription T) (d : Demux T) (step : Demux.Step cfg .process s.demux d)
      (inner : Inner s.demux d) : Step cfg s { s with demux := d }

end Subscription

def pollingSystem (T : Type) (cfg : Config) : System (Subscription T) where
  init s := s = {}
  step := Subscription.Step cfg

/-- The drain has the coordinator's mutex. -/
def DrainPc.Inside : DrainPc → Prop
  | .drainWorkers _ _ | .drainCommitter _ | .failing _ | .unlocking _ _ => True
  | .idle | .asking _ | .locking _ | .resuming _ | .returned _ _ => False

/-- What the drain holds the polling loop by. A stopped loop stays stopped. -/
def DrainPc.hold : DrainPc → Hold
  | .locking h | .drainWorkers h _ | .drainCommitter h | .failing h | .unlocking h _ => h
  | .resuming _ => .pause
  | .returned .stop _ => .stop
  | .idle | .asking _ | .returned _ _ => .nothing

/-- The workers have been drained. -/
def DrainPc.Drained : DrainPc → Prop
  | .drainCommitter _ | .unlocking _ false | .resuming false | .returned .stop false => True
  | _ => False

def DrainPc.failed : DrainPc → Bool
  | .unlocking _ failed | .resuming failed | .returned _ failed => failed
  | _ => false

end LlingrDemux.Polling
