import LlingrDemux.Shared.System
import Mathlib.Logic.Function.Basic

/-!
# The rate limiter and the consumer's exits

`Shutdown` and the emergency observer stop the rate limiter first, while the polling loop calls
its `Await` for every message on the way to a worker. The polling loop, the goroutines of
`Unsubscribe`, any number of `Shutdown` calls, the breaker and the observer take turns at single
channel operations; host code may trip the breaker or call `Shutdown` at any time. A timeout may
fire whenever its goroutine waits. Shutdown callbacks, the notify slot and the pause of the
polling loop, which no caller asks for, are left out; `Consumer.Exits` compares the exits with their
model in `Consumer.Shutdown`.
-/

namespace LlingrDemux.Throttle

open Shared
set_option autoImplicit false

/-- An implementation of the `RateLimiter` interface: what its own goroutines do, when a waiting
`Await` returns, and what `Stop` does. -/
structure RateLimiter where
  σ : Type
  new : σ
  background : σ → σ → Prop
  await : σ → σ → Prop
  stop : σ → σ

/-- The refill goroutine of a token bucket: it receives a tick before it enters the `select`
that sends it, so a cancelled context is seen only with a tick in hand. -/
inductive RefillPc where
  | receiving
  | offering
  | exited
  deriving DecidableEq, Repr

structure TokenBucket where
  tokens : Nat
  ticked : Bool := false
  refill : RefillPc := .receiving
  cancelled : Bool := false
  deriving DecidableEq, Repr

inductive Refill (burst : Nat) : TokenBucket → TokenBucket → Prop where
  | tick (b : TokenBucket) (running : b.cancelled = false) : Refill burst b { b with ticked := true }
  | receive (b : TokenBucket) (pc : b.refill = .receiving) (ticked : b.ticked = true) :
    Refill burst b { b with ticked := false, refill := .offering }
  | send (b : TokenBucket) (pc : b.refill = .offering) (room : b.tokens < burst) :
    Refill burst b { b with tokens := b.tokens + 1, refill := .receiving }
  | exit (b : TokenBucket) (pc : b.refill = .offering) (done : b.cancelled = true) :
    Refill burst b { b with refill := .exited }

/-- `<-r.c`. -/
inductive Take : TokenBucket → TokenBucket → Prop where
  | receive (b : TokenBucket) (token : 0 < b.tokens) : Take b { b with tokens := b.tokens - 1 }

/-- `TokenBucketRateLimiter`, which starts full. `Stop` cancels the context and stops the
ticker, and a stopped ticker's channel yields no earlier tick. -/
def tokenBucket (burst : Nat) : RateLimiter where
  σ := TokenBucket
  new := { tokens := burst }
  background := Refill burst
  await := Take
  stop b := { b with cancelled := true, ticked := false }

/-- `NewTokenBucket`, with the texts of its panics. -/
def newTokenBucket (ratePerSec burst : Int) : Except String RateLimiter :=
  if ratePerSec < 1 ∨ ratePerSec > 5000 then .error "ratePerSec must be between 1 and 5000"
  else if burst < 1 then .error "burst must be >= 1 for TokenBucket"
  else .ok (tokenBucket burst.toNat)

def newTicker (ratePerSec : Int) : Except String RateLimiter := newTokenBucket ratePerSec 1

/-- `PollAndForward`: `forwarding` is in `Process` before the limiter, with the message's
concurrency token on the way, and `sending` is behind it. -/
inductive PollerPc where
  | notStarted
  | starting
  | loop
  | polling
  | forwarding
  | awaiting
  | sending
  | returned
  deriving DecidableEq, Repr

/-- `Shutdown`: `invoked` is before `stopRateLimit`, and `finishing` is behind `Unsubscribe`. -/
inductive ShutdownPc where
  | idle
  | invoked
  | loading
  | unsubscribing
  | finishing
  | returned
  deriving DecidableEq, Repr

/-- The goroutine that `Unsubscribe` starts. -/
inductive UnsubscribePc where
  | idle
  | stopPolling
  | draining
  | unsubscribing
  | done
  deriving DecidableEq, Repr

/-- Who asked to unsubscribe: a `Subscribe` that saw no assignment, or a `Shutdown`. -/
inductive Caller where
  | subscribe
  | shutdown (id : Nat)
  deriving DecidableEq, Repr

/-- How far the elected `TriggerEmergencyShutdown` is; `delivered` is behind the observer's
receive. -/
inductive BreakerPc where
  | armed
  | elected
  | cancelled
  | signalled
  | delivered
  deriving DecidableEq, Repr

namespace BreakerPc

def trip : BreakerPc → BreakerPc
  | .armed => .elected
  | b => b

def mainCancelled : BreakerPc → Bool
  | .armed | .elected => false
  | _ => true

end BreakerPc

/-- `watchEmergency`: `exiting` is before `stopRateLimit`. -/
inductive ObserverPc where
  | watching
  | exiting
  | delivering
  | finished
  deriving DecidableEq, Repr

/-- What the exits share among themselves. -/
structure Control where
  shutdownCallback : Bool := false
  breaker : BreakerPc := .armed
  observer : ObserverPc := .watching
  gracefulDone : Bool := false
  shutdowns : Nat → ShutdownPc := fun _ => .idle
  unsubscribes : Caller → UnsubscribePc := fun _ => .idle

namespace Control

def setShutdown (c : Control) (i : Nat) (pc : ShutdownPc) : Control :=
  { c with shutdowns := Function.update c.shutdowns i pc }

def setUnsubscribe (c : Control) (caller : Caller) (pc : UnsubscribePc) : Control :=
  { c with unsubscribes := Function.update c.unsubscribes caller pc }

def trip (c : Control) : Control := { c with breaker := c.breaker.trip }

end Control

/-- The steps that touch neither the limiter nor the polling loop. -/
inductive ControlStep : Control → Control → Prop where
  | registerShutdownCallback (c : Control) : ControlStep c { c with shutdownCallback := true }
  | shutdown (c : Control) (i : Nat) (pc : c.shutdowns i = .idle) :
    ControlStep c (c.setShutdown i .invoked)
  | noCallback (c : Control) (i : Nat) (pc : c.shutdowns i = .loading)
    (callback : c.shutdownCallback = false) :
    ControlStep c { c.setShutdown i .returned with gracefulDone := true }
  | callback (c : Control) (i : Nat) (pc : c.shutdowns i = .loading)
    (callback : c.shutdownCallback = true) :
    ControlStep c ((c.setShutdown i .unsubscribing).setUnsubscribe (.shutdown i) .stopPolling)
  | unsubscribed (c : Control) (i : Nat) (pc : c.shutdowns i = .unsubscribing)
    (done : c.unsubscribes (.shutdown i) = .done) : ControlStep c (c.setShutdown i .finishing)
  | drainTimeout (c : Control) (i : Nat) (pc : c.shutdowns i = .unsubscribing) :
    ControlStep c (c.setShutdown i .returned).trip
  | finish (c : Control) (i : Nat) (pc : c.shutdowns i = .finishing) :
    ControlStep c { c.setShutdown i .returned with gracefulDone := true }
  | stopPollingTimeout (c : Control) (caller : Caller) (pc : c.unsubscribes caller = .stopPolling) :
    ControlStep c (c.setUnsubscribe caller .draining)
  | drained (c : Control) (caller : Caller) (pc : c.unsubscribes caller = .draining) :
    ControlStep c (c.setUnsubscribe caller .unsubscribing)
  | brokerUnsubscribed (c : Control) (caller : Caller)
    (pc : c.unsubscribes caller = .unsubscribing) : ControlStep c (c.setUnsubscribe caller .done)
  | trip (c : Control) : ControlStep c c.trip
  | cancel (c : Control) (pc : c.breaker = .elected) : ControlStep c { c with breaker := .cancelled }
  | signal (c : Control) (pc : c.breaker = .cancelled) :
    ControlStep c { c with breaker := .signalled }
  | observe (c : Control) (pc : c.observer = .watching) (payload : c.breaker = .signalled) :
    ControlStep c { c with observer := .exiting, breaker := .delivered }
  | release (c : Control) (pc : c.observer = .watching) (token : c.gracefulDone = true) :
    ControlStep c { c with observer := .finished, gracefulDone := false }
  | deliverCallback (c : Control) (pc : c.observer = .delivering) :
    ControlStep c { c with observer := .finished }

/-- `stopped` says that `Stop` has been called, `lateAwait` that an `Await` began after it. -/
structure State (L : RateLimiter) where
  limiter : L.σ
  stopped : Bool := false
  lateAwait : Bool := false
  poller : PollerPc := .notStarted
  control : Control

/-- The calls of `Stop` and the messages that the broker's `Poll` returns are told apart from
the other steps. -/
inductive Kind where
  | stop
  | deliver
  | other
  deriving DecidableEq, Repr

variable {L : RateLimiter}

/-- `stopRateLimit`. -/
def State.stopRateLimit (s : State L) (c : Control) : State L :=
  { s with limiter := L.stop s.limiter, stopped := true, control := c }

/-- `poll` is the innermost `default`, taken when the main context is alive and no goroutine
offers `stopPolling`. -/
inductive Step : Kind → State L → State L → Prop where
  | background {s : State L} {l : L.σ} (h : L.background s.limiter l) :
    Step .other s { s with limiter := l }
  | control {s : State L} {c : Control} (h : ControlStep s.control c) :
    Step .other s { s with control := c }
  | shutdownStop {s : State L} (i : Nat) (pc : s.control.shutdowns i = .invoked) :
    Step .stop s (s.stopRateLimit (s.control.setShutdown i .loading))
  | emergencyStop {s : State L} (pc : s.control.observer = .exiting) :
    Step .stop s (s.stopRateLimit { s.control with observer := .delivering })
  | subscribe {s : State L} (pc : s.poller = .notStarted)
    (alive : s.control.breaker.mainCancelled = false) :
    Step .other s
      { s with poller := .starting, control := { s.control with shutdownCallback := true } }
  | subscribeFailed {s : State L} (pc : s.poller = .starting) :
    Step .other s { s with poller := .returned }
  | startPolling {s : State L} (pc : s.poller = .starting) :
    Step .other s { s with poller := .loop }
  | assignmentTimeout {s : State L} (started : s.poller ≠ .notStarted ∧ s.poller ≠ .starting)
    (pc : s.control.unsubscribes .subscribe = .idle) :
    Step .other s { s with control := s.control.setUnsubscribe .subscribe .stopPolling }
  | cancelled {s : State L} (pc : s.poller = .loop)
    (cancelled : s.control.breaker.mainCancelled = true) :
    Step .other s { s with poller := .returned }
  | accept {s : State L} (caller : Caller) (pc : s.poller = .loop)
    (offered : s.control.unsubscribes caller = .stopPolling) :
    Step .other s
      { s with poller := .returned, control := s.control.setUnsubscribe caller .draining }
  | poll {s : State L} (pc : s.poller = .loop)
    (alive : s.control.breaker.mainCancelled = false)
    (quiet : ∀ caller, s.control.unsubscribes caller ≠ .stopPolling) :
    Step .other s { s with poller := .polling }
  | pollEmpty {s : State L} (pc : s.poller = .polling) : Step .other s { s with poller := .loop }
  | pollMessage {s : State L} (pc : s.poller = .polling) :
    Step .deliver s { s with poller := .forwarding }
  | processFailed {s : State L} (pc : s.poller = .forwarding) :
    Step .other s { s with poller := .returned, control := s.control.trip }
  | startAwait {s : State L} (pc : s.poller = .forwarding) :
    Step .other s { s with poller := .awaiting, lateAwait := s.lateAwait || s.stopped }
  | awaited {s : State L} {l : L.σ} (pc : s.poller = .awaiting) (h : L.await s.limiter l) :
    Step .other s { s with poller := .sending, limiter := l }
  | stalled {s : State L} (pc : s.poller = .sending) :
    Step .other s { s with control := s.control.trip }
  | sent {s : State L} (pc : s.poller = .sending) : Step .other s { s with poller := .loop }

/-- A consumer as `Build` leaves it, with a shutdown callback or without. -/
def State.built (L : RateLimiter) (registered : Bool) : State L where
  limiter := L.new
  control := { shutdownCallback := registered }

/-- Every interleaving of the parties. -/
def throttledSystem (L : RateLimiter) : System (State L) where
  init s := ∃ registered, s = State.built L registered
  step s t := ∃ kind, Step kind s t

/-- `Stop` is called while no message is between `Poll` and the end of its `Await`, and `Poll`
returns no message once it has been called. -/
def Kind.Orderly (s : State L) : Kind → Prop
  | .stop => s.poller ≠ .forwarding ∧ s.poller ≠ .awaiting
  | .deliver => s.stopped = false
  | .other => True

/-- The interleavings whose steps are all orderly. -/
def orderlySystem (L : RateLimiter) : System (State L) where
  init := (throttledSystem L).init
  step s t := ∃ kind, Step kind s t ∧ kind.Orderly s

theorem reachable_of_orderly {s : State L} (hs : (orderlySystem L).Reachable s) :
    (throttledSystem L).Reachable s := by
  refine System.invariant (M := orderlySystem L) (P := (throttledSystem L).Reachable)
    (fun _ h => .init h) ?_ s hs
  intro a b _ ha hstep
  obtain ⟨kind, hstep, _⟩ := hstep
  exact ha.step ⟨kind, hstep⟩

/-! ## Orderly runs -/

/-- What an orderly run keeps. -/
structure Respected (s : State L) : Prop where
  lateAwait : s.lateAwait = false
  quiet : s.stopped = true → s.poller ≠ .forwarding ∧ s.poller ≠ .awaiting

theorem Respected.stopRateLimit {s : State L} (h : Respected s)
    (horderly : Kind.stop.Orderly s) (c : Control) : Respected (s.stopRateLimit c) :=
  ⟨h.lateAwait, fun _ => horderly⟩

/-- A step of the polling loop to a place that is not on the way through the limiter. -/
theorem Respected.move {s : State L} (h : Respected s) {pc : PollerPc} (c : Control)
    (l : L.σ) (hpc : pc ≠ .forwarding ∧ pc ≠ .awaiting) :
    Respected { s with poller := pc, control := c, limiter := l } :=
  ⟨h.lateAwait, fun _ => hpc⟩

theorem Respected.step {s t : State L} {kind : Kind} (h : Respected s) (hstep : Step kind s t)
    (horderly : kind.Orderly s) : Respected t := by
  cases hstep with
  | background | control | assignmentTimeout | stalled => exact ⟨h.lateAwait, h.quiet⟩
  | shutdownStop | emergencyStop => exact h.stopRateLimit horderly _
  | pollMessage pc =>
    have hrunning : s.stopped = false := horderly
    refine ⟨h.lateAwait, ?_⟩
    intro hstopped
    exact absurd (hrunning.symm.trans hstopped) Bool.false_ne_true
  | startAwait pc =>
    -- a message on its way to the limiter means that `Stop` has not been called
    have hrunning : s.stopped = false := by
      apply Bool.eq_false_iff.mpr
      intro hstopped
      exact (h.quiet hstopped).1 pc
    constructor
    · simp [h.lateAwait, hrunning]
    · intro hstopped
      exact absurd (hrunning.symm.trans hstopped) Bool.false_ne_true
  | _ => exact h.move _ _ (by simp)

/-- In an orderly run no `Await` begins after `Stop`, whatever the limiter, and the polling loop
never waits in a stopped limiter. -/
theorem orderly_await_before_stop (L : RateLimiter) {s : State L}
    (hs : (orderlySystem L).Reachable s) :
    s.lateAwait = false ∧ ¬ (s.stopped = true ∧ s.poller = .awaiting) := by
  have h : Respected s := by
    refine System.invariant (P := Respected) ?_ ?_ s hs
    · rintro _ ⟨registered, rfl⟩
      exact ⟨rfl, by simp [State.built]⟩
    · rintro a b _ ha ⟨kind, hstep, horderly⟩
      exact ha.step hstep horderly
  refine ⟨h.lateAwait, ?_⟩
  rintro ⟨hstopped, hawaiting⟩
  exact (h.quiet hstopped).2 hawaiting

/-- A consumer behind a ticker after its first message: the bucket is empty. -/
def tickerDrained : State (tokenBucket 1) where
  limiter := ({ tokens := 0 } : TokenBucket)
  poller := .loop
  control := { shutdownCallback := true }

theorem tickerDrained_reachable : (orderlySystem (tokenBucket 1)).Reachable tickerDrained := by
  have hbuilt : (orderlySystem (tokenBucket 1)).Reachable (State.built (tokenBucket 1) false) :=
    .init ⟨false, rfl⟩
  have hsubscribed := hbuilt.step ⟨.other, .subscribe rfl rfl, trivial⟩
  have hstarted := hsubscribed.step ⟨.other, .startPolling rfl, trivial⟩
  have hpolling := hstarted.step ⟨.other, .poll rfl rfl fun _ => UnsubscribePc.noConfusion, trivial⟩
  have hpolled := hpolling.step ⟨.deliver, .pollMessage rfl, rfl⟩
  have hawaiting := hpolled.step ⟨.other, .startAwait rfl, trivial⟩
  have hawaited := hawaiting.step ⟨.other, .awaited rfl (.receive _ Nat.one_pos), trivial⟩
  exact hawaited.step ⟨.other, .sent rfl, trivial⟩

/-- From there the consumer shuts down in good order. -/
theorem orderly_await_before_stop_shutdown : ∃ s : State (tokenBucket 1),
    (orderlySystem (tokenBucket 1)).Reachable s ∧ s.stopped = true ∧
      s.control.shutdowns 0 = .returned ∧ s.poller = .returned ∧ s.lateAwait = false := by
  have hinvoked := tickerDrained_reachable.step ⟨.other, .control (.shutdown _ 0 rfl), trivial⟩
  have hstopped := hinvoked.step ⟨.stop, .shutdownStop 0 rfl, by simp [Kind.Orderly, tickerDrained]⟩
  have hoffered := hstopped.step ⟨.other, .control (.callback _ 0 rfl rfl), trivial⟩
  have haccepted := hoffered.step ⟨.other, .accept (.shutdown 0) rfl rfl, trivial⟩
  have hdrained := haccepted.step ⟨.other, .control (.drained _ (.shutdown 0) rfl), trivial⟩
  have hleft := hdrained.step ⟨.other, .control (.brokerUnsubscribed _ (.shutdown 0) rfl), trivial⟩
  have hfinishing := hleft.step ⟨.other, .control (.unsubscribed _ 0 rfl rfl), trivial⟩
  have hreturned := hfinishing.step ⟨.other, .control (.finish _ 0 rfl), trivial⟩
  exact ⟨_, hreturned, rfl, rfl, rfl, (orderly_await_before_stop _ hreturned).1⟩

/-! ## The parked polling loop -/

/-- The polling loop waits in a token bucket that is empty and whose refill has ended. -/
structure Parked {burst : Nat} (s : State (tokenBucket burst)) : Prop where
  awaiting : s.poller = .awaiting
  empty : (s.limiter : TokenBucket).tokens = 0
  cancelled : (s.limiter : TokenBucket).cancelled = true
  noTick : (s.limiter : TokenBucket).ticked = false
  noOffer : (s.limiter : TokenBucket).refill ≠ .offering

theorem Parked.refill {burst : Nat} {s : State (tokenBucket burst)} (h : Parked s)
    {b : TokenBucket} : ¬ Refill burst s.limiter b := by
  intro hrefill
  cases hrefill with
  | tick running => exact Bool.false_ne_true (running.symm.trans h.cancelled)
  | receive pc ticked => exact Bool.false_ne_true (h.noTick.symm.trans ticked)
  | send pc room => exact h.noOffer pc
  | exit pc done => exact h.noOffer pc

theorem Parked.take {burst : Nat} {s : State (tokenBucket burst)} (h : Parked s)
    {b : TokenBucket} : ¬ Take s.limiter b := by
  intro htake
  cases htake with
  | receive token => exact Nat.ne_of_gt token h.empty

theorem Parked.step {burst : Nat} {s t : State (tokenBucket burst)} {kind : Kind} (h : Parked s)
    (hstep : Step kind s t) : Parked t := by
  have hpc := h.awaiting
  cases hstep with
  | background hrefill => exact absurd hrefill h.refill
  | awaited pc htake => exact absurd htake h.take
  | control | assignmentTimeout =>
    exact ⟨hpc, h.empty, h.cancelled, h.noTick, h.noOffer⟩
  | shutdownStop | emergencyStop => exact ⟨hpc, h.empty, rfl, rfl, h.noOffer⟩
  | subscribe pc | subscribeFailed pc | startPolling pc | cancelled pc | accept _ pc | poll pc
  | pollEmpty pc | pollMessage pc | processFailed pc | startAwait pc | stalled pc | sent pc =>
    rw [hpc] at pc
    cases pc

/-- No step of any party ends the wait. -/
theorem Parked.run {burst : Nat} {s t : State (tokenBucket burst)} (h : Parked s)
    (hrun : (throttledSystem (tokenBucket burst)).Run s t) : Parked t := by
  induction hrun with
  | refl => exact h
  | tail _ hstep ih =>
    obtain ⟨kind, hstep⟩ := hstep
    exact ih.step hstep

/-- A consumer behind a ticker whose second message met the limiter after `Shutdown` had stopped
it: the polling loop waits in the limiter while `Shutdown` offers `stopPolling`. -/
def tickerParked : State (tokenBucket 1) where
  limiter := ({ tokens := 0, cancelled := true } : TokenBucket)
  stopped := true
  lateAwait := true
  poller := .awaiting
  control :=
    ({ shutdownCallback := true
       shutdowns := Function.update (fun _ => .idle) 0 .unsubscribing } : Control).setUnsubscribe
      (.shutdown 0) .stopPolling

theorem tickerParked_reachable : (throttledSystem (tokenBucket 1)).Reachable tickerParked := by
  have hpolling := (reachable_of_orderly tickerDrained_reachable).step
    ⟨_, .poll rfl rfl fun _ => UnsubscribePc.noConfusion⟩
  have hpolled := hpolling.step ⟨_, .pollMessage rfl⟩
  have hinvoked := hpolled.step ⟨_, .control (.shutdown _ 0 rfl)⟩
  have hstopped := hinvoked.step ⟨_, .shutdownStop 0 rfl⟩
  have hoffered := hstopped.step ⟨_, .control (.callback _ 0 rfl rfl)⟩
  have hawaiting := hoffered.step ⟨_, .startAwait rfl⟩
  simpa [tickerParked, tickerDrained, State.stopRateLimit, tokenBucket, Control.setShutdown,
    Control.setUnsubscribe] using hawaiting

theorem tickerParked_parked : Parked tickerParked :=
  ⟨rfl, rfl, rfl, rfl, RefillPc.noConfusion⟩

/-- With the second message of a ticker on its way, `Shutdown` stops the limiter, the polling
loop begins its `Await` afterwards, and it stays there for ever while `Shutdown` offers
`stopPolling`. -/
theorem ticker_await_after_stop : newTicker 100 = .ok (tokenBucket 1) ∧
    ∃ s : State (tokenBucket 1), (throttledSystem (tokenBucket 1)).Reachable s ∧
      s.lateAwait = true ∧ s.stopped = true ∧
      s.control.unsubscribes (.shutdown 0) = .stopPolling ∧
      ∀ t, (throttledSystem (tokenBucket 1)).Run s t → t.poller = .awaiting := by
  refine ⟨rfl, tickerParked, tickerParked_reachable, rfl, rfl, rfl, ?_⟩
  intro t hrun
  have hparked := tickerParked_parked.run hrun
  exact hparked.awaiting

end LlingrDemux.Throttle
