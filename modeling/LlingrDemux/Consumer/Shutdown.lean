import LlingrDemux.Shared.System
import Mathlib.Logic.Function.Basic

/-!
# The circuit breaker and the consumer's exits

`TriggerEmergencyShutdown`, `Shutdown` and the `watchEmergency` observer of one consumer, as
goroutines that take turns at single channel operations, atomic loads and stores. Any number
of calls run at the same time. Host code, which runs in the log handlers and in the shutdown
callback, may call back into the consumer; the outer call then waits for the inner one. The
rate limiter, the metrics and what `Unsubscribe` does while it succeeds are left out.
-/

namespace LlingrDemux.Consumer

open Shared
set_option autoImplicit false

def shutdownReason (reason : Option String) : String :=
  reason.getD "unspecified emergency shutdown"

def signalMessage (reason : String) : String :=
  "circuit-breaker: " ++ "triggered and completed protective shutdown, reason: " ++ reason

def unsubscribeDrainTimeout (drainTimeout : String) : String :=
  "timeout: " ++ drainTimeout ++
    " exceeded draining prior to unsubscribe, triggering circuit breaker"

theorem signalMessage_ne (reason : String) : signalMessage reason ≠ "" := by
  intro h
  have hfirst := (String.append_eq_empty_iff.mp (String.append_eq_empty_iff.mp h).1).1
  exact absurd hfirst (by decide)

/-- Where a call stands. The first block is `TriggerEmergencyShutdown`: `won` is elected and
has not written the reason; `initiated`, `stopped` and `complete` are in the log handler. The
second block is `Shutdown`: `timedOut` waits for the trip that `Unsubscribe` raised, and
`claimed` knows whether the latch was closed when it took the notify slot. -/
inductive CallPc where
  | idle
  | electing (reason : String)
  | won (reason : String)
  | cancelling (reason : String)
  | latching (reason : String)
  | initiated (reason : String)
  | stopped (reason : String)
  | sending (reason : String)
  | closing
  | complete
  | tripReturned
  | invoked
  | loading
  | unsubscribing
  | timedOut
  | claiming
  | claimed (latched : Bool)
  | callingBack
  | signalling
  | returned (failed : Bool)
  deriving DecidableEq, Repr

/-- `watchEmergency` and `emergencyExit`. -/
inductive ObserverPc where
  | watching
  | exiting (msg : String)
  | loading (msg : String)
  | claiming (msg : String)
  | claimed (msg : String) (latched : Bool)
  | callingBack
  | finished
  deriving DecidableEq, Repr

/-- A goroutine's position that may run host code. -/
inductive Frame where
  | observer
  | call (id : Nat)
  deriving DecidableEq, Repr

/-- One invocation of the shutdown callback: who made it, whether the breaker's latch was
closed when it took the notify slot, and the reason it passed. -/
structure Invocation where
  by_ : Frame
  latched : Bool
  reason : Option String
  deriving DecidableEq, Repr

/-- The breaker's fields come first, then the consumer's. `trippedCloses` and
`emergencyCloses` count the executions of `close` on the two channels. -/
structure State where
  trip : Option String := none
  reason : Option String := none
  mainCancelled : Bool := false
  trippedCloses : Nat := 0
  emergencyShutdown : List String := []
  emergencyCloses : Nat := 0
  shutdownCallback : Bool := false
  notify : Bool := false
  gracefulDone : Bool := false
  emergencyReason : Option String := none
  observer : ObserverPc := .watching
  calls : Nat → CallPc := fun _ => .idle
  inner : Frame → Option Nat := fun _ => none
  invocations : List Invocation := []

/-- The call is in the log handler or in the shutdown callback. -/
def CallPc.InHost : CallPc → Prop
  | .initiated _ | .stopped _ | .complete | .invoked | .claimed _ | .callingBack => True
  | _ => False

def CallPc.Finished : CallPc → Prop
  | .idle | .tripReturned | .returned _ => True
  | _ => False

namespace State

def setCall (s : State) (i : Nat) (pc : CallPc) : State :=
  { s with calls := Function.update s.calls i pc }

def setInner (s : State) (f : Frame) (i : Nat) : State :=
  { s with inner := Function.update s.inner f (some i) }

def InHost (s : State) : Frame → Prop
  | .observer => s.observer = .callingBack
  | .call i => (s.calls i).InHost

/-- No call runs inside the frame. -/
def Free (s : State) (f : Frame) : Prop := ∀ j, s.inner f = some j → (s.calls j).Finished

/-- `close(cb.tripped)` has been executed. -/
def Latched (s : State) : Bool := decide (0 < s.trippedCloses)

end State

/-- `TriggerEmergencyShutdown`. -/
inductive TripStep : State → State → Prop where
  | win (s : State) (i : Nat) (r : String) (pc : s.calls i = .electing r) (slot : s.trip = none) :
      TripStep s { s.setCall i (.won r) with trip := some r }
  | lose (s : State) (i : Nat) (r : String) (pc : s.calls i = .electing r)
      (slot : s.trip.isSome = true) : TripStep s (s.setCall i .tripReturned)
  | writeReason (s : State) (i : Nat) (r : String) (pc : s.calls i = .won r) :
      TripStep s { s.setCall i (.cancelling r) with reason := some r }
  | cancel (s : State) (i : Nat) (r : String) (pc : s.calls i = .cancelling r) :
      TripStep s { s.setCall i (.latching r) with mainCancelled := true }
  | latch (s : State) (i : Nat) (r : String) (pc : s.calls i = .latching r) :
      TripStep s { s.setCall i (.initiated r) with trippedCloses := s.trippedCloses + 1 }
  | logInitiated (s : State) (i : Nat) (r : String) (pc : s.calls i = .initiated r)
      (free : s.Free (.call i)) : TripStep s (s.setCall i (.stopped r))
  | logCancelled (s : State) (i : Nat) (r : String) (pc : s.calls i = .stopped r)
      (free : s.Free (.call i)) : TripStep s (s.setCall i (.sending r))
  | send (s : State) (i : Nat) (r : String) (pc : s.calls i = .sending r)
      (room : s.emergencyShutdown.length < 1) :
      TripStep s { s.setCall i .closing with
        emergencyShutdown := s.emergencyShutdown ++ [signalMessage r] }
  | close (s : State) (i : Nat) (pc : s.calls i = .closing) :
      TripStep s { s.setCall i .complete with emergencyCloses := s.emergencyCloses + 1 }
  | logComplete (s : State) (i : Nat) (pc : s.calls i = .complete) (free : s.Free (.call i)) :
      TripStep s (s.setCall i .tripReturned)

/-- `Shutdown`, with `Unsubscribe` returning nil or running into its timeout. -/
inductive ShutdownStep : State → State → Prop where
  | logInvoked (s : State) (i : Nat) (pc : s.calls i = .invoked) (free : s.Free (.call i)) :
      ShutdownStep s (s.setCall i .loading)
  | noCallback (s : State) (i : Nat) (pc : s.calls i = .loading)
      (callback : s.shutdownCallback = false) : ShutdownStep s (s.setCall i .signalling)
  | callback (s : State) (i : Nat) (pc : s.calls i = .loading)
      (callback : s.shutdownCallback = true) : ShutdownStep s (s.setCall i .unsubscribing)
  | unsubscribed (s : State) (i : Nat) (pc : s.calls i = .unsubscribing) :
      ShutdownStep s (s.setCall i .claiming)
  | drainTimeout (s : State) (i j : Nat) (timeout : String) (pc : s.calls i = .unsubscribing)
      (fresh : s.calls j = .idle) :
      ShutdownStep s (((s.setCall i .timedOut).setCall j
        (.electing (unsubscribeDrainTimeout timeout))).setInner (.call i) j)
  | fail (s : State) (i : Nat) (pc : s.calls i = .timedOut) (free : s.Free (.call i)) :
      ShutdownStep s (s.setCall i (.returned true))
  | claim (s : State) (i : Nat) (pc : s.calls i = .claiming) (slot : s.notify = false) :
      ShutdownStep s { s.setCall i (.claimed s.Latched) with notify := true }
  | refuse (s : State) (i : Nat) (pc : s.calls i = .claiming) (slot : s.notify = true) :
      ShutdownStep s (s.setCall i .signalling)
  | invoke (s : State) (i : Nat) (latched : Bool) (pc : s.calls i = .claimed latched)
      (free : s.Free (.call i)) :
      ShutdownStep s { s.setCall i .callingBack with
        invocations := s.invocations ++ [⟨.call i, latched, s.emergencyReason⟩] }
  | callbackReturn (s : State) (i : Nat) (pc : s.calls i = .callingBack)
      (free : s.Free (.call i)) : ShutdownStep s (s.setCall i .signalling)
  | signal (s : State) (i : Nat) (pc : s.calls i = .signalling) :
      ShutdownStep s { s.setCall i (.returned false) with gracefulDone := true }

/-- `watchEmergency`; a receive from the closed empty channel yields the empty string. -/
inductive ObserverStep : State → State → Prop where
  | receive (s : State) (msg : String) (rest : List String) (pc : s.observer = .watching)
      (payload : s.emergencyShutdown = msg :: rest) :
      ObserverStep s { s with
        emergencyShutdown := rest
        observer := if msg = "" then .finished else .exiting msg }
  | receiveClosed (s : State) (pc : s.observer = .watching) (empty : s.emergencyShutdown = [])
      (closed : 0 < s.emergencyCloses) : ObserverStep s { s with observer := .finished }
  | receiveToken (s : State) (pc : s.observer = .watching) (token : s.gracefulDone = true) :
      ObserverStep s { s with gracefulDone := false, observer := .finished }
  | storeReason (s : State) (msg : String) (pc : s.observer = .exiting msg) :
      ObserverStep s { s with emergencyReason := some msg, observer := .loading msg }
  | noCallback (s : State) (msg : String) (pc : s.observer = .loading msg)
      (callback : s.shutdownCallback = false) : ObserverStep s { s with observer := .finished }
  | callback (s : State) (msg : String) (pc : s.observer = .loading msg)
      (callback : s.shutdownCallback = true) : ObserverStep s { s with observer := .claiming msg }
  | claim (s : State) (msg : String) (pc : s.observer = .claiming msg) (slot : s.notify = false) :
      ObserverStep s { s with notify := true, observer := .claimed msg s.Latched }
  | refuse (s : State) (msg : String) (pc : s.observer = .claiming msg) (slot : s.notify = true) :
      ObserverStep s { s with observer := .finished }
  | invoke (s : State) (msg : String) (latched : Bool) (pc : s.observer = .claimed msg latched) :
      ObserverStep s { s with
        observer := .callingBack
        invocations := s.invocations ++ [⟨.observer, latched, some msg⟩] }
  | callbackReturn (s : State) (pc : s.observer = .callingBack) (free : s.Free .observer) :
      ObserverStep s { s with observer := .finished }

/-- Calls from outside and from host code, and `RegisterShutdownCallback`. -/
inductive HostStep : State → State → Prop where
  | trip (s : State) (j : Nat) (reason : Option String) (fresh : s.calls j = .idle) :
      HostStep s (s.setCall j (.electing (shutdownReason reason)))
  | shutdown (s : State) (j : Nat) (fresh : s.calls j = .idle) :
      HostStep s (s.setCall j .invoked)
  | tripWithin (s : State) (f : Frame) (j : Nat) (reason : Option String) (host : s.InHost f)
      (free : s.Free f) (fresh : s.calls j = .idle) :
      HostStep s ((s.setCall j (.electing (shutdownReason reason))).setInner f j)
  | shutdownWithin (s : State) (f : Frame) (j : Nat) (host : s.InHost f) (free : s.Free f)
      (fresh : s.calls j = .idle) : HostStep s ((s.setCall j .invoked).setInner f j)
  | register (s : State) : HostStep s { s with shutdownCallback := true }

inductive Step (s s' : State) : Prop where
  | trip (step : TripStep s s')
  | shutdown (step : ShutdownStep s s')
  | observe (step : ObserverStep s s')
  | host (step : HostStep s s')

/-- The runs of a consumer that was built with a callback, or without one. -/
def consumerSystem (registered : Bool) : System State where
  init s := s = { shutdownCallback := registered }
  step := Step

/-- The invariant rule, one premise for each party. -/
theorem consumer_invariant {registered : Bool} {P : State → Prop}
    (initial : P { shutdownCallback := registered })
    (trip : ∀ s s', P s → TripStep s s' → P s')
    (shutdown : ∀ s s', P s → ShutdownStep s s' → P s')
    (observe : ∀ s s', (consumerSystem registered).Reachable s → P s → ObserverStep s s' → P s')
    (host : ∀ s s', P s → HostStep s s' → P s') {s : State}
    (reachable : (consumerSystem registered).Reachable s) : P s := by
  refine System.invariant (M := consumerSystem registered) ?_ ?_ s reachable
  · rintro s rfl
    exact initial
  · intro s s' hreach hs hstep
    cases hstep with
    | trip step => exact trip s s' hs step
    | shutdown step => exact shutdown s s' hs step
    | observe step => exact observe s s' hreach hs step
    | host step => exact host s s' hs step

/-- A call that was idle when `Unsubscribe` timed out has not started anything. -/
theorem State.timedOut_fresh {s : State} {i j : Nat} {Q : CallPc → Prop} (timedOut : ¬ Q .timedOut)
    (idle : ¬ Q .idle) (fresh : s.calls j = .idle) : ¬ Q ((s.setCall i .timedOut).calls j) := by
  by_cases hij : j = i
  · subst hij
    simpa [State.setCall] using timedOut
  · simpa [State.setCall, Function.update_of_ne hij, fresh] using idle

end LlingrDemux.Consumer
