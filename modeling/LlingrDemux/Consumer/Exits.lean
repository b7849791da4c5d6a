import LlingrDemux.Consumer.Notify
import LlingrDemux.Consumer.RateLimit
import LlingrDemux.Shared.Simulation

/-!
# The two views of a consumer's exits

The model of the rate limiter takes the breaker, `Shutdown` and the observer in steps as large as
the limiter allows; the model of the exits takes them in single channel operations and has no
limiter. Every step of the first is a run of the second, and every step of the second is a run
of the first, so what holds of all runs of the one speaks of the other.
-/

namespace LlingrDemux.Consumer

open Shared
set_option autoImplicit false

/-- The exits of a consumer, built with a callback or without one. -/
def builtSystem : System State where
  init t := ∃ registered, (consumerSystem registered).init t
  step := Step

/-- The calls of `Shutdown` have the even numbers, those that trip the breaker the odd ones. -/
def shutdownCall (i : Nat) : Nat := 2 * i

def tripCall (k : Nat) : Nat := 2 * k + 1

theorem tripCall_ne_shutdownCall (k i : Nat) : tripCall k ≠ shutdownCall i := by
  unfold tripCall shutdownCall
  omega

/-- The place of a `Shutdown` in the other model. -/
def callOf : Throttle.ShutdownPc → CallPc
  | .idle => .idle
  | .invoked => .invoked
  | .loading => .loading
  | .unsubscribing => .unsubscribing
  | .finishing => .claiming
  | .returned => .returned false

/-- A `Shutdown` that ran into its timeout may still be in the trip that it raises. -/
def ShutdownAt (p : Throttle.ShutdownPc) (q : CallPc) : Prop :=
  q = callOf p ∨ p = .returned ∧ q = .timedOut

inductive ObserverAt : Throttle.ObserverPc → ObserverPc → Prop where
  | watching : ObserverAt .watching .watching
  | exiting (msg : String) : ObserverAt .exiting (.exiting msg)
  | delivering (msg : String) : ObserverAt .delivering (.exiting msg)
  | finished : ObserverAt .finished .finished

/-- How far the elected trip is in the state `t`. -/
inductive BreakerAt (t : State) : Throttle.BreakerPc → Prop where
  | armed (slot : t.trip = none) (empty : t.emergencyShutdown = []) : BreakerAt t .armed
  | elected (k : Nat) (r : String) (slot : t.trip = some r) (pc : t.calls (tripCall k) = .won r)
      (empty : t.emergencyShutdown = []) : BreakerAt t .elected
  | cancelled (k : Nat) (r : String) (slot : t.trip = some r)
      (pc : t.calls (tripCall k) = .latching r) (empty : t.emergencyShutdown = []) :
      BreakerAt t .cancelled
  | signalled (r : String) (slot : t.trip = some r)
      (payload : t.emergencyShutdown = [signalMessage r]) : BreakerAt t .signalled
  | delivered (r : String) (slot : t.trip = some r) : BreakerAt t .delivered

/-- The exits of the limiter's model, seen in the other. Infinitely many calls are unused, and a
call waits inside another one only where a `Shutdown` has timed out. -/
structure Exits (c : Throttle.Control) (t : State) : Prop where
  callback : t.shutdownCallback = c.shutdownCallback
  token : t.gracefulDone = c.gracefulDone
  cancelled : t.mainCancelled = c.breaker.mainCancelled
  breaker : BreakerAt t c.breaker
  observer : ObserverAt c.observer t.observer
  shutdowns : ∀ i, ShutdownAt (c.shutdowns i) (t.calls (shutdownCall i))
  unused : ∃ n, ∀ k, n ≤ k → t.calls (tripCall k) = .idle
  inner : ∀ f j, t.inner f = some j → ∃ i, f = .call i ∧ t.calls i = .timedOut

theorem breaker_trip_of_ne {b : Throttle.BreakerPc} (h : b ≠ .armed) : b.trip = b := by
  cases b with
  | armed => exact absurd rfl h
  | _ => rfl

theorem State.free_of_none {t : State} {f : Frame} (h : t.inner f = none) : t.Free f := by
  intro j hj
  rw [h] at hj
  cases hj

namespace BreakerAt
variable {t t' : State} {b : Throttle.BreakerPc}

theorem frame (h : BreakerAt t b) (trip : t'.trip = t.trip)
    (payload : t'.emergencyShutdown = t.emergencyShutdown)
    (calls : ∀ k, (t.calls (tripCall k)).BeforeSend →
      t'.calls (tripCall k) = t.calls (tripCall k)) : BreakerAt t' b := by
  cases h with
  | armed slot empty => exact .armed (trip.trans slot) (payload.trans empty)
  | elected k r slot pc empty =>
    have hk := calls k (by rw [pc]; trivial)
    exact .elected k r (trip.trans slot) (hk.trans pc) (payload.trans empty)
  | cancelled k r slot pc empty =>
    have hk := calls k (by rw [pc]; trivial)
    exact .cancelled k r (trip.trans slot) (hk.trans pc) (payload.trans empty)
  | signalled r slot sent => exact .signalled r (trip.trans slot) (payload.trans sent)
  | delivered r slot => exact .delivered r (trip.trans slot)

/-- A call moves that is not the elected trip. -/
theorem update (h : BreakerAt t b) {i : Nat} {q : CallPc}
    (calls : t'.calls = Function.update t.calls i q) (trip : t'.trip = t.trip)
    (payload : t'.emergencyShutdown = t.emergencyShutdown) (outside : ¬ (t.calls i).BeforeSend) :
    BreakerAt t' b := by
  refine h.frame trip payload fun k hsend => ?_
  rw [calls]
  refine Function.update_of_ne ?_ _ _
  rintro rfl
  exact outside hsend

theorem trip_isSome (h : BreakerAt t b) (hb : b ≠ .armed) : t.trip.isSome = true := by
  cases h with
  | armed => exact absurd rfl hb
  | elected k r slot | cancelled k r slot | signalled r slot | delivered r slot =>
    rw [slot]
    rfl

end BreakerAt

namespace Exits
variable {c : Throttle.Control} {t : State} {i k : Nat} {q : CallPc}

theorem inner_none (h : Exits c t) (hpc : t.calls i ≠ .timedOut) : t.inner (.call i) = none := by
  cases hinner : t.inner (.call i) with
  | none => rfl
  | some j =>
    obtain ⟨i', hi', htimedOut⟩ := h.inner _ j hinner
    cases hi'
    exact absurd htimedOut hpc

theorem inner_observer (h : Exits c t) : t.inner .observer = none := by
  cases hinner : t.inner .observer with
  | none => rfl
  | some j =>
    obtain ⟨i, hi, _⟩ := h.inner _ j hinner
    cases hi

/-- A call that is not in a timed-out `Shutdown` moves. -/
theorem inner_update (h : Exits c t) (hpc : t.calls i ≠ .timedOut) (f : Frame) (j : Nat)
    (hf : t.inner f = some j) :
    ∃ i', f = .call i' ∧ Function.update t.calls i q i' = .timedOut := by
  obtain ⟨i', hi', htimedOut⟩ := h.inner f j hf
  refine ⟨i', hi', ?_⟩
  rw [Function.update_of_ne, htimedOut]
  rintro rfl
  exact hpc htimedOut

theorem stands (h : Exits c t) {p : Throttle.ShutdownPc} (pc : c.shutdowns i = p)
    (hp : p ≠ .returned) : t.calls (shutdownCall i) = callOf p := by
  rcases h.shutdowns i with hat | ⟨hreturned, _⟩
  · rw [hat, pc]
  · exact absurd (pc.symm.trans hreturned) hp

theorem setShutdown (h : Exits c t) {p : Throttle.ShutdownPc} (hat : ShutdownAt p q)
    (hpc : t.calls (shutdownCall i) ≠ .timedOut) :
    Exits (c.setShutdown i p) (t.setCall (shutdownCall i) q) where
  callback := h.callback
  token := h.token
  cancelled := h.cancelled
  breaker := h.breaker.frame rfl rfl fun k _ =>
    Function.update_of_ne (tripCall_ne_shutdownCall k i) _ _
  observer := h.observer
  shutdowns j := by
    by_cases hj : j = i
    · subst hj
      simpa [Throttle.Control.setShutdown, State.setCall] using hat
    · have hne : shutdownCall j ≠ shutdownCall i := by
        unfold shutdownCall
        omega
      simpa [Throttle.Control.setShutdown, State.setCall, Function.update_of_ne hj,
        Function.update_of_ne hne] using h.shutdowns j
  unused := by
    obtain ⟨n, hn⟩ := h.unused
    exact ⟨n, fun k hk =>
      (Function.update_of_ne (tripCall_ne_shutdownCall k i) _ _).trans (hn k hk)⟩
  inner := h.inner_update hpc

/-- A trip moves, and with it the breaker. -/
theorem setTrip (h : Exits c t) {t' : State} {b : Throttle.BreakerPc}
    (hpc : t.calls (tripCall k) ≠ .timedOut)
    (calls : t'.calls = Function.update t.calls (tripCall k) q)
    (callback : t'.shutdownCallback = t.shutdownCallback) (token : t'.gracefulDone = t.gracefulDone)
    (observer : t'.observer = t.observer) (inner : t'.inner = t.inner)
    (cancelled : t'.mainCancelled = b.mainCancelled) (breaker : BreakerAt t' b) :
    Exits { c with breaker := b } t' where
  callback := callback.trans h.callback
  token := token.trans h.token
  cancelled := cancelled
  breaker := breaker
  observer := observer ▸ h.observer
  shutdowns j := by
    rw [calls, Function.update_of_ne (tripCall_ne_shutdownCall k j).symm]
    exact h.shutdowns j
  unused := by
    obtain ⟨n, hn⟩ := h.unused
    refine ⟨max n (k + 1), fun k' hk' => ?_⟩
    have hne : tripCall k' ≠ tripCall k := by
      unfold tripCall
      omega
    rw [calls, Function.update_of_ne hne]
    exact hn k' (by omega)
  inner := by
    rw [inner, calls]
    exact h.inner_update hpc

/-- What neither a call nor the breaker sees. -/
theorem frame (h : Exits c t) {c' : Throttle.Control} {t' : State} (calls : t'.calls = t.calls)
    (inner : t'.inner = t.inner) (trip : t'.trip = t.trip)
    (payload : t'.emergencyShutdown = t.emergencyShutdown)
    (mainCancelled : t'.mainCancelled = t.mainCancelled) (shutdowns : c'.shutdowns = c.shutdowns)
    (breaker : c'.breaker = c.breaker) (callback : t'.shutdownCallback = c'.shutdownCallback)
    (token : t'.gracefulDone = c'.gracefulDone) (observer : ObserverAt c'.observer t'.observer) :
    Exits c' t' where
  callback := callback
  token := token
  cancelled := by rw [mainCancelled, breaker, h.cancelled]
  breaker := breaker ▸ h.breaker.frame trip payload fun k _ => congrFun calls (tripCall k)
  observer := observer
  shutdowns := by
    rw [shutdowns, calls]
    exact h.shutdowns
  unused := by
    rw [calls]
    exact h.unused
  inner := by
    rw [inner, calls]
    exact h.inner

theorem watching (h : Exits c t) (pc : c.observer = .watching) : t.observer = .watching := by
  have hat := h.observer
  rw [pc] at hat
  generalize t.observer = o at hat
  cases hat
  rfl

section Matching

/-- A trip that stands before the election goes through it. -/
theorem elect (h : Exits c t) {r : String} (hpc : t.calls (tripCall k) = .electing r) :
    ∃ t', builtSystem.Run t t' ∧ Exits c.trip t' := by
  have hmoves : t.calls (tripCall k) ≠ .timedOut := hpc.trans_ne CallPc.noConfusion
  by_cases hb : c.breaker = .armed
  · have hbreaker := h.breaker
    have hcancelled := h.cancelled
    rw [hb] at hbreaker hcancelled
    cases hbreaker with
    | armed slot empty =>
      refine ⟨_, .single (.trip (.win t _ r hpc slot)), ?_⟩
      rw [Throttle.Control.trip, hb]
      exact h.setTrip hmoves rfl rfl rfl rfl rfl hcancelled
        (.elected k r rfl (Function.update_self _ _ _) empty)
  · refine ⟨_, .single (.trip (.lose t _ r hpc (h.breaker.trip_isSome hb))), ?_⟩
    rw [Throttle.Control.trip, breaker_trip_of_ne hb]
    exact h.setTrip hmoves rfl rfl rfl rfl rfl h.cancelled
      (h.breaker.update rfl rfl rfl (by rw [hpc]; exact id))

/-- A call of `TriggerEmergencyShutdown` begins. -/
theorem call (h : Exits c t) (r : String) (fresh : t.calls (tripCall k) = .idle) :
    Exits c (t.setCall (tripCall k) (.electing r)) := by
  have hmoves : t.calls (tripCall k) ≠ .timedOut := fresh.trans_ne CallPc.noConfusion
  exact h.setTrip hmoves rfl rfl rfl rfl rfl h.cancelled
    (h.breaker.update rfl rfl rfl (by rw [fresh]; exact id))

theorem trip (h : Exits c t) : ∃ t', builtSystem.Run t t' ∧ Exits c.trip t' := by
  obtain ⟨n, hn⟩ := h.unused
  have hbegun := h.call (shutdownReason none) (hn n le_rfl)
  obtain ⟨t', hrun, ht'⟩ : ∃ t', builtSystem.Run _ t' ∧ Exits c.trip t' :=
    hbegun.elect (Function.update_self _ _ _)
  exact ⟨t', .head (.host (.trip t _ none (hn n le_rfl))) hrun, ht'⟩

/-- `Unsubscribe` times out and raises the trip before `Shutdown` returns. -/
theorem drainTimeout (h : Exits c t) (hpc : t.calls (shutdownCall i) = .unsubscribing) :
    ∃ t', builtSystem.Run t t' ∧ Exits (c.setShutdown i .returned).trip t' := by
  obtain ⟨n, hn⟩ := h.unused
  have hmoves : t.calls (shutdownCall i) ≠ .timedOut := hpc.trans_ne CallPc.noConfusion
  have hwaits : Exits (c.setShutdown i .returned) (t.setCall (shutdownCall i) .timedOut) :=
    h.setShutdown (.inr ⟨rfl, rfl⟩) hmoves
  have hfresh : (t.setCall (shutdownCall i) .timedOut).calls (tripCall n) = .idle :=
    (Function.update_of_ne (tripCall_ne_shutdownCall n i) _ _).trans (hn n le_rfl)
  have hbegun := hwaits.call (unsubscribeDrainTimeout "") hfresh
  have hinner : Exits (c.setShutdown i .returned) (((t.setCall (shutdownCall i) .timedOut).setCall
      (tripCall n) (.electing (unsubscribeDrainTimeout ""))).setInner (.call (shutdownCall i))
      (tripCall n)) := by
    refine ⟨hbegun.callback, hbegun.token, hbegun.cancelled,
      hbegun.breaker.frame rfl rfl fun _ _ => rfl, hbegun.observer, hbegun.shutdowns, hbegun.unused,
      fun f j hf => ?_⟩
    by_cases hcall : f = .call (shutdownCall i)
    · refine ⟨_, hcall, ?_⟩
      simp [State.setInner, State.setCall,
        Function.update_of_ne (tripCall_ne_shutdownCall n i).symm]
    · exact hbegun.inner f j (by simpa [State.setInner, Function.update_of_ne hcall] using hf)
  obtain ⟨t', hrun, ht'⟩ : ∃ t', builtSystem.Run _ t' ∧
      Exits (c.setShutdown i .returned).trip t' := hinner.elect (Function.update_self _ _ _)
  exact ⟨t', .head (.shutdown (.drainTimeout t _ _ "" hpc (hn n le_rfl))) hrun, ht'⟩

/-- The elected trip writes the reason and cancels the main context. -/
theorem cancel (h : Exits c t) (hb : c.breaker = .elected) :
    ∃ t', builtSystem.Run t t' ∧ Exits { c with breaker := .cancelled } t' := by
  have hbreaker := h.breaker
  rw [hb] at hbreaker
  cases hbreaker with
  | elected k r slot pc empty =>
    have hwritten : builtSystem.Run t _ := .single (.trip (.writeReason t _ r pc))
    have hcancelled := hwritten.tail (.trip (.cancel _ (tripCall k) r (Function.update_self _ _ _)))
    refine ⟨_, hcancelled, ?_⟩
    refine h.setTrip (k := k) (q := .latching r) (pc.trans_ne CallPc.noConfusion)
      (Function.update_idem _ _ _) rfl rfl rfl rfl rfl ?_
    exact .cancelled k r slot (Function.update_self _ _ _) empty

/-- It closes the latch, logs twice and sends the payload. -/
theorem signal (h : Exits c t) (hb : c.breaker = .cancelled) :
    ∃ t', builtSystem.Run t t' ∧ Exits { c with breaker := .signalled } t' := by
  have hbreaker := h.breaker
  have hcancelled := h.cancelled
  rw [hb] at hbreaker hcancelled
  cases hbreaker with
  | cancelled k r slot pc empty =>
    have hmoves : t.calls (tripCall k) ≠ .timedOut := pc.trans_ne CallPc.noConfusion
    have hnone := h.inner_none hmoves
    have hlatched : builtSystem.Run t _ := .single (.trip (.latch t _ r pc))
    have hinitiated := hlatched.tail (.trip (.logInitiated _ (tripCall k) r
      (Function.update_self _ _ _) (State.free_of_none hnone)))
    have hlogged := hinitiated.tail (.trip (.logCancelled _ (tripCall k) r
      (Function.update_self _ _ _) (State.free_of_none hnone)))
    have hsent := hlogged.tail (.trip (.send _ (tripCall k) r (Function.update_self _ _ _)
      (by simp [State.setCall, empty])))
    refine ⟨_, hsent, ?_⟩
    refine h.setTrip (q := .closing) hmoves (by simp [State.setCall]) rfl rfl rfl rfl hcancelled ?_
    exact .signalled r slot (by simp [State.setCall, empty])

/-- `Shutdown` returns nil behind `Unsubscribe`: it invokes the callback if the notify slot is
free. -/
theorem finish (h : Exits c t) (hpc : t.calls (shutdownCall i) = .claiming) :
    ∃ t', builtSystem.Run t t' ∧
      Exits { c.setShutdown i .returned with gracefulDone := true } t' := by
  have hmoves : t.calls (shutdownCall i) ≠ .timedOut := hpc.trans_ne CallPc.noConfusion
  have hnone := h.inner_none hmoves
  have hreturned : Exits (c.setShutdown i .returned)
      (t.setCall (shutdownCall i) (.returned false)) := h.setShutdown (.inl rfl) hmoves
  cases hslot : t.notify with
  | true =>
    have hrefused : builtSystem.Run t _ :=
      .single (.shutdown (.refuse t _ hpc hslot))
    have hsignalled := hrefused.tail (.shutdown (.signal _ _ (Function.update_self _ _ _)))
    exact ⟨_, hsignalled, hreturned.frame (Function.update_idem _ _ _) rfl rfl rfl rfl rfl rfl
      h.callback rfl h.observer⟩
  | false =>
    have hclaimed : builtSystem.Run t _ :=
      .single (.shutdown (.claim t _ hpc hslot))
    have hinvoked := hclaimed.tail (.shutdown (.invoke _ _ _ (Function.update_self _ _ _)
      (State.free_of_none hnone)))
    have hback := hinvoked.tail (.shutdown (.callbackReturn _ _ (Function.update_self _ _ _)
      (State.free_of_none hnone)))
    have hsignalled := hback.tail (.shutdown (.signal _ _ (Function.update_self _ _ _)))
    exact ⟨_, hsignalled, hreturned.frame (by simp [State.setCall]) rfl rfl rfl rfl rfl rfl
      h.callback rfl h.observer⟩

/-- The observer stores the reason and invokes the callback if it may. -/
theorem deliver (h : Exits c t) {msg : String} (hpc : t.observer = .exiting msg) :
    ∃ t', builtSystem.Run t t' ∧ Exits { c with observer := .finished } t' := by
  have hstored : builtSystem.Run t _ :=
    .single (.observe (.storeReason t msg hpc))
  cases hcallback : t.shutdownCallback with
  | false =>
    have hdone := hstored.tail (.observe (.noCallback _ msg rfl hcallback))
    exact ⟨_, hdone, h.frame rfl rfl rfl rfl rfl rfl rfl h.callback h.token .finished⟩
  | true =>
    have hloaded := hstored.tail (.observe (.callback _ msg rfl hcallback))
    cases hslot : t.notify with
    | true =>
      have hdone := hloaded.tail (.observe (.refuse _ msg rfl hslot))
      exact ⟨_, hdone, h.frame rfl rfl rfl rfl rfl rfl rfl h.callback h.token .finished⟩
    | false =>
      have hclaimed := hloaded.tail (.observe (.claim _ msg rfl hslot))
      have hinvoked := hclaimed.tail (.observe (.invoke _ msg _ rfl))
      have hdone := hinvoked.tail (.observe (.callbackReturn _ rfl
        (State.free_of_none h.inner_observer)))
      exact ⟨_, hdone, h.frame rfl rfl rfl rfl rfl rfl rfl h.callback h.token .finished⟩

variable {L : Throttle.RateLimiter} {s s' : Throttle.State L} {kind : Throttle.Kind}

end Matching

end Exits

end LlingrDemux.Consumer
