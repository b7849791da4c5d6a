import LlingrDemux.Consumer.Exits

/-!
# The limiter's model covers every exit

The other direction of the comparison: whatever the breaker, `Shutdown` calls and the observer do
in single steps, with calls nested in host code, the model of the rate limiter can follow, by its
larger steps or by none. A `Shutdown` that has timed out follows once its trip has returned.
-/

namespace LlingrDemux.Consumer

open Shared
set_option autoImplicit false

/-! ## The trip behind a timeout -/

/-- The call is a `TriggerEmergencyShutdown`. -/
def CallPc.Trips : CallPc → Prop
  | .electing _ | .won _ | .cancelling _ | .latching _ | .initiated _ | .stopped _ | .sending _
  | .closing | .complete | .tripReturned => True
  | _ => False

/-- And it is behind the election. -/
def CallPc.Tripped : CallPc → Prop
  | .won _ | .cancelling _ | .latching _ | .initiated _ | .stopped _ | .sending _
  | .closing | .complete | .tripReturned => True
  | _ => False

/-- A `Shutdown` that timed out waits for a trip, and no election leaves the slot empty. -/
structure Raised (s : State) : Prop where
  timedOut : ∀ i, s.calls i = .timedOut → ∃ j, s.inner (.call i) = some j ∧ (s.calls j).Trips
  tripped : ∀ j, (s.calls j).Tripped → s.trip.isSome = true

namespace Raised
variable {s s' : State} {i : Nat} {q : CallPc}

theorem move (h : Raised s) (calls : s'.calls = Function.update s.calls i q)
    (inner : ∀ k, s.calls k = .timedOut → s'.inner (.call k) = s.inner (.call k))
    (trip : s.trip.isSome = true → s'.trip.isSome = true) (waits : q ≠ .timedOut)
    (trips : (s.calls i).Trips → q.Trips) (tripped : q.Tripped → s'.trip.isSome = true) :
    Raised s' := by
  constructor
  · intro k hk
    have hki : k ≠ i := by
      rintro rfl
      rw [calls, Function.update_self] at hk
      exact waits hk
    rw [calls, Function.update_of_ne hki] at hk
    obtain ⟨j, hj, htrips⟩ := h.timedOut k hk
    refine ⟨j, (inner k hk).trans hj, ?_⟩
    rw [calls]
    by_cases hji : j = i
    · subst hji
      rw [Function.update_self]
      exact trips htrips
    · rwa [Function.update_of_ne hji]
  · rw [calls]
    exact (Function.forall_update_iff s.calls fun _ p => p.Tripped → s'.trip.isSome = true).mpr
      ⟨tripped, fun j _ hj => trip (h.tripped j hj)⟩

theorem same (h : Raised s) (calls : s'.calls = s.calls) (inner : s'.inner = s.inner)
    (trip : s'.trip = s.trip) : Raised s' := by
  refine ⟨?_, ?_⟩
  · rw [calls, inner]
    exact h.timedOut
  · rw [calls, trip]
    exact h.tripped

theorem tripStep (h : Raised s) (step : TripStep s s') : Raised s' := by
  cases step with
  | win i r pc slot =>
    exact h.move rfl (fun _ _ => rfl) (fun _ => rfl) CallPc.noConfusion (fun _ => trivial)
      fun _ => rfl
  | lose i r pc slot =>
    exact h.move rfl (fun _ _ => rfl) id CallPc.noConfusion (fun _ => trivial) fun _ => slot
  | writeReason i r pc | cancel i r pc | latch i r pc | logInitiated i r pc | logCancelled i r pc
  | send i r pc | close i pc | logComplete i pc =>
    have hslot : s.trip.isSome = true := h.tripped i (by rw [pc]; trivial)
    exact h.move rfl (fun _ _ => rfl) id CallPc.noConfusion (fun _ => trivial) fun _ => hslot

theorem shutdownStep (h : Raised s) (step : ShutdownStep s s') : Raised s' := by
  cases step with
  | logInvoked i pc | noCallback i pc | callback i pc | unsubscribed i pc | fail i pc | claim i pc
  | refuse i pc | invoke i latched pc | callbackReturn i pc | signal i pc =>
    refine h.move rfl (fun _ _ => rfl) id CallPc.noConfusion (fun htrips => ?_) False.elim
    rw [pc] at htrips
    exact htrips
  | drainTimeout i j timeout pc fresh =>
    have hij : i ≠ j := by
      rintro rfl
      exact CallPc.noConfusion (pc.symm.trans fresh)
    constructor
    · intro k hk
      by_cases hki : k = i
      · subst hki
        refine ⟨j, Function.update_self _ _ _, ?_⟩
        simp [State.setInner, State.setCall, CallPc.Trips]
      · have hkj : k ≠ j := by
          rintro rfl
          simp [State.setInner, State.setCall] at hk
        have hold : s.calls k = .timedOut := by
          simpa [State.setInner, State.setCall, hki, hkj] using hk
        obtain ⟨j', hj', htrips⟩ := h.timedOut k hold
        -- the other trip is neither this `Shutdown` nor the call that begins
        have hji : j' ≠ i := by
          rintro rfl
          rw [pc] at htrips
          exact htrips
        have hjj : j' ≠ j := by
          rintro rfl
          rw [fresh] at htrips
          exact htrips
        exact ⟨j', by simpa [State.setInner, State.setCall, hki] using hj',
          by simpa [State.setInner, State.setCall, hji, hjj] using htrips⟩
    · have hwaits : ∀ k, ((s.setCall i .timedOut).calls k).Tripped → s.trip.isSome = true :=
        (Function.forall_update_iff s.calls fun _ p => p.Tripped → s.trip.isSome = true).mpr
          ⟨False.elim, fun k _ => h.tripped k⟩
      exact (Function.forall_update_iff _ fun _ (p : CallPc) =>
        p.Tripped → s.trip.isSome = true).mpr ⟨False.elim, fun k _ => hwaits k⟩

theorem observerStep (h : Raised s) (step : ObserverStep s s') : Raised s' := by
  cases step with
  | receive | receiveClosed | receiveToken | storeReason | noCallback | callback | claim | refuse
  | invoke | callbackReturn => exact h.same rfl rfl rfl

/-- A frame that runs host code has not timed out. -/
theorem inner_within {f : Frame} {j : Nat} (host : s.InHost f) (k : Nat)
    (hk : s.calls k = .timedOut) :
    Function.update s.inner f (some j) (.call k) = s.inner (.call k) := by
  refine Function.update_of_ne ?_ _ _
  rintro rfl
  rw [State.InHost, hk] at host
  exact host

theorem hostStep (h : Raised s) (step : HostStep s s') : Raised s' := by
  cases step with
  | trip j reason fresh =>
    exact h.move rfl (fun _ _ => rfl) id CallPc.noConfusion (fun _ => trivial) False.elim
  | tripWithin f j reason host free fresh =>
    exact h.move rfl (inner_within host) id CallPc.noConfusion (fun _ => trivial) False.elim
  | shutdown j fresh =>
    refine h.move rfl (fun _ _ => rfl) id CallPc.noConfusion (fun htrips => ?_) False.elim
    rw [fresh] at htrips
    exact htrips
  | shutdownWithin f j host free fresh =>
    refine h.move rfl (inner_within host) id CallPc.noConfusion (fun htrips => ?_) False.elim
    rw [fresh] at htrips
    exact htrips
  | register => exact h.same rfl rfl rfl

theorem of_reachable {registered : Bool} (h : (consumerSystem registered).Reachable s) :
    Raised s := by
  refine consumer_invariant ?_ (fun _ _ => tripStep) (fun _ _ => shutdownStep)
    (fun _ _ _ => observerStep) (fun _ _ => hostStep) h
  exact ⟨fun _ hi => CallPc.noConfusion hi, fun _ => False.elim⟩

/-- When a timed-out `Shutdown` may return, the breaker has been tripped. -/
theorem trip_of_free (h : Raised s) (pc : s.calls i = .timedOut) (free : s.Free (.call i)) :
    s.trip.isSome = true := by
  obtain ⟨j, hj, htrips⟩ := h.timedOut i pc
  have hfinished := free j hj
  refine h.tripped j ?_
  cases hq : s.calls j <;> simp_all [CallPc.Finished, CallPc.Trips, CallPc.Tripped]

end Raised

/-! ## The matching control -/

def CallPc.shutdownPc : CallPc → Throttle.ShutdownPc
  | .invoked => .invoked
  | .loading => .loading
  | .unsubscribing | .timedOut => .unsubscribing
  | .claiming | .claimed _ | .callingBack => .finishing
  | .signalling | .returned _ => .returned
  | _ => .idle

def CallPc.breakerPc : CallPc → Option Throttle.BreakerPc
  | .won _ | .cancelling _ => some .elected
  | .latching _ | .initiated _ | .stopped _ | .sending _ => some .cancelled
  | _ => none

def ObserverPc.limiterPc : ObserverPc → Throttle.ObserverPc
  | .watching => .watching
  | .exiting _ => .exiting
  | .loading _ | .claiming _ | .claimed _ _ | .callingBack => .delivering
  | .finished => .finished

/-- How far the breaker is. -/
structure BreakerCovers (t : State) (b : Throttle.BreakerPc) : Prop where
  tripped : b = .armed ↔ t.trip = none
  cancelled : b.mainCancelled = t.mainCancelled
  elected : ∀ i p, (t.calls i).breakerPc = some p → b = p
  payload : t.observer = .watching → t.emergencyShutdown ≠ [] → b = .signalled

/-- The goroutine of `Unsubscribe` offers `stopPolling` while `Shutdown` waits for it. -/
structure Standing (q : CallPc) (p : Throttle.ShutdownPc) (u : Throttle.UnsubscribePc) : Prop where
  pc : p = q.shutdownPc
  offers : q = .unsubscribing → u = .stopPolling

/-- A graceful token is there before the `Shutdown` that sends it has sent it, for an observer that
still watches. -/
structure Covers (t : State) (c : Throttle.Control) : Prop where
  callback : c.shutdownCallback = t.shutdownCallback
  observer : c.observer = t.observer.limiterPc
  token : t.observer = .watching → (t.gracefulDone = true ∨ ∃ i, t.calls i = .signalling) →
    c.gracefulDone = true
  breaker : BreakerCovers t c.breaker
  calls : ∀ i, Standing (t.calls i) (c.shutdowns i) (c.unsubscribes (.shutdown i))

namespace BreakerCovers
variable {t t' : State} {b : Throttle.BreakerPc} {i : Nat} {q : CallPc}

theorem elected_update (calls : t'.calls = Function.update t.calls i q)
    (moved : ∀ p, q.breakerPc = some p → b = p)
    (others : ∀ j, j ≠ i → ∀ p, (t.calls j).breakerPc = some p → b = p) :
    ∀ j p, (t'.calls j).breakerPc = some p → b = p := by
  rw [calls]
  exact (Function.forall_update_iff t.calls fun _ (q : CallPc) =>
    ∀ p, q.breakerPc = some p → b = p).mpr ⟨moved, others⟩

/-- A call moves and the breaker stays where it is. -/
theorem move (h : BreakerCovers t b) (calls : t'.calls = Function.update t.calls i q)
    (trip : t'.trip = t.trip) (cancelled : t'.mainCancelled = t.mainCancelled)
    (payload : t'.emergencyShutdown = t.emergencyShutdown) (observer : t'.observer = t.observer)
    (same : ∀ p, q.breakerPc = some p → (t.calls i).breakerPc = some p) : BreakerCovers t' b where
  tripped := by rw [trip, h.tripped]
  cancelled := by rw [cancelled, h.cancelled]
  elected := elected_update calls (fun p hp => h.elected i p (same p hp)) fun j _ => h.elected j
  payload := by
    rw [payload, observer]
    exact h.payload

/-- A call moves that is not the elected trip. -/
theorem beside (h : BreakerCovers t b) (calls : t'.calls = Function.update t.calls i q)
    (trip : t'.trip = t.trip) (cancelled : t'.mainCancelled = t.mainCancelled)
    (payload : t'.emergencyShutdown = t.emergencyShutdown) (observer : t'.observer = t.observer)
    (outside : q.breakerPc = none) : BreakerCovers t' b := by
  refine h.move calls trip cancelled payload observer fun p hp => ?_
  rw [outside] at hp
  cases hp

/-- No call moves. -/
theorem watch (h : BreakerCovers t b) (calls : t'.calls = t.calls) (trip : t'.trip = t.trip)
    (cancelled : t'.mainCancelled = t.mainCancelled)
    (payload : t'.observer = .watching → t.observer = .watching ∧
      t'.emergencyShutdown = t.emergencyShutdown) : BreakerCovers t' b where
  tripped := by rw [trip, h.tripped]
  cancelled := by rw [cancelled, h.cancelled]
  elected := by
    rw [calls]
    exact h.elected
  payload hw hne := by
    obtain ⟨hwatch, hsame⟩ := payload hw
    exact h.payload hwatch (hsame ▸ hne)

/-- The observer moves on from its `select`. -/
theorem leave (h : BreakerCovers t b) (calls : t'.calls = t.calls) (trip : t'.trip = t.trip)
    (cancelled : t'.mainCancelled = t.mainCancelled) (left : t'.observer ≠ .watching) :
    BreakerCovers t' b :=
  h.watch calls trip cancelled fun hw => absurd hw left

/-- The elected trip moves alone. -/
theorem advance (tripping : Tripping t) (calls : t'.calls = Function.update t.calls i q)
    (hi : (t.calls i).BeforeSend) (hq : ∀ p, q.breakerPc = some p → b = p) :
    ∀ j p, (t'.calls j).breakerPc = some p → b = p := by
  obtain ⟨_, ⟨_, hsent, _⟩, _⟩ := tripping
  refine elected_update calls hq fun j hji p hp => ?_
  have hj : (t.calls j).BeforeSend := by
    cases hpc : t.calls j <;> simp_all [CallPc.breakerPc, CallPc.BeforeSend]
  exact absurd (((hsent.pending hi).2.2 j).mp hj) hji

theorem win (h : BreakerCovers t .armed) (r : String) :
    BreakerCovers { t.setCall i (.won r) with trip := some r } .elected where
  tripped := by simp
  cancelled := h.cancelled
  elected := by
    refine elected_update (t := t) rfl (fun p hp => Option.some.inj hp) fun j _ p hp => ?_
    -- before the election no call is behind it
    have harmed := h.elected j p hp
    subst harmed
    cases hq : t.calls j <;> simp [hq, CallPc.breakerPc] at hp
  payload hw hne := Throttle.BreakerPc.noConfusion (h.payload hw hne)

theorem cancel (h : BreakerCovers t .elected) (tripping : Tripping t) {r : String}
    (pc : t.calls i = .cancelling r) :
    BreakerCovers { t.setCall i (.latching r) with mainCancelled := true } .cancelled where
  tripped := iff_of_false Throttle.BreakerPc.noConfusion
    fun hnone => Throttle.BreakerPc.noConfusion (h.tripped.mpr hnone)
  cancelled := rfl
  elected := advance tripping rfl (by rw [pc]; trivial) fun _ hp => Option.some.inj hp
  payload hw hne := Throttle.BreakerPc.noConfusion (h.payload hw hne)

theorem send (h : BreakerCovers t .cancelled) (tripping : Tripping t) {r : String}
    (pc : t.calls i = .sending r) :
    BreakerCovers { t.setCall i .closing with
      emergencyShutdown := t.emergencyShutdown ++ [signalMessage r] } .signalled where
  tripped := iff_of_false Throttle.BreakerPc.noConfusion
    fun hnone => Throttle.BreakerPc.noConfusion (h.tripped.mpr hnone)
  cancelled := h.cancelled
  elected := advance tripping rfl (by rw [pc]; trivial) fun _ hp => by cases hp
  payload _ _ := rfl

/-- The observer takes the payload. -/
theorem receive (h : BreakerCovers t .signalled) (calls : t'.calls = t.calls)
    (trip : t'.trip = t.trip) (cancelled : t'.mainCancelled = t.mainCancelled)
    (left : t'.observer ≠ .watching) : BreakerCovers t' .delivered where
  tripped := by
    rw [trip, ← h.tripped]
    simp
  cancelled := cancelled ▸ h.cancelled
  elected j p hp := by
    rw [calls] at hp
    have hsignalled := h.elected j p hp
    subst hsignalled
    cases hq : t.calls j <;> simp [hq, CallPc.breakerPc] at hp
  payload hw := absurd hw left

end BreakerCovers

namespace Covers

theorem initial (registered : Bool) :
    Covers { shutdownCallback := registered } { shutdownCallback := registered } where
  callback := rfl
  observer := rfl
  token := by
    rintro _ (hdone | ⟨i, hi⟩)
    · exact hdone
    · cases hi
  breaker := ⟨by simp, rfl, fun _ _ hp => absurd hp (by simp [CallPc.breakerPc]),
    fun _ hne => absurd rfl hne⟩
  calls _ := ⟨rfl, CallPc.noConfusion⟩

variable {t t' : State} {c c' : Throttle.Control} {i : Nat} {q : CallPc}

/-- One call moves; the other calls stand where they stood. -/
theorem move (h : Covers t c) (calls : t'.calls = Function.update t.calls i q)
    (callback : c'.shutdownCallback = t'.shutdownCallback)
    (watches : t'.observer = t.observer) (observer : c'.observer = c.observer)
    (token : t.observer = .watching →
      (t'.gracefulDone = true ∨ ∃ j, t'.calls j = .signalling) → c'.gracefulDone = true)
    (breaker : BreakerCovers t' c'.breaker)
    (stands : Standing q (c'.shutdowns i) (c'.unsubscribes (.shutdown i)))
    (others : ∀ j, j ≠ i → c'.shutdowns j = c.shutdowns j ∧
      c'.unsubscribes (.shutdown j) = c.unsubscribes (.shutdown j)) : Covers t' c' where
  callback := callback
  observer := by rw [observer, watches, h.observer]
  token := by
    rw [watches]
    exact token
  breaker := breaker
  calls := by
    rw [calls]
    refine (Function.forall_update_iff t.calls fun j q =>
      Standing q (c'.shutdowns j) (c'.unsubscribes (.shutdown j))).mpr ⟨stands, fun j hj => ?_⟩
    rw [(others j hj).1, (others j hj).2]
    exact h.calls j

/-- A token that an observer may find was sent before, or a `Shutdown` is about to send it. -/
theorem token_update (h : Covers t c) (calls : t'.calls = Function.update t.calls i q)
    (done : t'.gracefulDone = t.gracefulDone) (hq : q ≠ .signalling) (hw : t.observer = .watching)
    (htoken : t'.gracefulDone = true ∨ ∃ j, t'.calls j = .signalling) : c.gracefulDone = true := by
  refine h.token hw ?_
  rcases htoken with htoken | ⟨j, hj⟩
  · exact .inl (done ▸ htoken)
  · refine .inr ⟨j, ?_⟩
    rw [calls] at hj
    by_cases hji : j = i
    · subst hji
      rw [Function.update_self] at hj
      exact absurd hj hq
    · rwa [Function.update_of_ne hji] at hj

/-- A call moves between places that are one in the limiter's model. -/
theorem stay (h : Covers t c) (calls : t'.calls = Function.update t.calls i q)
    (callback : t'.shutdownCallback = t.shutdownCallback) (watches : t'.observer = t.observer)
    (done : t'.gracefulDone = t.gracefulDone) (breaker : BreakerCovers t' c.breaker)
    (hq : q ≠ .signalling ∧ q ≠ .unsubscribing) (same : q.shutdownPc = (t.calls i).shutdownPc) :
    Covers t' c :=
  h.move calls (h.callback.trans callback.symm) watches rfl (h.token_update calls done hq.1) breaker
    ⟨(h.calls i).pc.trans same.symm, fun hu => absurd hu hq.2⟩ fun _ _ => ⟨rfl, rfl⟩

theorem stands (h : Covers t c) (pc : t.calls i = q) : c.shutdowns i = q.shutdownPc := by
  rw [(h.calls i).pc, pc]

variable {L : Throttle.RateLimiter} {s : Throttle.State L}

theorem tripStep (h : Covers t s.control) (tripping : Tripping t) (hstep : TripStep t t') :
    ∃ s', (Throttle.throttledSystem L).Run s s' ∧ Covers t' s'.control := by
  have hb := h.breaker
  cases hstep with
  | win i r pc slot =>
    have harmed := hb.tripped.mpr slot
    rw [harmed] at hb
    refine ⟨_, .single ⟨_, .control (.trip s.control)⟩, ?_⟩
    refine h.move rfl h.callback rfl rfl (h.token_update rfl rfl (by simp)) ?_
      ⟨(h.stands pc).trans rfl, by simp⟩ fun _ _ => ⟨rfl, rfl⟩
    rw [Throttle.Control.trip, harmed]
    exact hb.win r
  | cancel i r pc =>
    have helected : s.control.breaker = .elected := hb.elected i _ (by rw [pc]; rfl)
    rw [helected] at hb
    refine ⟨_, .single ⟨_, .control (.cancel s.control helected)⟩, ?_⟩
    exact h.move rfl h.callback rfl rfl (h.token_update rfl rfl (by simp)) (hb.cancel tripping pc)
      ⟨(h.stands pc).trans rfl, by simp⟩ fun _ _ => ⟨rfl, rfl⟩
  | send i r pc room =>
    have hcancelled : s.control.breaker = .cancelled := hb.elected i _ (by rw [pc]; rfl)
    rw [hcancelled] at hb
    refine ⟨_, .single ⟨_, .control (.signal s.control hcancelled)⟩, ?_⟩
    exact h.move rfl h.callback rfl rfl (h.token_update rfl rfl (by simp)) (hb.send tripping pc)
      ⟨(h.stands pc).trans rfl, by simp⟩ fun _ _ => ⟨rfl, rfl⟩
  | lose i r pc | writeReason i r pc | latch i r pc | logInitiated i r pc | logCancelled i r pc
  | close i pc | logComplete i pc =>
    refine ⟨s, .refl, h.stay rfl rfl rfl rfl (hb.move rfl rfl rfl rfl rfl ?_) (by simp)
      (by rw [pc]; rfl)⟩
    rw [pc]
    exact fun _ => id

/-- The goroutine of `Unsubscribe` runs to its end. -/
theorem unsubscribed (h : Covers t s.control) (pc : t.calls i = .unsubscribing) :
    ∃ s', (Throttle.throttledSystem L).Run s s' ∧ Covers (t.setCall i .claiming) s'.control := by
  have hoffers := (h.calls i).offers pc
  have hat : s.control.shutdowns i = .unsubscribing := h.stands pc
  have hstopped : (Throttle.throttledSystem L).Run s _ :=
    .single ⟨_, .control (.stopPollingTimeout s.control (.shutdown i) hoffers)⟩
  have hdrained := hstopped.tail
    ⟨_, .control (.drained _ (.shutdown i) (Function.update_self _ _ _))⟩
  have hleft := hdrained.tail
    ⟨_, .control (.brokerUnsubscribed _ (.shutdown i) (Function.update_self _ _ _))⟩
  have hdone := hleft.tail ⟨_, .control (.unsubscribed _ i hat (Function.update_self _ _ _))⟩
  refine ⟨_, hdone, h.move rfl h.callback rfl rfl (h.token_update rfl rfl (by simp))
    (h.breaker.beside rfl rfl rfl rfl rfl rfl) ⟨Function.update_self _ _ _, by simp⟩ ?_⟩
  intro j hj
  simp [Throttle.Control.setShutdown, Throttle.Control.setUnsubscribe, hj]

/-- A `Shutdown` that has timed out still waits, for the trip that begins. -/
theorem drainTimeout (h : Covers t c) {j : Nat} (timeout : String)
    (pc : t.calls i = .unsubscribing) (fresh : t.calls j = .idle) :
    Covers (((t.setCall i .timedOut).setCall j
      (.electing (unsubscribeDrainTimeout timeout))).setInner (.call i) j) c := by
  have hji : j ≠ i := by
    rintro rfl
    exact CallPc.noConfusion (pc.symm.trans fresh)
  have hwaits : Covers (t.setCall i .timedOut) c :=
    h.stay rfl rfl rfl rfl (h.breaker.beside rfl rfl rfl rfl rfl rfl) (by simp) (by rw [pc]; rfl)
  have hidle : (t.setCall i .timedOut).calls j = .idle :=
    (Function.update_of_ne hji _ _).trans fresh
  exact hwaits.stay (i := j) rfl rfl rfl rfl (hwaits.breaker.beside rfl rfl rfl rfl rfl rfl)
    (by simp) (by rw [hidle]; rfl)

/-- It returns behind its trip, which leaves the breaker where it is. -/
theorem fail (h : Covers t s.control) (pc : t.calls i = .timedOut)
    (tripped : t.trip.isSome = true) :
    ∃ s', (Throttle.throttledSystem L).Run s s' ∧
      Covers (t.setCall i (.returned true)) s'.control := by
  have hne : s.control.breaker ≠ .armed := by
    intro harmed
    rw [h.breaker.tripped.mp harmed] at tripped
    cases tripped
  have hat : s.control.shutdowns i = .unsubscribing := h.stands pc
  refine ⟨_, .single ⟨_, .control (.drainTimeout s.control i hat)⟩, ?_⟩
  refine h.move rfl h.callback rfl rfl (h.token_update rfl rfl (by simp)) ?_
    ⟨Function.update_self _ _ _, by simp⟩ fun j hj => ⟨Function.update_of_ne hj _ _, rfl⟩
  rw [Throttle.Control.trip, Throttle.Control.setShutdown, breaker_trip_of_ne hne]
  exact h.breaker.beside rfl rfl rfl rfl rfl rfl

theorem shutdownStep (h : Covers t s.control) (raised : Raised t) (hstep : ShutdownStep t t') :
    ∃ s', (Throttle.throttledSystem L).Run s s' ∧ Covers t' s'.control := by
  have hb := h.breaker
  cases hstep with
  | logInvoked i pc =>
    have hat : s.control.shutdowns i = .invoked := h.stands pc
    refine ⟨_, .single ⟨_, .shutdownStop i hat⟩, ?_⟩
    exact h.move rfl h.callback rfl rfl (h.token_update rfl rfl (by simp))
      (hb.beside rfl rfl rfl rfl rfl rfl) ⟨Function.update_self _ _ _, by simp⟩
      fun j hj => ⟨Function.update_of_ne hj _ _, rfl⟩
  | noCallback i pc callback =>
    have hat : s.control.shutdowns i = .loading := h.stands pc
    refine ⟨_, .single ⟨_, .control (.noCallback s.control i hat (h.callback.trans callback))⟩, ?_⟩
    exact h.move rfl h.callback rfl rfl (fun _ _ => rfl) (hb.beside rfl rfl rfl rfl rfl rfl)
      ⟨Function.update_self _ _ _, by simp⟩ fun j hj => ⟨Function.update_of_ne hj _ _, rfl⟩
  | callback i pc callback =>
    have hat : s.control.shutdowns i = .loading := h.stands pc
    refine ⟨_, .single ⟨_, .control (.callback s.control i hat (h.callback.trans callback))⟩, ?_⟩
    refine h.move rfl h.callback rfl rfl (h.token_update rfl rfl (by simp))
      (hb.beside rfl rfl rfl rfl rfl rfl)
      ⟨Function.update_self _ _ _, fun _ => Function.update_self _ _ _⟩ fun j hj => ?_
    exact ⟨Function.update_of_ne hj _ _, Function.update_of_ne (by simpa using hj) _ _⟩
  | unsubscribed i pc => exact h.unsubscribed pc
  | drainTimeout i j timeout pc fresh => exact ⟨s, .refl, h.drainTimeout timeout pc fresh⟩
  | fail i pc free => exact h.fail pc (raised.trip_of_free pc free)
  | claim i pc | invoke i latched pc =>
    exact ⟨s, .refl, h.stay rfl rfl rfl rfl (hb.beside rfl rfl rfl rfl rfl rfl) (by simp)
      (by rw [pc]; rfl)⟩
  | refuse i pc | callbackReturn i pc =>
    have hat : s.control.shutdowns i = .finishing := h.stands pc
    refine ⟨_, .single ⟨_, .control (.finish s.control i hat)⟩, ?_⟩
    exact h.move rfl h.callback rfl rfl (fun _ _ => rfl) (hb.beside rfl rfl rfl rfl rfl rfl)
      ⟨Function.update_self _ _ _, by simp⟩ fun j hj => ⟨Function.update_of_ne hj _ _, rfl⟩
  | signal i pc =>
    exact ⟨s, .refl, h.move rfl h.callback rfl rfl (fun hw _ => h.token hw (.inr ⟨i, pc⟩))
      (hb.beside rfl rfl rfl rfl rfl rfl) ⟨(h.stands pc).trans rfl, by simp⟩
      fun _ _ => ⟨rfl, rfl⟩⟩

theorem leave (h : Covers t c) (calls : t'.calls = t.calls)
    (callback : t'.shutdownCallback = t.shutdownCallback) (left : t'.observer ≠ .watching)
    (observer : c'.observer = t'.observer.limiterPc) (breaker : BreakerCovers t' c'.breaker)
    (registered : c'.shutdownCallback = c.shutdownCallback) (shutdowns : c'.shutdowns = c.shutdowns)
    (unsubscribes : c'.unsubscribes = c.unsubscribes) : Covers t' c' where
  callback := by rw [registered, callback, h.callback]
  observer := observer
  token hw := absurd hw left
  breaker := breaker
  calls := by
    rw [calls, shutdowns, unsubscribes]
    exact h.calls

theorem observerStep (h : Covers t s.control) (tripping : Tripping t) (told : Told t)
    (hstep : ObserverStep t t') :
    ∃ s', (Throttle.throttledSystem L).Run s s' ∧ Covers t' s'.control := by
  have hb := h.breaker
  have hobserver := h.observer
  cases hstep with
  | receive msg rest pc payload =>
    obtain ⟨r, _, hmsg⟩ := told.payload msg (by rw [payload]; exact List.mem_cons_self)
    have hne : msg ≠ "" := hmsg ▸ signalMessage_ne r
    have hsignalled : s.control.breaker = .signalled := hb.payload pc (by rw [payload]; simp)
    rw [hsignalled] at hb
    rw [pc] at hobserver
    refine ⟨_, .single ⟨_, .control (.observe s.control hobserver hsignalled)⟩, ?_⟩
    simp only [if_neg hne]
    exact h.leave rfl rfl (by simp) rfl (hb.receive rfl rfl rfl (by simp)) rfl rfl rfl
  | receiveClosed pc empty closed => exact absurd empty (tripping.payload_of_closed closed pc)
  | receiveToken pc token =>
    rw [pc] at hobserver
    refine ⟨_, .single ⟨_, .control (.release s.control hobserver (h.token pc (.inl token)))⟩, ?_⟩
    exact h.leave rfl rfl (by simp) rfl (hb.leave rfl rfl rfl (by simp)) rfl rfl rfl
  | storeReason msg pc =>
    rw [pc] at hobserver
    refine ⟨_, .single ⟨_, .emergencyStop hobserver⟩, ?_⟩
    exact h.leave rfl rfl (by simp) rfl (hb.leave rfl rfl rfl (by simp)) rfl rfl rfl
  | callback msg pc | claim msg pc | invoke msg latched pc =>
    rw [pc] at hobserver
    refine ⟨s, .refl, ?_⟩
    exact h.leave rfl rfl (by simp) hobserver (hb.leave rfl rfl rfl (by simp)) rfl rfl rfl
  | noCallback msg pc | refuse msg pc | callbackReturn pc =>
    rw [pc] at hobserver
    refine ⟨_, .single ⟨_, .control (.deliverCallback s.control hobserver)⟩, ?_⟩
    exact h.leave rfl rfl (by simp) rfl (hb.leave rfl rfl rfl (by simp)) rfl rfl rfl

theorem hostStep (h : Covers t s.control) (hstep : HostStep t t') :
    ∃ s', (Throttle.throttledSystem L).Run s s' ∧ Covers t' s'.control := by
  have hb := h.breaker
  cases hstep with
  | trip j reason fresh | tripWithin f j reason host free fresh =>
    exact ⟨s, .refl, h.stay (i := j) rfl rfl rfl rfl (hb.beside rfl rfl rfl rfl rfl rfl)
      (by simp) (by rw [fresh]; rfl)⟩
  | shutdown j fresh | shutdownWithin f j host free fresh =>
    have hat : s.control.shutdowns j = .idle := h.stands fresh
    refine ⟨_, .single ⟨_, .control (.shutdown s.control j hat)⟩, ?_⟩
    exact h.move (i := j) rfl h.callback rfl rfl (h.token_update rfl rfl (by simp))
      (hb.beside rfl rfl rfl rfl rfl rfl) ⟨Function.update_self _ _ _, by simp⟩
      fun k hk => ⟨Function.update_of_ne hk _ _, rfl⟩
  | register =>
    refine ⟨_, .single ⟨_, .control (.registerShutdownCallback s.control)⟩, ?_⟩
    exact ⟨rfl, h.observer, h.token, hb.watch rfl rfl rfl fun hw => ⟨hw, rfl⟩, h.calls⟩

end Covers

end LlingrDemux.Consumer
