import LlingrDemux.Consumer.Shutdown
import LlingrDemux.Shared.Election

/-!
# The shutdown callback is invoked once

The first trip fills the breaker's `trip` slot and the first claimant fills `notify`; each
winner acts once. The observer leaves its select with the payload or with a token, and either
tells it that the notify slot is taken or makes it try the slot itself, so when it has
finished somebody delivers.
-/

namespace LlingrDemux.Consumer

open Shared
set_option autoImplicit false

namespace CallPc

/-- The elected trip has not closed the latch. -/
def BeforeLatch : CallPc → Prop
  | .won _ | .cancelling _ | .latching _ => True
  | _ => False

/-- It has not sent the payload. -/
def BeforeSend : CallPc → Prop
  | .won _ | .cancelling _ | .latching _ | .initiated _ | .stopped _ | .sending _ => True
  | _ => False

/-- It has not closed the payload channel. -/
def BeforeClose : CallPc → Prop
  | .won _ | .cancelling _ | .latching _ | .initiated _ | .stopped _ | .sending _ | .closing =>
    True
  | _ => False

/-- The reason of an elected trip. -/
def reason : CallPc → Option String
  | .won r | .cancelling r | .latching r | .initiated r | .stopped r | .sending r => some r
  | _ => none

/-- `Shutdown` has claimed the notify slot and not yet invoked the callback. -/
def Claims : CallPc → Prop
  | .claimed _ => True
  | _ => False

/-- `Shutdown` is behind its attempt at the notify slot. -/
def Behind : CallPc → Prop
  | .claimed _ | .callingBack | .signalling | .returned false => True
  | _ => False

end CallPc

namespace ObserverPc

def Claims : ObserverPc → Prop
  | .claimed _ _ => True
  | _ => False

def Behind : ObserverPc → Prop
  | .claimed _ _ | .callingBack | .finished => True
  | _ => False

def msg : ObserverPc → Option String
  | .exiting m | .loading m | .claiming m | .claimed m _ => some m
  | _ => none

end ObserverPc

/-! ## The elected trip -/

/-- The trip election: the latch is closed once, the payload is sent once and its channel is
closed once. While the observer watches, the payload is in the channel. -/
structure Tripping (s : State) : Prop where
  latch : Elected (s.trip.isSome = true) (fun i => (s.calls i).BeforeLatch) s.trippedCloses
  payload : ∃ sent, Elected (s.trip.isSome = true) (fun i => (s.calls i).BeforeSend) sent ∧
    (s.observer = .watching → s.emergencyShutdown.length = sent)
  close : Elected (s.trip.isSome = true) (fun i => (s.calls i).BeforeClose) s.emergencyCloses

namespace Tripping
variable {s s' : State}

/-- Steps that touch nothing of the breaker's. -/
theorem same (h : Tripping s) (trip : s'.trip = s.trip) (calls : s'.calls = s.calls)
    (latched : s'.trippedCloses = s.trippedCloses) (closed : s'.emergencyCloses = s.emergencyCloses)
    (watching : s'.observer = .watching → s.observer = .watching ∧
      s'.emergencyShutdown = s.emergencyShutdown) : Tripping s' := by
  obtain ⟨hlatch, ⟨sent, hsent, hwatch⟩, hclose⟩ := h
  rw [← trip, ← calls] at hlatch hsent hclose
  rw [← latched] at hlatch
  rw [← closed] at hclose
  refine ⟨hlatch, ⟨sent, hsent, fun hw => ?_⟩, hclose⟩
  rw [(watching hw).2]
  exact hwatch (watching hw).1

/-- A call moves outside the elected trip. -/
theorem setCall (h : Tripping s) {i : Nat} {pc : CallPc} (before : ¬ (s.calls i).BeforeClose)
    (after : ¬ pc.BeforeClose) : Tripping (s.setCall i pc) := by
  have houtside : ∀ {q : CallPc}, ¬ q.BeforeClose → ¬ q.BeforeLatch ∧ ¬ q.BeforeSend := by
    intro q hq
    cases q <;> simp_all [CallPc.BeforeClose, CallPc.BeforeLatch, CallPc.BeforeSend]
  obtain ⟨hlatch, ⟨sent, hsent, hwatch⟩, hclose⟩ := h
  obtain ⟨hl, hs⟩ := houtside before
  obtain ⟨hl', hs'⟩ := houtside after
  exact ⟨hlatch.keep (iff_of_false hl' hl), ⟨sent, hsent.keep (iff_of_false hs' hs), hwatch⟩,
    hclose.keep (iff_of_false after before)⟩

theorem tripStep (h : Tripping s) (step : TripStep s s') : Tripping s' := by
  obtain ⟨hlatch, ⟨sent, hsent, hwatch⟩, hclose⟩ := h
  cases step with
  | win i r pc slot =>
    have hfree : ¬ s.trip.isSome = true := by simp [slot]
    exact ⟨hlatch.winUpdate hfree rfl trivial, ⟨sent, hsent.winUpdate hfree rfl trivial, hwatch⟩,
      hclose.winUpdate hfree rfl trivial⟩
  | lose i r pc slot | writeReason i r pc | cancel i r pc | logInitiated i r pc free
  | logCancelled i r pc free | logComplete i pc free =>
    exact ⟨hlatch.keep (by rw [pc]; rfl), ⟨sent, hsent.keep (by rw [pc]; rfl), hwatch⟩,
      hclose.keep (by rw [pc]; rfl)⟩
  | latch i r pc =>
    exact ⟨hlatch.actUpdate (by rw [pc]; trivial) nofun,
      ⟨sent, hsent.keep (by rw [pc]; rfl), hwatch⟩, hclose.keep (by rw [pc]; rfl)⟩
  | send i r pc room =>
    refine ⟨hlatch.keep (by rw [pc]; rfl),
      ⟨sent + 1, hsent.actUpdate (by rw [pc]; trivial) nofun, fun hw => ?_⟩,
      hclose.keep (by rw [pc]; rfl)⟩
    rw [List.length_append, hwatch hw]
    rfl
  | close i pc =>
    exact ⟨hlatch.keep (by rw [pc]; rfl), ⟨sent, hsent.keep (by rw [pc]; rfl), hwatch⟩,
      hclose.actUpdate (by rw [pc]; trivial) nofun⟩

theorem shutdownStep (h : Tripping s) (step : ShutdownStep s s') : Tripping s' := by
  cases step with
  | logInvoked i pc free | noCallback i pc callback | callback i pc callback | unsubscribed i pc
  | fail i pc free | refuse i pc slot | callbackReturn i pc free =>
    exact h.setCall (by rw [pc]; exact id) id
  | claim i pc slot | invoke i latched pc free | signal i pc =>
    exact (h.setCall (i := i) (by rw [pc]; exact id) id).same rfl rfl rfl rfl fun hw => ⟨hw, rfl⟩
  | drainTimeout i j timeout pc fresh =>
    have hj : ¬ ((s.setCall i .timedOut).calls j).BeforeClose :=
      State.timedOut_fresh id id fresh
    exact ((h.setCall (i := i) (by rw [pc]; exact id) id).setCall hj id).same rfl rfl rfl rfl
      fun hw => ⟨hw, rfl⟩

theorem observerStep (h : Tripping s) (step : ObserverStep s s') : Tripping s' := by
  cases step with
  | receive msg rest pc payload =>
    refine h.same rfl rfl rfl rfl fun hw => ?_
    dsimp only at hw
    split at hw <;> exact nomatch hw
  | receiveClosed | receiveToken | storeReason | noCallback | callback | claim | refuse | invoke
  | callbackReturn => exact h.same rfl rfl rfl rfl fun hw => nomatch hw

theorem hostStep (h : Tripping s) (step : HostStep s s') : Tripping s' := by
  cases step with
  | trip j reason fresh | shutdown j fresh => exact h.setCall (by rw [fresh]; exact id) id
  | tripWithin f j reason host free fresh | shutdownWithin f j host free fresh =>
    exact (h.setCall (i := j) (by rw [fresh]; exact id) id).same rfl rfl rfl rfl
      fun hw => ⟨hw, rfl⟩
  | register => exact h.same rfl rfl rfl rfl fun hw => ⟨hw, rfl⟩

theorem of_reachable {registered : Bool} (h : (consumerSystem registered).Reachable s) :
    Tripping s := by
  refine consumer_invariant ?_ (fun _ _ => tripStep) (fun _ _ => shutdownStep)
    (fun _ _ _ => observerStep) (fun _ _ => hostStep) h
  exact ⟨.initial (by simp) (fun _ => id), ⟨0, .initial (by simp) (fun _ => id), fun _ => rfl⟩,
    .initial (by simp) (fun _ => id)⟩

/-- Once the elected trip has sent the payload, a watching observer finds it. -/
theorem payload_of_sent (h : Tripping s) (tripped : s.trip.isSome = true)
    (sent : ∀ i, ¬ (s.calls i).BeforeSend) (watching : s.observer = .watching) :
    s.emergencyShutdown ≠ [] := by
  obtain ⟨n, hn, hwatch⟩ := h.payload
  have hlength := hwatch watching
  rw [hn.done_of_nobody tripped sent] at hlength
  exact List.ne_nil_of_length_pos (by omega)

theorem payload_of_closed (h : Tripping s) (closed : 0 < s.emergencyCloses)
    (watching : s.observer = .watching) : s.emergencyShutdown ≠ [] := by
  have hone := h.close.done_le_one
  obtain ⟨htripped, hnobody⟩ := h.close.nobody_of_done (by omega)
  refine h.payload_of_sent htripped (fun i hi => hnobody i ?_) watching
  cases hpc : s.calls i <;> simp_all [CallPc.BeforeSend, CallPc.BeforeClose]

end Tripping

/-! ## The reason -/

/-- The message is made from the reason of the trip that won the election. -/
def State.FromTrip (s : State) (msg : String) : Prop :=
  ∃ r, s.trip = some r ∧ msg = signalMessage r

/-- Every message on its way to the callback is the elected trip's. -/
structure Told (s : State) : Prop where
  calls : ∀ i r, (s.calls i).reason = some r → s.trip = some r
  payload : ∀ m ∈ s.emergencyShutdown, s.FromTrip m
  observer : ∀ m, s.observer.msg = some m → s.FromTrip m
  stored : ∀ m, s.emergencyReason = some m → s.FromTrip m
  delivered : ∀ v ∈ s.invocations, ∀ m, v.reason = some m → s.FromTrip m

namespace Told
variable {s s' : State}

theorem setCall (h : Told s) {i : Nat} {pc : CallPc}
    (reason : ∀ r, pc.reason = some r → (s.calls i).reason = some r) : Told (s.setCall i pc) := by
  refine ⟨?_, h.payload, h.observer, h.stored, h.delivered⟩
  exact (Function.forall_update_iff s.calls fun _ q => ∀ r, q.reason = some r → s.trip = some r).mpr
    ⟨fun r hr => h.calls i r (reason r hr), fun j _ => h.calls j⟩

theorem same (h : Told s) (trip : s'.trip = s.trip) (calls : s'.calls = s.calls)
    (payload : s'.emergencyShutdown = s.emergencyShutdown) (observer : s'.observer = s.observer)
    (stored : s'.emergencyReason = s.emergencyReason)
    (delivered : s'.invocations = s.invocations) : Told s' := by
  obtain ⟨h1, h2, h3, h4, h5⟩ := h
  have hfrom : ∀ m, s.FromTrip m → s'.FromTrip m := by
    rintro m ⟨r, hr, hm⟩
    exact ⟨r, trip.trans hr, hm⟩
  refine ⟨fun i r hr => trip.trans (h1 i r (calls ▸ hr)), fun m hm => hfrom m (h2 m (payload ▸ hm)),
    fun m hm => hfrom m (h3 m (observer ▸ hm)), fun m hm => hfrom m (h4 m (stored ▸ hm)),
    fun v hv m hm => hfrom m (h5 v (delivered ▸ hv) m hm)⟩

theorem tripStep (h : Told s) (step : TripStep s s') : Told s' := by
  cases step with
  | win i r pc slot =>
    -- before the election there is no message anywhere
    have hnone : ∀ {m}, ¬ s.FromTrip m := by
      rintro m ⟨r', hr', _⟩
      exact nomatch slot.symm.trans hr'
    refine ⟨?_, fun m hm => absurd (h.payload m hm) hnone,
      fun m hm => absurd (h.observer m hm) hnone, fun m hm => absurd (h.stored m hm) hnone,
      fun v hv m hm => absurd (h.delivered v hv m hm) hnone⟩
    exact (Function.forall_update_iff s.calls fun _ q => ∀ r', q.reason = some r' → some r = some r').mpr
      ⟨fun r' hr' => hr', fun j _ r' hr' => nomatch slot.symm.trans (h.calls j r' hr')⟩
  | lose i r pc slot | logComplete i pc free => exact h.setCall nofun
  | writeReason i r pc | cancel i r pc | latch i r pc =>
    exact (h.setCall (i := i) (by rw [pc]; exact fun _ => id)).same rfl rfl rfl rfl rfl rfl
  | logInitiated i r pc free | logCancelled i r pc free =>
    exact h.setCall fun r' hr' => by rw [pc]; exact hr'
  | send i r pc room =>
    have hmoved : Told (s.setCall i .closing) := h.setCall nofun
    obtain ⟨h1, _, h3, h4, h5⟩ := hmoved
    refine ⟨h1, fun m hm => ?_, h3, h4, h5⟩
    rcases List.mem_append.mp hm with hm | hm
    · exact h.payload m hm
    · exact ⟨r, h.calls i r (by rw [pc]; rfl), List.mem_singleton.mp hm⟩
  | close i pc => exact (h.setCall (i := i) (by nofun)).same rfl rfl rfl rfl rfl rfl

theorem shutdownStep (h : Told s) (step : ShutdownStep s s') : Told s' := by
  cases step with
  | logInvoked | noCallback | callback | unsubscribed | fail | refuse | callbackReturn =>
    exact h.setCall nofun
  | claim i | signal i => exact (h.setCall (i := i) (by nofun)).same rfl rfl rfl rfl rfl rfl
  | invoke i latched pc free =>
    have hmoved : Told (s.setCall i .callingBack) := h.setCall nofun
    obtain ⟨h1, h2, h3, h4, h5⟩ := hmoved
    refine ⟨h1, h2, h3, h4, fun v hv m hm => ?_⟩
    rcases List.mem_append.mp hv with hv | hv
    · exact h.delivered v hv m hm
    · rw [List.mem_singleton.mp hv] at hm
      exact h.stored m hm
  | drainTimeout i j timeout pc fresh =>
    have houter : Told (s.setCall i .timedOut) := h.setCall nofun
    exact (houter.setCall (i := j) (by nofun)).same rfl rfl rfl rfl rfl rfl

theorem observerStep (h : Told s) (step : ObserverStep s s') : Told s' := by
  cases step with
  | receive msg rest pc payload =>
    refine ⟨h.calls, fun m hm => h.payload m (by rw [payload]; exact List.mem_cons_of_mem _ hm), ?_,
      h.stored, h.delivered⟩
    intro m hm
    dsimp only at hm
    split at hm
    · exact nomatch hm
    · cases hm
      exact h.payload _ (by rw [payload]; exact List.mem_cons_self)
  | receiveClosed | receiveToken | noCallback | refuse | callbackReturn =>
    exact ⟨h.calls, h.payload, nofun, h.stored, h.delivered⟩
  | storeReason msg pc =>
    have hmsg := h.observer msg (by rw [pc]; rfl)
    refine ⟨h.calls, h.payload, ?_, ?_, h.delivered⟩
    · rintro m ⟨⟩
      exact hmsg
    · rintro m ⟨⟩
      exact hmsg
  | callback msg pc | claim msg pc =>
    refine ⟨h.calls, h.payload, ?_, h.stored, h.delivered⟩
    rintro m ⟨⟩
    exact h.observer msg (by rw [pc]; rfl)
  | invoke msg latched pc =>
    refine ⟨h.calls, h.payload, nofun, h.stored, fun v hv m hm => ?_⟩
    rcases List.mem_append.mp hv with hv | hv
    · exact h.delivered v hv m hm
    · rw [List.mem_singleton.mp hv] at hm
      cases hm
      exact h.observer msg (by rw [pc]; rfl)

theorem hostStep (h : Told s) (step : HostStep s s') : Told s' := by
  cases step with
  | trip j reason | shutdown j => exact h.setCall nofun
  | tripWithin f j | shutdownWithin f j =>
    exact (h.setCall (i := j) (by nofun)).same rfl rfl rfl rfl rfl rfl
  | register => exact h.same rfl rfl rfl rfl rfl rfl

theorem of_reachable {registered : Bool} (h : (consumerSystem registered).Reachable s) :
    Told s := by
  refine consumer_invariant ?_ (fun _ _ => tripStep) (fun _ _ => shutdownStep)
    (fun _ _ _ => observerStep) (fun _ _ => hostStep) h
  exact ⟨nofun, nofun, nofun, nofun, nofun⟩

end Told

/-! ## The notify slot -/

/-- The frame has claimed the notify slot and has still to invoke the callback. -/
def State.Claims (s : State) : Frame → Prop
  | .observer => s.observer.Claims
  | .call i => (s.calls i).Claims

/-- The notify election: its winner invokes the callback once. -/
def Notifying (s : State) : Prop := Elected (s.notify = true) s.Claims s.invocations.length

namespace Notifying
variable {s s' : State}

/-- A call moves without a claim. -/
theorem call (h : Notifying s) {i : Nat} {pc : CallPc}
    (calls : s'.calls = Function.update s.calls i pc) (observer : s'.observer = s.observer)
    (notify : s'.notify = s.notify) (invocations : s'.invocations = s.invocations)
    (same : pc.Claims ↔ (s.calls i).Claims) : Notifying s' := by
  unfold Notifying
  rw [notify, invocations]
  refine Elected.congr h fun f => ?_
  cases f with
  | observer => simp only [State.Claims, observer]
  | call j =>
    simp only [State.Claims, calls]
    exact Elected.update_iff same j

/-- The observer moves without a claim. -/
theorem watch (h : Notifying s) (calls : s'.calls = s.calls) (notify : s'.notify = s.notify)
    (invocations : s'.invocations = s.invocations)
    (same : s'.observer.Claims ↔ s.observer.Claims) : Notifying s' := by
  unfold Notifying
  rw [notify, invocations]
  refine Elected.congr h fun f => ?_
  cases f with
  | observer => exact same
  | call j => simp only [State.Claims, calls]

theorem tripStep (h : Notifying s) (step : TripStep s s') : Notifying s' := by
  cases step with
  | win i r pc | lose i r pc | writeReason i r pc | cancel i r pc | latch i r pc
  | logInitiated i r pc | logCancelled i r pc | send i r pc | close i pc | logComplete i pc =>
    exact h.call rfl rfl rfl rfl (by rw [pc]; rfl)

theorem shutdownStep (h : Notifying s) (step : ShutdownStep s s') : Notifying s' := by
  cases step with
  | logInvoked i pc | noCallback i pc | callback i pc | unsubscribed i pc | fail i pc
  | refuse i pc | callbackReturn i pc | signal i pc =>
    exact h.call rfl rfl rfl rfl (by rw [pc]; rfl)
  | drainTimeout i j timeout pc fresh =>
    have houter : Notifying (s.setCall i .timedOut) := h.call rfl rfl rfl rfl (by rw [pc]; rfl)
    exact houter.call rfl rfl rfl rfl (iff_of_false id (State.timedOut_fresh id id fresh))
  | claim i pc slot =>
    have hfree : ¬ s.notify = true := by simp [slot]
    refine Elected.win h hfree rfl (i := .call i) fun f => ?_
    have hnobody := (Elected.vacant h hfree).2 f
    by_cases hf : f = .call i
    · subst hf
      simp [State.Claims, State.setCall, CallPc.Claims]
    · refine iff_of_false (fun hclaims => hnobody ?_) hf
      cases f with
      | observer => exact hclaims
      | call j =>
        have hj : j ≠ i := fun heq => hf (by rw [heq])
        simpa [State.Claims, State.setCall, Function.update_of_ne hj] using hclaims
  | invoke i latched pc free =>
    unfold Notifying
    rw [List.length_append]
    have hi : s.Claims (.call i) := by simp [State.Claims, pc, CallPc.Claims]
    refine Elected.act h hi fun f hclaims => ?_
    cases f with
    | observer => exact ⟨hclaims, Frame.noConfusion⟩
    | call j =>
      by_cases hj : j = i
      · subst hj
        simp [State.Claims, State.setCall, CallPc.Claims] at hclaims
      · refine ⟨?_, fun heq => hj (Frame.call.inj heq)⟩
        simpa [State.Claims, State.setCall, Function.update_of_ne hj] using hclaims

theorem observerStep (h : Notifying s) (step : ObserverStep s s') : Notifying s' := by
  cases step with
  | receive msg rest pc payload =>
    refine h.watch rfl rfl rfl (iff_of_false ?_ (by rw [pc]; exact id))
    dsimp only
    split <;> exact id
  | receiveClosed pc | receiveToken pc | storeReason msg pc | noCallback msg pc | callback msg pc
  | refuse msg pc | callbackReturn pc =>
    exact h.watch rfl rfl rfl (by rw [pc]; rfl)
  | claim msg pc slot =>
    have hfree : ¬ s.notify = true := by simp [slot]
    refine Elected.win h hfree rfl (i := .observer) fun f => ?_
    cases f with
    | observer => simp [State.Claims, ObserverPc.Claims]
    | call j => exact iff_of_false ((Elected.vacant h hfree).2 (.call j)) nofun
  | invoke msg latched pc =>
    unfold Notifying
    rw [List.length_append]
    have hobs : s.Claims .observer := by simp [State.Claims, pc, ObserverPc.Claims]
    refine Elected.act h hobs fun f hclaims => ?_
    cases f with
    | observer => exact absurd hclaims id
    | call j => exact ⟨hclaims, nofun⟩

theorem hostStep (h : Notifying s) (step : HostStep s s') : Notifying s' := by
  cases step with
  | trip j reason fresh | shutdown j fresh | tripWithin f j reason host free fresh
  | shutdownWithin f j host free fresh =>
    exact h.call rfl rfl rfl rfl (by rw [fresh]; rfl)
  | register => exact h.watch rfl rfl rfl Iff.rfl

theorem of_reachable {registered : Bool} (h : (consumerSystem registered).Reachable s) :
    Notifying s := by
  refine consumer_invariant ?_ (fun _ _ => tripStep) (fun _ _ => shutdownStep)
    (fun _ _ _ => observerStep) (fun _ _ => hostStep) h
  exact .initial (by simp) fun f => by cases f <;> exact id

end Notifying

end LlingrDemux.Consumer
