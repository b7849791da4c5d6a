import LlingrDemux.Consumer.Shutdown

/-!
# What Shutdown reports after a trip

`Shutdown` passes `trippedReason` to the callback: the copy that the observer stores some
steps after the breaker has closed its latch, not the reason the breaker holds. A `Shutdown`
that claims the notify slot in between reports a graceful end. Where the copy is there
whenever a `Shutdown` takes the slot behind a closed latch, an emergency is reported as one.
-/

namespace LlingrDemux.Consumer

open Shared
set_option autoImplicit false

/-- The trip is complete up to the payload when `Shutdown` takes the slot; the breaker knows
the reason and the callback is told nil. -/
theorem emergency_reported_graceful : ∃ s : State, (consumerSystem true).Reachable s ∧
    s.reason = some "disk" ∧ s.invocations = [⟨.call 0, true, none⟩] := by
  have h0 : (consumerSystem true).Reachable { shutdownCallback := true } := .init rfl
  have h1 := h0.step (.host (.shutdown _ 0 rfl))
  have h2 := h1.step (.shutdown (.logInvoked _ 0 rfl nofun))
  have h3 := h2.step (.shutdown (.callback _ 0 rfl rfl))
  have h4 := h3.step (.shutdown (.unsubscribed _ 0 rfl))
  have h5 := h4.step (.host (.trip _ 1 (some "disk") rfl))
  have h6 := h5.step (.trip (.win _ 1 "disk" rfl rfl))
  have h7 := h6.step (.trip (.writeReason _ 1 "disk" rfl))
  have h8 := h7.step (.trip (.cancel _ 1 "disk" rfl))
  have h9 := h8.step (.trip (.latch _ 1 "disk" rfl))
  have h10 := h9.step (.shutdown (.claim _ 0 rfl rfl))
  have h11 := h10.step (.shutdown (.invoke _ 0 true rfl nofun))
  exact ⟨_, h11, rfl, rfl⟩

/-- Whenever a `Shutdown` takes the free notify slot and the latch is closed, the observer has
stored the reason. -/
def Recorded (s s' : State) : Prop :=
  ∀ i, s.calls i = .claiming → s'.calls i ≠ .claiming → s.notify = false → s.Latched = true →
    s.emergencyReason.isSome = true

def recordedSystem (registered : Bool) : System State where
  init := (consumerSystem registered).init
  step s s' := Step s s' ∧ Recorded s s'

/-- A `Shutdown` that took the slot behind a closed latch finds the reason. -/
structure Reporting (s : State) : Prop where
  claimed : ∀ i, s.calls i = .claimed true → s.emergencyReason.isSome = true
  delivered : ∀ v ∈ s.invocations, v.latched = true → v.reason.isSome = true

namespace Reporting
variable {s s' : State}

/-- A call moves and claims nothing. -/
theorem call (h : Reporting s) {i : Nat} {pc : CallPc}
    (calls : s'.calls = Function.update s.calls i pc)
    (stored : s'.emergencyReason = s.emergencyReason)
    (invocations : s'.invocations = s.invocations) (unclaimed : pc ≠ .claimed true) :
    Reporting s' := by
  refine ⟨?_, by rw [invocations]; exact h.delivered⟩
  rw [calls, stored]
  exact (Function.forall_update_iff s.calls fun _ q => q = .claimed true →
    s.emergencyReason.isSome = true).mpr ⟨fun heq => absurd heq unclaimed, fun j _ => h.claimed j⟩

theorem tripStep (h : Reporting s) (step : TripStep s s') : Reporting s' := by
  cases step with
  | win | lose | writeReason | cancel | latch | logInitiated | logCancelled | send | close
  | logComplete => exact h.call rfl rfl rfl (by nofun)

theorem shutdownStep (h : Reporting s) (step : ShutdownStep s s') (recorded : Recorded s s') :
    Reporting s' := by
  cases step with
  | logInvoked | noCallback | callback | unsubscribed | fail | refuse | callbackReturn | signal =>
    exact h.call rfl rfl rfl (by nofun)
  | drainTimeout i j timeout pc fresh =>
    have houter : Reporting (s.setCall i .timedOut) := h.call rfl rfl rfl (by nofun)
    exact houter.call rfl rfl rfl (by nofun)
  | claim i pc slot =>
    refine ⟨?_, h.delivered⟩
    refine (Function.forall_update_iff s.calls fun _ q => q = .claimed true →
      s.emergencyReason.isSome = true).mpr ⟨fun heq => ?_, fun j _ => h.claimed j⟩
    have hmoved : Function.update s.calls i (.claimed s.Latched) i ≠ .claiming := by simp
    exact recorded i pc hmoved slot (CallPc.claimed.inj heq)
  | invoke i latched pc free =>
    have hmoved : Reporting (s.setCall i .callingBack) := h.call rfl rfl rfl (by nofun)
    refine ⟨hmoved.claimed, fun v hv hlatched => ?_⟩
    rcases List.mem_append.mp hv with hv | hv
    · exact h.delivered v hv hlatched
    · rw [List.mem_singleton.mp hv] at hlatched ⊢
      exact h.claimed i (by rw [pc, show latched = true from hlatched])

theorem observerStep (h : Reporting s) (step : ObserverStep s s') : Reporting s' := by
  cases step with
  | receive | receiveClosed | receiveToken | noCallback | callback | claim | refuse
  | callbackReturn => exact ⟨h.claimed, h.delivered⟩
  | storeReason msg pc => exact ⟨fun _ _ => rfl, h.delivered⟩
  | invoke msg latched pc =>
    refine ⟨h.claimed, fun v hv hlatched => ?_⟩
    rcases List.mem_append.mp hv with hv | hv
    · exact h.delivered v hv hlatched
    · rw [List.mem_singleton.mp hv]
      rfl

theorem hostStep (h : Reporting s) (step : HostStep s s') : Reporting s' := by
  cases step with
  | trip | shutdown | tripWithin | shutdownWithin => exact h.call rfl rfl rfl (by nofun)
  | register => exact ⟨h.claimed, h.delivered⟩

theorem of_reachable {registered : Bool} (h : (recordedSystem registered).Reachable s) :
    Reporting s := by
  refine System.invariant (M := recordedSystem registered) (P := Reporting) ?_ ?_ s h
  · rintro s rfl
    exact ⟨nofun, nofun⟩
  · rintro s s' _ hs ⟨hstep, hrecorded⟩
    cases hstep with
    | trip step => exact hs.tripStep step
    | shutdown step => exact hs.shutdownStep step hrecorded
    | observe step => exact hs.observerStep step
    | host step => exact hs.hostStep step

end Reporting

/-- Every `Shutdown` that took the notify slot after the latch was closed hands the callback
a reason. -/
theorem emergency_reported {registered : Bool} {s : State}
    (reachable : (recordedSystem registered).Reachable s) :
    ∀ v ∈ s.invocations, v.latched = true → v.reason.isSome = true :=
  (Reporting.of_reachable reachable).delivered

/-- A trip lands before any callback is registered; the `Shutdown` that follows the
registration reports it. -/
theorem emergency_reported_registeredLate : ∃ s : State, (recordedSystem false).Reachable s ∧
    ∃ v ∈ s.invocations, v.by_ = .call 1 ∧ v.latched = true ∧ v.reason.isSome = true := by
  have h0 : (recordedSystem false).Reachable { shutdownCallback := false } := .init rfl
  -- the latch is open
  have h1 := h0.step ⟨.host (.trip _ 0 (some "disk") rfl), nofun⟩
  have h2 := h1.step ⟨.trip (.win _ 0 "disk" rfl rfl), fun _ _ _ _ => nofun⟩
  have h3 := h2.step ⟨.trip (.writeReason _ 0 "disk" rfl), fun _ _ _ _ => nofun⟩
  have h4 := h3.step ⟨.trip (.cancel _ 0 "disk" rfl), fun _ _ _ _ => nofun⟩
  have h5 := h4.step ⟨.trip (.latch _ 0 "disk" rfl), fun _ _ _ _ => nofun⟩
  -- no Shutdown has started
  have h6 := h5.step ⟨.trip (.logInitiated _ 0 "disk" rfl nofun), by rintro (_ | i) <;> nofun⟩
  have h7 := h6.step ⟨.trip (.logCancelled _ 0 "disk" rfl nofun), by rintro (_ | i) <;> nofun⟩
  have h8 := h7.step ⟨.trip (.send _ 0 "disk" rfl Nat.one_pos), by rintro (_ | i) <;> nofun⟩
  have h9 := h8.step ⟨.trip (.close _ 0 rfl), by rintro (_ | i) <;> nofun⟩
  have h10 := h9.step ⟨.trip (.logComplete _ 0 rfl nofun), by rintro (_ | i) <;> nofun⟩
  have h11 := h10.step ⟨.observe (.receive _ (signalMessage "disk") [] rfl rfl),
    by rintro (_ | i) <;> nofun⟩
  have h12 := h11.step ⟨.observe (.storeReason _ (signalMessage "disk") rfl),
    by rintro (_ | i) <;> nofun⟩
  -- the reason is stored
  have h13 := h12.step ⟨.observe (.noCallback _ (signalMessage "disk") rfl rfl),
    fun _ _ _ _ _ => rfl⟩
  have h14 := h13.step ⟨.host (.register _), fun _ _ _ _ _ => rfl⟩
  have h15 := h14.step ⟨.host (.shutdown _ 1 rfl), fun _ _ _ _ _ => rfl⟩
  have h16 := h15.step ⟨.shutdown (.logInvoked _ 1 rfl nofun), fun _ _ _ _ _ => rfl⟩
  have h17 := h16.step ⟨.shutdown (.callback _ 1 rfl rfl), fun _ _ _ _ _ => rfl⟩
  have h18 := h17.step ⟨.shutdown (.unsubscribed _ 1 rfl), fun _ _ _ _ _ => rfl⟩
  have h19 := h18.step ⟨.shutdown (.claim _ 1 rfl rfl), fun _ _ _ _ _ => rfl⟩
  have h20 := h19.step ⟨.shutdown (.invoke _ 1 true rfl nofun), fun _ _ _ _ _ => rfl⟩
  exact ⟨_, h20, _, List.mem_singleton_self _, rfl, rfl,
    emergency_reported h20 _ (List.mem_singleton_self _) rfl⟩

end LlingrDemux.Consumer
