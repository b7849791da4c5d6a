import LlingrDemux.Consumer.Notify

/-!
# Nobody waits for the other side to deliver

With a callback registered from the start, whoever gets past its attempt at the notify slot
leaves the slot taken, so the observer finishes only when the delivery belongs to somebody.
-/

namespace LlingrDemux.Consumer

open Shared
set_option autoImplicit false

/-- The states of a consumer whose callback was there before any call. -/
structure Settling (s : State) : Prop where
  registered : s.shutdownCallback = true
  behind : ∀ i, (s.calls i).Behind → s.notify = true
  token : s.gracefulDone = true → s.notify = true
  observer : s.observer.Behind → s.notify = true
  returned : ∀ i, s.calls i = .returned false → s.observer = .watching → s.gracefulDone = true

namespace Settling
variable {s s' : State}

/-- A call moves and the slot, the token and the observer stay. -/
theorem call (h : Settling s) {i : Nat} {pc : CallPc}
    (calls : s'.calls = Function.update s.calls i pc) (observer : s'.observer = s.observer)
    (registered : s'.shutdownCallback = s.shutdownCallback) (notify : s'.notify = s.notify)
    (token : s'.gracefulDone = s.gracefulDone) (behind : pc.Behind → s.notify = true)
    (returned : pc ≠ .returned false) : Settling s' := by
  obtain ⟨h1, h2, h3, h4, h5⟩ := h
  refine ⟨registered.trans h1, ?_, by rwa [token, notify], by rwa [observer, notify], ?_⟩
  · rw [calls, notify]
    exact (Function.forall_update_iff s.calls fun _ q => q.Behind → s.notify = true).mpr
      ⟨behind, fun j _ => h2 j⟩
  · rw [calls, observer, token]
    exact (Function.forall_update_iff s.calls fun _ q => q = .returned false →
      s.observer = .watching → s.gracefulDone = true).mpr
      ⟨fun heq => absurd heq returned, fun j _ => h5 j⟩

/-- The observer moves on from its select. -/
theorem watch (h : Settling s) (calls : s'.calls = s.calls)
    (registered : s'.shutdownCallback = s.shutdownCallback) (notify : s'.notify = s.notify)
    (token : s'.gracefulDone = true → s.gracefulDone = true)
    (moved : s'.observer ≠ .watching) (observer : s'.observer.Behind → s.notify = true) :
    Settling s' := by
  obtain ⟨h1, h2, h3, h4, h5⟩ := h
  refine ⟨registered.trans h1, by rwa [calls, notify], ?_, by rwa [notify],
    fun i _ hw => absurd hw moved⟩
  rw [notify]
  exact fun ht => h3 (token ht)

theorem tripStep (h : Settling s) (step : TripStep s s') : Settling s' := by
  cases step with
  | win | lose | writeReason | cancel | latch | logInitiated | logCancelled | send | close
  | logComplete => exact h.call rfl rfl rfl rfl rfl (by nofun) (by nofun)

theorem shutdownStep (h : Settling s) (step : ShutdownStep s s') : Settling s' := by
  cases step with
  | logInvoked | callback | unsubscribed | fail =>
    exact h.call rfl rfl rfl rfl rfl (by nofun) (by nofun)
  | noCallback i pc callback => exact nomatch callback.symm.trans h.registered
  | drainTimeout i j timeout pc fresh =>
    have houter : Settling (s.setCall i .timedOut) :=
      h.call rfl rfl rfl rfl rfl (by nofun) (by nofun)
    exact houter.call rfl rfl rfl rfl rfl (by nofun) (by nofun)
  | claim i pc slot =>
    refine ⟨h.registered, fun _ _ => rfl, fun _ => rfl, fun _ => rfl, ?_⟩
    exact (Function.forall_update_iff s.calls fun _ q => q = .returned false →
      s.observer = .watching → s.gracefulDone = true).mpr ⟨nofun, fun j _ => h.returned j⟩
  | refuse i pc slot => exact h.call rfl rfl rfl rfl rfl (fun _ => slot) (by nofun)
  | invoke i latched pc | callbackReturn i pc =>
    exact h.call rfl rfl rfl rfl rfl (fun _ => h.behind i (by rw [pc]; trivial)) (by nofun)
  | signal i pc =>
    have hnotify : s.notify = true := h.behind i (by rw [pc]; trivial)
    exact ⟨h.registered, fun _ _ => hnotify, fun _ => hnotify, fun _ => hnotify, fun _ _ _ => rfl⟩

/-- The observer ends only with a token, which says the slot is taken, or after its own
attempt: the payload is there before the channel is closed, and it is never empty. -/
theorem observerStep (h : Settling s) (tripping : Tripping s) (told : Told s)
    (step : ObserverStep s s') : Settling s' := by
  cases step with
  | receive msg rest pc payload =>
    obtain ⟨r, _, hmsg⟩ := told.payload msg (by rw [payload]; exact List.mem_cons_self)
    have hne : msg ≠ "" := hmsg ▸ signalMessage_ne r
    simp only [if_neg hne]
    exact h.watch rfl rfl rfl id (by nofun) (by nofun)
  | receiveClosed pc empty closed => exact absurd empty (tripping.payload_of_closed closed pc)
  | receiveToken pc token => exact h.watch rfl rfl rfl (by nofun) (by nofun) fun _ => h.token token
  | storeReason | callback => exact h.watch rfl rfl rfl id (by nofun) (by nofun)
  | noCallback msg pc callback => exact nomatch callback.symm.trans h.registered
  | claim msg pc slot =>
    exact ⟨h.registered, fun _ _ => rfl, fun _ => rfl, fun _ => rfl, fun _ _ => nofun⟩
  | refuse msg pc slot => exact h.watch rfl rfl rfl id (by nofun) fun _ => slot
  | invoke msg latched pc =>
    exact h.watch rfl rfl rfl id (by nofun) fun _ => h.observer (by rw [pc]; trivial)
  | callbackReturn pc free =>
    exact h.watch rfl rfl rfl id (by nofun) fun _ => h.observer (by rw [pc]; trivial)

theorem hostStep (h : Settling s) (step : HostStep s s') : Settling s' := by
  cases step with
  | trip | shutdown | tripWithin | shutdownWithin =>
    exact h.call rfl rfl rfl rfl rfl (by nofun) (by nofun)
  | register => exact ⟨rfl, h.behind, h.token, h.observer, h.returned⟩

theorem of_reachable (h : (consumerSystem true).Reachable s) : Settling s := by
  refine consumer_invariant ?_ (fun _ _ => tripStep) (fun _ _ => shutdownStep) ?_
    (fun _ _ => hostStep) h
  · exact ⟨rfl, nofun, nofun, nofun, nofun⟩
  · intro s s' hreach hs step
    exact hs.observerStep (.of_reachable hreach) (.of_reachable hreach) step

/-- When every call has finished and there is something to deliver, the observer is not
stuck. -/
theorem observer_progress (h : Settling s) (tripping : Tripping s)
    (finished : ∀ i, (s.calls i).Finished)
    (exit : s.trip.isSome = true ∨ ∃ i, s.calls i = .returned false)
    (running : s.observer ≠ .finished) : ∃ s', ObserverStep s s' := by
  cases hpc : s.observer with
  | watching =>
    rcases exit with tripped | ⟨i, hi⟩
    · have hsent : ∀ i, ¬ (s.calls i).BeforeSend := by
        intro i hi
        have := finished i
        cases hcall : s.calls i <;> simp_all [CallPc.BeforeSend, CallPc.Finished]
      obtain ⟨msg, rest, hpayload⟩ :=
        List.exists_cons_of_ne_nil (tripping.payload_of_sent tripped hsent hpc)
      exact ⟨_, .receive s msg rest hpc hpayload⟩
    · exact ⟨_, .receiveToken s hpc (h.returned i hi hpc)⟩
  | exiting msg => exact ⟨_, .storeReason s msg hpc⟩
  | loading msg => exact ⟨_, .callback s msg hpc h.registered⟩
  | claiming msg =>
    cases hslot : s.notify with
    | false => exact ⟨_, .claim s msg hpc hslot⟩
    | true => exact ⟨_, .refuse s msg hpc hslot⟩
  | claimed msg latched => exact ⟨_, .invoke s msg latched hpc⟩
  | callingBack => exact ⟨_, .callbackReturn s hpc fun j _ => finished j⟩
  | finished => exact absurd hpc running

end Settling

/-- With nobody left between its claim and its delivery, a taken slot has been used. -/
theorem Notifying.delivered {s : State} (h : Notifying s) (taken : s.notify = true)
    (finished : ∀ i, (s.calls i).Finished) (observer : s.observer = .finished) :
    s.invocations.length = 1 := by
  refine Elected.done_of_nobody h taken fun f hf => ?_
  cases f with
  | observer =>
    rw [State.Claims, observer] at hf
    exact hf
  | call i =>
    have hi := finished i
    cases hcall : s.calls i <;> simp_all [State.Claims, CallPc.Claims, CallPc.Finished]

/-- The shutdown callback of a consumer that has one from the start, over every interleaving
of trips, shutdowns and the observer. Once every call has finished and some trip happened or
some `Shutdown` returned nil, the observer has a step until it finishes, and then the callback
has been invoked exactly once. -/
theorem shutdown_callback_once {s : State} (reachable : (consumerSystem true).Reachable s) :
    s.invocations.length ≤ 1 ∧ s.trippedCloses ≤ 1 ∧ s.emergencyCloses ≤ 1 ∧
    (∀ v ∈ s.invocations, ∀ m, v.reason = some m → s.FromTrip m) ∧
    ((∀ i, (s.calls i).Finished) →
      (s.trip.isSome = true ∨ ∃ i, s.calls i = .returned false) →
      (s.observer = .finished → s.invocations.length = 1) ∧
      (s.observer ≠ .finished → ∃ s', ObserverStep s s')) := by
  have tripping := Tripping.of_reachable reachable
  have notifying := Notifying.of_reachable reachable
  have settling := Settling.of_reachable reachable
  refine ⟨notifying.done_le_one, tripping.latch.done_le_one, tripping.close.done_le_one,
    (Told.of_reachable reachable).delivered, fun finished exit => ⟨fun observer => ?_, ?_⟩⟩
  · have taken := settling.observer (by rw [observer]; trivial)
    exact notifying.delivered taken finished observer
  · exact settling.observer_progress tripping finished exit

/-- `Shutdown` claims the slot and its callback trips the breaker; the observer is refused. -/
theorem shutdown_callback_once_within : ∃ s : State, (consumerSystem true).Reachable s ∧
    (∀ i, (s.calls i).Finished) ∧ s.trip = some "disk" ∧ s.calls 0 = .returned false ∧
    s.observer = .finished ∧ s.invocations.length = 1 := by
  have h0 : (consumerSystem true).Reachable { shutdownCallback := true } := .init rfl
  have h1 := h0.step (.host (.shutdown _ 0 rfl))
  have h2 := h1.step (.shutdown (.logInvoked _ 0 rfl nofun))
  have h3 := h2.step (.shutdown (.callback _ 0 rfl rfl))
  have h4 := h3.step (.shutdown (.unsubscribed _ 0 rfl))
  have h5 := h4.step (.shutdown (.claim _ 0 rfl rfl))
  have h6 := h5.step (.shutdown (.invoke _ 0 false rfl nofun))
  have h7 := h6.step (.host (.tripWithin _ (.call 0) 1 (some "disk") trivial nofun rfl))
  have h8 := h7.step (.trip (.win _ 1 "disk" rfl rfl))
  have h9 := h8.step (.trip (.writeReason _ 1 "disk" rfl))
  have h10 := h9.step (.trip (.cancel _ 1 "disk" rfl))
  have h11 := h10.step (.trip (.latch _ 1 "disk" rfl))
  have h12 := h11.step (.trip (.logInitiated _ 1 "disk" rfl nofun))
  have h13 := h12.step (.trip (.logCancelled _ 1 "disk" rfl nofun))
  have h14 := h13.step (.trip (.send _ 1 "disk" rfl Nat.one_pos))
  have h15 := h14.step (.trip (.close _ 1 rfl))
  have h16 := h15.step (.trip (.logComplete _ 1 rfl nofun))
  have h17 := h16.step (.observe (.receive _ (signalMessage "disk") [] rfl rfl))
  have h18 := h17.step (.observe (.storeReason _ (signalMessage "disk") rfl))
  have h19 := h18.step (.observe (.callback _ (signalMessage "disk") rfl rfl))
  have h20 := h19.step (.observe (.refuse _ (signalMessage "disk") rfl rfl))
  have h21 := h20.step (.shutdown (.callbackReturn _ 0 rfl fun j hj => by cases hj; trivial))
  have h22 := h21.step (.shutdown (.signal _ 0 rfl))
  obtain ⟨_, _, _, _, delivered⟩ := shutdown_callback_once h22
  refine ⟨_, h22, ?_, rfl, rfl, rfl, (delivered ?_ (.inl rfl)).1 rfl⟩
  all_goals
    rintro (_ | _ | i) <;> trivial

end LlingrDemux.Consumer
