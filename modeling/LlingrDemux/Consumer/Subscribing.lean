import LlingrDemux.Consumer.Notify

/-!
# Subscribe and the circuit breaker

`Consumer.Subscribe` next to everything else that a consumer does: trips, shutdowns and the
observer as before, and rebalances, which put a token into the one-slot `signalAssigned` channel on
an assignment and take it out on a revocation. Any number of calls may run. `Subscribe` looks at the
breaker's latch before it asks the broker and once more after it has taken the token, and waits on
the latch beside the token. Starting the metrics and the bandwidth aggregator is left out; the
broker's `Subscribe` succeeds or fails, and the timers may fire at any time.
-/

namespace LlingrDemux.Consumer

open Shared
set_option autoImplicit false

/-- What `Subscribe` returns: nil, the emergency with `Reason()`, the broker's error or the
timeout of the assignment. -/
inductive SubscribeResult where
  | started
  | emergency (reason : Option String)
  | failed
  | assignmentTimeout
  deriving DecidableEq, Repr

/-- Where a call of `Subscribe` stands: `testing` is at the first select, `joining` at the broker's
`Subscribe`, `launching` before the polling goroutine, `assigned` has taken the token, `announcing`
is behind the second look at the latch, and `unsubscribing` waits after a timeout. -/
inductive SubscribePc where
  | idle
  | testing
  | registering
  | joining
  | launching
  | awaiting
  | assigned
  | announcing
  | unsubscribing
  | returned (result : SubscribeResult)
  deriving DecidableEq, Repr

/-- `joined` and `loops` list the calls whose broker subscription succeeded and those that have
started `PollAndForward`; `interrupts` counts the direct calls of the default callback. -/
structure Startup where
  consumer : State
  signalAssigned : Bool := false
  subscribes : Nat → SubscribePc := fun _ => .idle
  joined : List Nat := []
  loops : List Nat := []
  interrupts : Nat := 0

namespace Startup

def setSubscribe (s : Startup) (i : Nat) (pc : SubscribePc) : Startup :=
  { s with subscribes := Function.update s.subscribes i pc }

/-- One step of a call. -/
inductive SubscribeStep (i : Nat) : Startup → Startup → Prop where
  | begin_ (s : Startup) (pc : s.subscribes i = .idle) : SubscribeStep i s (s.setSubscribe i .testing)
  | disarmed (s : Startup) (pc : s.subscribes i = .testing) (latched : s.consumer.Latched = true) :
      SubscribeStep i s (s.setSubscribe i (.returned (.emergency s.consumer.reason)))
  | armed (s : Startup) (pc : s.subscribes i = .testing) (open_ : s.consumer.Latched = false) :
      SubscribeStep i s (s.setSubscribe i .registering)
  | register (s : Startup) (pc : s.subscribes i = .registering) :
      SubscribeStep i s { s.setSubscribe i .joining with
        consumer := { s.consumer with shutdownCallback := true } }
  | join (s : Startup) (pc : s.subscribes i = .joining) :
      SubscribeStep i s { s.setSubscribe i .launching with joined := s.joined ++ [i] }
  | joinFailed (s : Startup) (pc : s.subscribes i = .joining) :
      SubscribeStep i s (s.setSubscribe i (.returned .failed))
  | launch (s : Startup) (pc : s.subscribes i = .launching) :
      SubscribeStep i s { s.setSubscribe i .awaiting with loops := s.loops ++ [i] }
  | receive (s : Startup) (pc : s.subscribes i = .awaiting) (token : s.signalAssigned = true) :
      SubscribeStep i s { s.setSubscribe i .assigned with signalAssigned := false }
  | overtaken (s : Startup) (pc : s.subscribes i = .assigned) (latched : s.consumer.Latched = true) :
      SubscribeStep i s (s.setSubscribe i (.returned (.emergency s.consumer.reason)))
  | confirm (s : Startup) (pc : s.subscribes i = .assigned) (open_ : s.consumer.Latched = false) :
      SubscribeStep i s (s.setSubscribe i .announcing)
  | announce (s : Startup) (pc : s.subscribes i = .announcing) :
      SubscribeStep i s (s.setSubscribe i (.returned .started))
  | tripped (s : Startup) (pc : s.subscribes i = .awaiting) (latched : s.consumer.Latched = true) :
      SubscribeStep i s (s.setSubscribe i (.returned (.emergency s.consumer.reason)))
  | timeout (s : Startup) (pc : s.subscribes i = .awaiting) :
      SubscribeStep i s (s.setSubscribe i .unsubscribing)
  | unsubscribed (s : Startup) (pc : s.subscribes i = .unsubscribing) :
      SubscribeStep i s (s.setSubscribe i (.returned .assignmentTimeout))
  | unsubscribeTimeout (s : Startup) (pc : s.subscribes i = .unsubscribing) :
      SubscribeStep i s { s.setSubscribe i (.returned .assignmentTimeout) with
        interrupts := s.interrupts + 1 }

/-- `HandleRebalance` on the token; both sends and receives have a default. -/
inductive RebalanceStep : Startup → Startup → Prop where
  | assign (s : Startup) : RebalanceStep s { s with signalAssigned := true }
  | revoke (s : Startup) : RebalanceStep s { s with signalAssigned := false }

inductive Step : Startup → Startup → Prop where
  | subscribe {s s' : Startup} (i : Nat) (step : SubscribeStep i s s') : Step s s'
  | rebalance {s s' : Startup} (step : RebalanceStep s s') : Step s s'
  | consumer (s : Startup) (c : State) (step : Consumer.Step s.consumer c) :
      Step s { s with consumer := c }

end Startup

def startupSystem (registered : Bool) : System Startup where
  init s := s = { consumer := { shutdownCallback := registered } }
  step := Startup.Step

/-! ## The reason behind the latch -/

/-- The winner writes the reason before it closes the latch. -/
structure Reasoned (s : State) : Prop where
  written : ∀ i r, s.calls i = .cancelling r ∨ s.calls i = .latching r → s.reason = some r
  latched : s.Latched = true → s.reason.isSome = true
  elected : ∀ r, s.reason = some r → s.trip = some r

namespace Reasoned
variable {s s' : State} {i : Nat} {pc : CallPc}

/-- A call moves at another place than between the reason and the latch. -/
theorem call (h : Reasoned s) (calls : s'.calls = Function.update s.calls i pc)
    (reason : s'.reason = s.reason) (trip : s'.trip = s.trip)
    (closes : s'.trippedCloses = s.trippedCloses)
    (elsewhere : ∀ r, pc ≠ .cancelling r ∧ pc ≠ .latching r) : Reasoned s' := by
  refine ⟨?_, ?_, ?_⟩
  · rw [calls, reason]
    refine (Function.forall_update_iff s.calls fun _ q => ∀ r, q = .cancelling r ∨ q = .latching r →
      s.reason = some r).mpr ⟨fun r hpc => ?_, fun j _ => h.written j⟩
    rcases hpc with hpc | hpc
    · exact absurd hpc (elsewhere r).1
    · exact absurd hpc (elsewhere r).2
  · rw [State.Latched, closes, reason]
    exact h.latched
  · rw [reason, trip]
    exact h.elected

/-- Steps that touch nothing of the breaker's. -/
theorem same (h : Reasoned s) (calls : s'.calls = s.calls) (reason : s'.reason = s.reason)
    (trip : s'.trip = s.trip) (closes : s'.trippedCloses = s.trippedCloses) : Reasoned s' := by
  refine ⟨?_, ?_, ?_⟩
  · rw [calls, reason]
    exact h.written
  · rw [State.Latched, closes, reason]
    exact h.latched
  · rw [reason, trip]
    exact h.elected

theorem tripStep (h : Reasoned s) (told : Told s) (step : TripStep s s') : Reasoned s' := by
  cases step with
  | win i r pc slot =>
    -- nobody has written a reason before the election
    have hnone : ∀ r', s.reason ≠ some r' := fun r' hr' => nomatch slot.symm.trans (h.elected r' hr')
    refine ⟨?_, h.latched, fun r' hr' => absurd hr' (hnone r')⟩
    refine (Function.forall_update_iff s.calls fun _ q => ∀ r', q = .cancelling r' ∨ q = .latching r' →
      s.reason = some r').mpr ⟨fun r' hpc => ?_, fun j _ => h.written j⟩
    rcases hpc with hpc | hpc <;> cases hpc
  | writeReason i r pc =>
    have htrip : s.trip = some r := told.calls i r (by rw [pc]; rfl)
    refine ⟨?_, fun _ => rfl, fun r' hr' => htrip.trans hr'⟩
    refine (Function.forall_update_iff s.calls fun _ q => ∀ r', q = .cancelling r' ∨ q = .latching r' →
      some r = some r').mpr ⟨fun r' hpc => ?_, fun j _ r' hpc => ?_⟩
    · rcases hpc with hpc | hpc <;> cases hpc
      rfl
    · have hother : s.trip = some r' := told.calls j r' (by rcases hpc with hpc | hpc <;> rw [hpc] <;> rfl)
      exact htrip.symm.trans hother
  | cancel i r pc =>
    refine ⟨?_, h.latched, h.elected⟩
    refine (Function.forall_update_iff s.calls fun _ q => ∀ r', q = .cancelling r' ∨ q = .latching r' →
      s.reason = some r').mpr ⟨fun r' hpc => ?_, fun j _ => h.written j⟩
    rcases hpc with hpc | hpc <;> cases hpc
    exact h.written i r (.inl pc)
  | latch i r pc =>
    have hreason := h.written i r (.inr pc)
    have hmoved : Reasoned (s.setCall i (.initiated r)) :=
      h.call rfl rfl rfl rfl fun _ => ⟨by nofun, by nofun⟩
    exact ⟨hmoved.written, fun _ => Option.isSome_of_eq_some hreason, h.elected⟩
  | lose | logInitiated | logCancelled | send | close | logComplete =>
    exact h.call rfl rfl rfl rfl fun _ => ⟨by nofun, by nofun⟩

theorem shutdownStep (h : Reasoned s) (step : ShutdownStep s s') : Reasoned s' := by
  cases step with
  | drainTimeout i j timeout pc fresh =>
    have houter : Reasoned (s.setCall i .timedOut) :=
      h.call rfl rfl rfl rfl fun _ => ⟨by nofun, by nofun⟩
    exact houter.call rfl rfl rfl rfl fun _ => ⟨by nofun, by nofun⟩
  | _ => exact h.call rfl rfl rfl rfl fun _ => ⟨by nofun, by nofun⟩

theorem hostStep (h : Reasoned s) (step : HostStep s s') : Reasoned s' := by
  cases step with
  | register => exact h.same rfl rfl rfl rfl
  | _ => exact h.call rfl rfl rfl rfl fun _ => ⟨by nofun, by nofun⟩

theorem observerStep (h : Reasoned s) (step : ObserverStep s s') : Reasoned s' := by
  cases step with
  | _ => exact h.same rfl rfl rfl rfl

theorem of_reachable {registered : Bool} (h : (consumerSystem registered).Reachable s) :
    Reasoned s := by
  refine System.invariant (M := consumerSystem registered) (P := Reasoned) ?_ ?_ s h
  · rintro s rfl
    refine ⟨fun _ _ hpc => ?_, fun hl => ?_, fun _ hr => ?_⟩
    · rcases hpc with hpc | hpc <;> cases hpc
    · cases hl
    · cases hr
  · intro s s' hreach hs hstep
    cases hstep with
    | trip step => exact hs.tripStep (Told.of_reachable hreach) step
    | shutdown step => exact hs.shutdownStep step
    | observe step => exact hs.observerStep step
    | host step => exact hs.hostStep step

/-- What `Reason()` returns behind the latch. -/
theorem reason_of_latched (h : Reasoned s) (latched : s.Latched = true) :
    ∃ r, s.reason = some r ∧ s.trip = some r := by
  obtain ⟨r, hr⟩ := Option.isSome_iff_exists.mp (h.latched latched)
  exact ⟨r, hr, h.elected r hr⟩

end Reasoned

/-- The latch stays closed. -/
theorem Step.latched {s s' : State} (step : Step s s') (h : s.Latched = true) : s'.Latched = true := by
  cases step with
  | trip step =>
    cases step with
    | latch i r pc => exact decide_eq_true (Nat.succ_pos _)
    | _ => exact h
  | shutdown step => cases step <;> exact h
  | observe step => cases step <;> exact h
  | host step => cases step <;> exact h

/-- The elected trip stays elected. -/
theorem Step.trip_eq {s s' : State} (step : Step s s') {r : String} (h : s.trip = some r) :
    s'.trip = some r := by
  cases step with
  | trip step =>
    cases step with
    | win i r' pc slot => exact nomatch slot.symm.trans h
    | _ => exact h
  | shutdown step => cases step <;> exact h
  | observe step => cases step <;> exact h
  | host step => cases step <;> exact h

/-- A registered callback is replaced but not removed. -/
theorem Step.registered {s s' : State} (step : Step s s') (h : s.shutdownCallback = true) :
    s'.shutdownCallback = true := by
  cases step with
  | trip step => cases step <;> exact h
  | shutdown step => cases step <;> exact h
  | observe step => cases step <;> exact h
  | host step =>
    cases step with
    | register => rfl
    | _ => exact h

namespace SubscribePc

/-- The call has got past its last look at the latch: it returns nil. -/
def Confirmed : SubscribePc → Prop
  | .announcing | .returned .started => True
  | _ => False

/-- The call has installed a callback if there was none. -/
def Registered : SubscribePc → Prop
  | .idle | .testing | .registering | .returned (.emergency _) => False
  | _ => True

/-- The call has started the polling loop. -/
def Looping : SubscribePc → Prop
  | .awaiting | .assigned | .announcing | .unsubscribing | .returned .started
  | .returned .assignmentTimeout => True
  | _ => False

/-- The broker has not been asked, or not answered. -/
def Outside : SubscribePc → Prop
  | .idle | .testing | .registering | .joining => True
  | _ => False

/-- A call that the closed latch stops before it asks the broker. -/
def Disarmed : SubscribePc → Prop
  | .idle | .testing | .returned (.emergency _) => True
  | _ => False

end SubscribePc

namespace Startup
variable {s s' : Startup}

structure Inv (s : Startup) : Prop where
  registered : ∀ i, (s.subscribes i).Registered → s.consumer.shutdownCallback = true
  joined : ∀ i ∈ s.joined, ¬ (s.subscribes i).Outside
  loops : ∀ i ∈ s.loops, i ∈ s.joined ∧ s.subscribes i ≠ .launching
  launching : ∀ i, s.subscribes i = .launching → i ∈ s.joined
  looping : ∀ i, (s.subscribes i).Looping → i ∈ s.loops
  once : s.loops.Nodup
  emergency : ∀ i reason, s.subscribes i = .returned (.emergency reason) →
    ∃ r, reason = some r ∧ s.consumer.trip = some r

/-- A call moves on without the broker and without a polling loop. -/
theorem Inv.move (h : s.Inv) {i : Nat} {pc : SubscribePc}
    (registered : pc.Registered → s.consumer.shutdownCallback = true)
    (outside : pc.Outside → (s.subscribes i).Outside) (launching : pc ≠ .launching)
    (looping : pc.Looping → (s.subscribes i).Looping)
    (emergency : ∀ reason, pc = .returned (.emergency reason) →
      ∃ r, reason = some r ∧ s.consumer.trip = some r) : (s.setSubscribe i pc).Inv where
  registered := (Function.forall_update_iff s.subscribes fun _ q =>
    q.Registered → s.consumer.shutdownCallback = true).mpr ⟨registered, fun j _ => h.registered j⟩
  joined := (Function.forall_update_iff s.subscribes fun j q => j ∈ s.joined → ¬ q.Outside).mpr
    ⟨fun hi hpc => h.joined i hi (outside hpc), fun j _ => h.joined j⟩
  loops := (Function.forall_update_iff s.subscribes fun j q => j ∈ s.loops →
    j ∈ s.joined ∧ q ≠ .launching).mpr ⟨fun hi => ⟨(h.loops i hi).1, launching⟩, fun j _ => h.loops j⟩
  launching := (Function.forall_update_iff s.subscribes fun j q => q = .launching → j ∈ s.joined).mpr
    ⟨fun hpc => absurd hpc launching, fun j _ => h.launching j⟩
  looping := (Function.forall_update_iff s.subscribes fun j q => q.Looping → j ∈ s.loops).mpr
    ⟨fun hpc => h.looping i (looping hpc), fun j _ => h.looping j⟩
  once := h.once
  emergency := (Function.forall_update_iff s.subscribes fun _ q => ∀ reason,
    q = .returned (.emergency reason) → ∃ r, reason = some r ∧ s.consumer.trip = some r).mpr
    ⟨emergency, fun j _ => h.emergency j⟩

/-- The consumer goes on, or the token changes. -/
theorem Inv.beside (h : s.Inv) {c : State} (signal : Bool) (interrupts : Nat)
    (registered : s.consumer.shutdownCallback = true → c.shutdownCallback = true)
    (trip : ∀ r, s.consumer.trip = some r → c.trip = some r) :
    ({ s with consumer := c, signalAssigned := signal, interrupts := interrupts } : Startup).Inv :=
  { h with
    registered := fun i hi => registered (h.registered i hi)
    emergency := fun i reason hi => by
      obtain ⟨r, hr, htrip⟩ := h.emergency i reason hi
      exact ⟨r, hr, trip r htrip⟩ }

theorem Inv.join (h : s.Inv) {i : Nat} (pc : s.subscribes i = .joining) :
    ({ s.setSubscribe i .launching with joined := s.joined ++ [i] } : Startup).Inv := by
  have hnew : i ∉ s.joined := fun hi => h.joined i hi (by rw [pc]; trivial)
  refine ⟨?_, ?_, ?_, ?_, ?_, h.once, ?_⟩
  · exact (Function.forall_update_iff s.subscribes fun _ q =>
      q.Registered → s.consumer.shutdownCallback = true).mpr
      ⟨fun _ => h.registered i (by rw [pc]; trivial), fun j _ => h.registered j⟩
  · refine (Function.forall_update_iff s.subscribes fun j q => j ∈ s.joined ++ [i] → ¬ q.Outside).mpr
      ⟨fun _ => id, fun j hj hmem => ?_⟩
    rcases List.mem_append.mp hmem with hmem | hmem
    · exact h.joined j hmem
    · exact absurd (List.mem_singleton.mp hmem) hj
  · refine (Function.forall_update_iff s.subscribes fun j q => j ∈ s.loops →
      j ∈ s.joined ++ [i] ∧ q ≠ .launching).mpr ⟨fun hi => ?_, fun j _ hmem => ?_⟩
    · exact absurd (h.loops i hi).1 hnew
    · exact ⟨List.mem_append_left _ (h.loops j hmem).1, (h.loops j hmem).2⟩
  · exact (Function.forall_update_iff s.subscribes fun j q => q = .launching → j ∈ s.joined ++ [i]).mpr
      ⟨fun _ => List.mem_append_right _ List.mem_cons_self,
        fun j _ hpc => List.mem_append_left _ (h.launching j hpc)⟩
  · exact (Function.forall_update_iff s.subscribes fun j q => q.Looping → j ∈ s.loops).mpr
      ⟨False.elim, fun j _ => h.looping j⟩
  · exact (Function.forall_update_iff s.subscribes fun _ q => ∀ reason,
      q = .returned (.emergency reason) → ∃ r, reason = some r ∧ s.consumer.trip = some r).mpr
      ⟨fun _ hpc => (by cases hpc), fun j _ => h.emergency j⟩

theorem Inv.launch (h : s.Inv) {i : Nat} (pc : s.subscribes i = .launching) :
    ({ s.setSubscribe i .awaiting with loops := s.loops ++ [i] } : Startup).Inv := by
  have hnew : i ∉ s.loops := fun hi => (h.loops i hi).2 pc
  refine ⟨?_, ?_, ?_, ?_, ?_, ?_, ?_⟩
  · exact (Function.forall_update_iff s.subscribes fun _ q =>
      q.Registered → s.consumer.shutdownCallback = true).mpr
      ⟨fun _ => h.registered i (by rw [pc]; trivial), fun j _ => h.registered j⟩
  · exact (Function.forall_update_iff s.subscribes fun j q => j ∈ s.joined → ¬ q.Outside).mpr
      ⟨fun _ => id, fun j _ => h.joined j⟩
  · refine (Function.forall_update_iff s.subscribes fun j q => j ∈ s.loops ++ [i] →
      j ∈ s.joined ∧ q ≠ .launching).mpr ⟨fun _ => ⟨h.launching i pc, by decide⟩, fun j hj hmem => ?_⟩
    rcases List.mem_append.mp hmem with hmem | hmem
    · exact h.loops j hmem
    · exact absurd (List.mem_singleton.mp hmem) hj
  · exact (Function.forall_update_iff s.subscribes fun j q => q = .launching → j ∈ s.joined).mpr
      ⟨fun hpc => (by cases hpc), fun j _ => h.launching j⟩
  · exact (Function.forall_update_iff s.subscribes fun j q => q.Looping → j ∈ s.loops ++ [i]).mpr
      ⟨fun _ => List.mem_append_right _ List.mem_cons_self,
        fun j _ hpc => List.mem_append_left _ (h.looping j hpc)⟩
  · show (s.loops ++ [i]).Nodup
    exact List.nodup_append.mpr ⟨h.once, List.pairwise_singleton _ i,
      fun a ha b hb he => hnew (List.mem_singleton.mp hb ▸ he ▸ ha)⟩
  · exact (Function.forall_update_iff s.subscribes fun _ q => ∀ reason,
      q = .returned (.emergency reason) → ∃ r, reason = some r ∧ s.consumer.trip = some r).mpr
      ⟨fun _ hpc => (by cases hpc), fun j _ => h.emergency j⟩

/-- A call that saw the closed latch returns the reason of the elected trip. -/
theorem Inv.emerge (h : s.Inv) (reasoned : Reasoned s.consumer) {i : Nat}
    (latched : s.consumer.Latched = true) :
    (s.setSubscribe i (.returned (.emergency s.consumer.reason))).Inv := by
  obtain ⟨r, hreason, htrip⟩ := reasoned.reason_of_latched latched
  refine h.move False.elim False.elim (by nofun) False.elim ?_
  intro reason hpc
  cases hpc
  exact ⟨r, hreason, htrip⟩

theorem Inv.subscribeStep (h : s.Inv) (reasoned : Reasoned s.consumer) {i : Nat}
    (step : SubscribeStep i s s') : s'.Inv := by
  have hregistered := h.registered i
  cases step with
  | disarmed pc latched | overtaken pc latched | tripped pc latched => exact h.emerge reasoned latched
  | join pc => exact h.join pc
  | launch pc => exact h.launch pc
  | begin_ pc | armed pc open_ =>
    exact h.move False.elim (fun _ => by rw [pc]; trivial) (by nofun) False.elim (by nofun)
  | register pc =>
    have hset := h.beside (c := { s.consumer with shutdownCallback := true }) s.signalAssigned
      s.interrupts (fun _ => rfl) fun _ hr => hr
    refine hset.move (fun _ => rfl) (fun _ => ?_) (by nofun) False.elim (by nofun)
    show (s.subscribes i).Outside
    rw [pc]
    trivial
  | joinFailed pc =>
    rw [pc] at hregistered
    exact h.move hregistered False.elim (by nofun) False.elim (by nofun)
  | receive pc token =>
    have hset := h.beside (c := s.consumer) false s.interrupts id fun _ hr => hr
    rw [pc] at hregistered
    refine hset.move hregistered False.elim (by nofun) (fun _ => ?_) (by nofun)
    show (s.subscribes i).Looping
    rw [pc]
    trivial
  | confirm pc open_ | announce pc | timeout pc | unsubscribed pc =>
    rw [pc] at hregistered
    exact h.move hregistered False.elim (by nofun) (fun _ => by rw [pc]; trivial) (by nofun)
  | unsubscribeTimeout pc =>
    have hset := h.beside (c := s.consumer) s.signalAssigned (s.interrupts + 1) id fun _ hr => hr
    rw [pc] at hregistered
    refine hset.move hregistered False.elim (by nofun) (fun _ => ?_) (by nofun)
    show (s.subscribes i).Looping
    rw [pc]
    trivial

/-- The consumer runs as without `Subscribe`, which may install a callback. -/
theorem consumer_reachable {registered : Bool} (h : (startupSystem registered).Reachable s) :
    (consumerSystem registered).Reachable s.consumer := by
  refine System.invariant (M := startupSystem registered)
    (P := fun s => (consumerSystem registered).Reachable s.consumer) ?_ ?_ s h
  · rintro s rfl
    exact .init rfl
  · intro s s' _ hs hstep
    cases hstep with
    | rebalance step => cases step <;> exact hs
    | consumer c step => exact hs.step step
    | subscribe i step =>
      cases step with
      | register pc => exact hs.step (.host (.register s.consumer))
      | _ => exact hs

theorem inv_of_reachable {registered : Bool} (h : (startupSystem registered).Reachable s) : s.Inv := by
  refine System.invariant (M := startupSystem registered) (P := Inv) ?_ ?_ s h
  · rintro s rfl
    exact ⟨fun _ => False.elim, by nofun, by nofun, by nofun, fun _ => False.elim, List.nodup_nil,
      by nofun⟩
  · intro s s' hreach hs hstep
    cases hstep with
    | subscribe i step => exact hs.subscribeStep (.of_reachable (consumer_reachable hreach)) step
    | rebalance step => cases step <;> exact hs.beside _ s.interrupts id fun _ hr => hr
    | consumer c step =>
      exact hs.beside s.signalAssigned s.interrupts step.registered fun _ hr => step.trip_eq hr

/-! ## After the latch -/

theorem Step.latched (step : Step s s') (h : s.consumer.Latched = true) :
    s'.consumer.Latched = true := by
  cases step with
  | rebalance step => cases step <;> exact h
  | consumer c step => exact Consumer.Step.latched step h
  | subscribe i step => cases step <;> exact h

/-- With the latch closed a call does not get past its looks at it. -/
theorem Step.held (step : Step s s') (latched : s.consumer.Latched = true) (i : Nat) :
    (¬ (s.subscribes i).Confirmed → ¬ (s'.subscribes i).Confirmed) ∧
      ((s.subscribes i).Disarmed → (s'.subscribes i).Disarmed) := by
  cases step with
  | rebalance step => cases step <;> exact ⟨id, id⟩
  | consumer c step => exact ⟨id, id⟩
  | subscribe j step =>
    -- one call moves
    have hmove : ∀ {pc : SubscribePc}, (¬ (s.subscribes j).Confirmed → ¬ pc.Confirmed) →
        ((s.subscribes j).Disarmed → pc.Disarmed) →
        (¬ (s.subscribes i).Confirmed → ¬ (Function.update s.subscribes j pc i).Confirmed) ∧
          ((s.subscribes i).Disarmed → (Function.update s.subscribes j pc i).Disarmed) := by
      intro pc hconfirmed hdisarmed
      by_cases hij : i = j
      · subst hij
        rw [Function.update_self]
        exact ⟨hconfirmed, hdisarmed⟩
      · rw [Function.update_of_ne hij]
        exact ⟨id, id⟩
    cases step with
    | armed pc open_ | confirm pc open_ => exact nomatch latched.symm.trans open_
    | announce pc => exact hmove (by rw [pc]; exact fun hn => hn) (by rw [pc]; exact False.elim)
    | begin_ pc | disarmed pc latched' | overtaken pc latched' | tripped pc latched' =>
      exact hmove (fun _ => id) fun _ => trivial
    | register pc | join pc | joinFailed pc | launch pc | receive pc token | timeout pc
    | unsubscribed pc | unsubscribeTimeout pc =>
      exact hmove (fun _ => id) (by rw [pc]; exact False.elim)

/-- `Subscribe` beside trips, shutdowns and rebalances. A call that returns nil has its polling loop
and a callback is registered; polling loops belong to calls that joined the broker, one to each; an
emergency is returned with the reason of the elected trip. Once the latch is closed, a call that
has not confirmed its start never returns nil, and one that has not passed its first look at the
latch never asks the broker. -/
theorem subscribe_respects_trip (registered : Bool) (s : Startup)
    (h : (startupSystem registered).Reachable s) :
    (∀ i, s.subscribes i = .returned .started → i ∈ s.loops ∧ s.consumer.shutdownCallback = true) ∧
    (s.loops.Nodup ∧ ∀ i ∈ s.loops, i ∈ s.joined) ∧
    (∀ i reason, s.subscribes i = .returned (.emergency reason) →
      ∃ r, reason = some r ∧ s.consumer.trip = some r) ∧
    (s.consumer.Latched = true → ∀ s', (startupSystem registered).Run s s' → ∀ i,
      (¬ (s.subscribes i).Confirmed → ¬ (s'.subscribes i).Confirmed) ∧
        ((s.subscribes i).Disarmed → (s'.subscribes i).Disarmed)) := by
  have hinv := inv_of_reachable h
  refine ⟨fun i hi => ?_, ⟨hinv.once, fun i hi => (hinv.loops i hi).1⟩, hinv.emergency,
    fun hlatched s' hrun i => ?_⟩
  · exact ⟨hinv.looping i (by rw [hi]; trivial), hinv.registered i (by rw [hi]; trivial)⟩
  · refine (System.run_invariant (P := fun t => t.consumer.Latched = true ∧
      (¬ (s.subscribes i).Confirmed → ¬ (t.subscribes i).Confirmed) ∧
        ((s.subscribes i).Disarmed → (t.subscribes i).Disarmed)) h ⟨hlatched, id, id⟩ ?_ hrun).2
    rintro a b _ ⟨ha, hconfirmed, hdisarmed⟩ hstep
    obtain ⟨hconfirmed', hdisarmed'⟩ := hstep.held ha i
    exact ⟨hstep.latched ha, fun hn => hconfirmed' (hconfirmed hn), fun hd => hdisarmed' (hdisarmed hd)⟩

/-- The assignment and a trip race: `Subscribe` has taken the token when it sees the latch, and
returns the emergency. A later call does not start the consumer. -/
theorem subscribe_respects_trip_sample : ∃ s : Startup, (startupSystem false).Reachable s ∧
    s.subscribes 0 = .returned (.emergency (some "disk")) ∧ s.consumer.trip = some "disk" ∧
      s.loops = [0] ∧ ∀ s', (startupSystem false).Run s s' → ¬ (s'.subscribes 1).Confirmed := by
  have h0 : (startupSystem false).Reachable { consumer := { shutdownCallback := false } } := .init rfl
  have h1 := h0.step (.subscribe 0 (.begin_ _ rfl))
  have h2 := h1.step (.subscribe 0 (.armed _ rfl rfl))
  have h3 := h2.step (.subscribe 0 (.register _ rfl))
  have h4 := h3.step (.subscribe 0 (.join _ rfl))
  have h5 := h4.step (.subscribe 0 (.launch _ rfl))
  have hassigned := h5.step (.rebalance (.assign _))
  have h6 := hassigned.step (.consumer _ _ (.host (.trip _ 7 (some "disk") rfl)))
  have h7 := h6.step (.consumer _ _ (.trip (.win _ 7 "disk" rfl rfl)))
  have h8 := h7.step (.consumer _ _ (.trip (.writeReason _ 7 "disk" rfl)))
  have h9 := h8.step (.consumer _ _ (.trip (.cancel _ 7 "disk" rfl)))
  have hlatched := h9.step (.consumer _ _ (.trip (.latch _ 7 "disk" rfl)))
  have hreceived := hlatched.step (.subscribe 0 (.receive _ rfl rfl))
  have hreturned := hreceived.step (.subscribe 0 (.overtaken _ rfl rfl))
  obtain ⟨_, _, hemergency, hafter⟩ := subscribe_respects_trip false _ hreturned
  obtain ⟨r, hr, htrip⟩ := hemergency 0 (some "disk") rfl
  cases hr
  exact ⟨_, hreturned, rfl, htrip, rfl, fun s' hrun => (hafter rfl s' hrun 1).1 id⟩

end Startup

end LlingrDemux.Consumer
