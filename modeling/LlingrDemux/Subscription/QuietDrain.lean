import LlingrDemux.Pipeline.Items
import LlingrDemux.Pipeline.Tripped
import LlingrDemux.Pipeline.Wakeups
import LlingrDemux.Subscription.Polling

/-!
# A drain finds the pipeline quiet

While a drain holds the polling loop no send is in progress and none starts, which is what
`DrainWorkers` needs to be complete. So a drain that goes on to the committer leaves nothing
behind in the workers, unless it gave up waiting for the polling loop. Once the breaker has
tripped, the loop polls no more, so it forwards at most the message it is about to get.
-/

namespace LlingrDemux.Polling

open Shared Pipeline
set_option autoImplicit false

variable {T : Type} {cfg : Config} {s s' : Subscription T} {x : Who}

/-- The places of the loop at which no drain holds it. -/
def LoopPc.Runs : LoopPc → Prop
  | .rebalancing | .paused | .stopped => False
  | .outer | .inner | .polling | .forwarding | .failing => True

namespace Subscription

/-- The polling loop stands where the drain holds it. -/
def Held (s : Subscription T) (x : Who) : Hold → Prop
  | .rebalance => x = .poller ∧ s.loop = .rebalancing
  | .pause => s.loop = .paused
  | .stop => s.loop = .stopped
  | .nothing => True

structure Inv (cfg : Config) (s : Subscription T) : Prop where
  demux : (demuxSystem T cfg .process).Reachable s.demux
  idle : s.loop ≠ .forwarding → s.demux.dispatcher = .idle
  held : ∀ x, s.Held x (s.drains x).hold
  single : ∀ x y, (s.drains x).hold = .pause → (s.drains y).hold = .pause → x = y
  mutex : ∀ x, (s.drains x).Inside → s.mu = some x
  covered : ∀ x h d, s.drains x = .drainWorkers h d → h ≠ .nothing →
    s.demux.Covered cfg (s.demux.drainers d)
  drained : ∀ x, (s.drains x).Drained → (s.drains x).hold ≠ .nothing →
    s.demux.Covered cfg .returned
  failed : ∀ x, (s.drains x).failed = true → s.demux.tripped = true

/-- A drain holds the loop only where it is rebalancing, paused or stopped. -/
theorem Held.loop {h : Hold} (held : s.Held x h) (hold : h ≠ .nothing) :
    s.loop = .rebalancing ∨ s.loop = .paused ∨ s.loop = .stopped := by
  cases h with
  | rebalance => exact .inl held.2
  | pause => exact .inr (.inl held)
  | stop => exact .inr (.inr held)
  | nothing => exact absurd rfl hold

theorem Inv.hold_of_runs (h : s.Inv cfg) (runs : s.loop.Runs) (x : Who) :
    (s.drains x).hold = .nothing := by
  by_contra hold
  rcases (h.held x).loop hold with hpc | hpc | hpc <;> rw [hpc] at runs <;> exact runs

theorem Inv.hold_of_paused (h : s.Inv cfg) (pc : s.loop = .paused) (x : Who) :
    (s.drains x).hold = .nothing ∨ (s.drains x).hold = .pause := by
  have hheld := h.held x
  cases hhold : (s.drains x).hold with
  | nothing => exact .inl rfl
  | pause => exact .inr rfl
  | rebalance =>
    rw [hhold] at hheld
    exact nomatch pc.symm.trans hheld.2
  | stop =>
    rw [hhold] at hheld
    exact nomatch pc.symm.trans hheld

theorem Inv.hold_of_rebalancing (h : s.Inv cfg) (pc : s.loop = .rebalancing) (x : Who) :
    (s.drains x).hold = .nothing ∨ x = .poller := by
  have hheld := h.held x
  cases hhold : (s.drains x).hold with
  | nothing => exact .inl rfl
  | rebalance =>
    rw [hhold] at hheld
    exact .inr hheld.1
  | pause | stop =>
    rw [hhold] at hheld
    exact nomatch pc.symm.trans hheld

theorem Inv.quiet (h : s.Inv cfg) (hold : (s.drains x).hold ≠ .nothing) :
    s.demux.dispatcher = .idle := by
  apply h.idle
  intro hpc
  rcases (h.held x).loop hold with h' | h' | h' <;> exact nomatch hpc.symm.trans h'

theorem Inv.initial : ({} : Subscription T).Inv cfg where
  demux := .init rfl
  idle _ := rfl
  held _ := trivial
  single _ _ h := nomatch h
  mutex _ h := h.elim
  covered _ _ _ h := nomatch h
  drained _ h := h.elim
  failed _ h := nomatch h

/-- A loop that no drain holds moves on. -/
theorem Inv.setLoop (h : s.Inv cfg) {pc : LoopPc} (unheld : ∀ x, (s.drains x).hold = .nothing)
    (idle : pc ≠ .forwarding → s.demux.dispatcher = .idle) : (s.setLoop pc).Inv cfg := by
  refine ⟨h.demux, idle, ?_, h.single, h.mutex, h.covered, h.drained, h.failed⟩
  intro x
  have hhold : ((s.setLoop pc).drains x).hold = .nothing := unheld x
  rw [hhold]
  trivial

/-- The polling goroutine moves on with a step of `Process`. -/
theorem Inv.dispatch (h : s.Inv cfg) {pc : LoopPc} {d : Demux T}
    (unheld : ∀ x, (s.drains x).hold = .nothing)
    (step : Demux.Step cfg .process s.demux d) (idle : pc ≠ .forwarding → d.dispatcher = .idle) :
    ({ s with loop := pc, demux := d } : Subscription T).Inv cfg := by
  refine ⟨h.demux.step step, idle, ?_, h.single, h.mutex, ?_, ?_, ?_⟩
  · intro x
    have hhold : (({ s with loop := pc, demux := d } : Subscription T).drains x).hold = .nothing :=
      unheld x
    rw [hhold]
    trivial
  · intro x hd k hpc hne
    have hhold := unheld x
    rw [show s.drains x = .drainWorkers hd k from hpc] at hhold
    exact absurd hhold hne
  · intro x _ hne
    exact absurd (unheld x) hne
  · intro x hfailed
    exact step.tripped (h.failed x hfailed)

/-- One drain moves on. -/
theorem Inv.setDrain (h : s.Inv cfg) {pc : DrainPc} (held : s.Held x pc.hold)
    (single : pc.hold = .pause → ∀ y, (s.drains y).hold = .pause → y = x)
    (mutex : pc.Inside → s.mu = some x)
    (covered : ∀ h d, pc = .drainWorkers h d → h ≠ .nothing →
      s.demux.Covered cfg (s.demux.drainers d))
    (drained : pc.Drained → pc.hold ≠ .nothing → s.demux.Covered cfg .returned)
    (failed : pc.failed = true → s.demux.tripped = true) : (s.setDrain x pc).Inv cfg := by
  have hsame := s.setDrain_same x pc
  have hother : ∀ y, y ≠ x → (s.setDrain x pc).drains y = s.drains y :=
    fun y hy => s.setDrain_other pc hy
  refine ⟨h.demux, h.idle, ?_, ?_, ?_, ?_, ?_, ?_⟩
  · intro y
    by_cases hy : y = x
    · rw [hy, hsame]
      exact held
    · rw [hother y hy]
      exact h.held y
  · intro y z hpy hpz
    by_cases hy : y = x
    · by_cases hz : z = x
      · rw [hy, hz]
      · rw [hy, hsame] at hpy
        rw [hother z hz] at hpz
        rw [hy, single hpy z hpz]
    · rw [hother y hy] at hpy
      by_cases hz : z = x
      · rw [hz, hsame] at hpz
        rw [hz, single hpz y hpy]
      · rw [hother z hz] at hpz
        exact h.single y z hpy hpz
  · intro y hinside
    by_cases hy : y = x
    · rw [hy, hsame] at hinside
      exact hy ▸ mutex hinside
    · rw [hother y hy] at hinside
      exact h.mutex y hinside
  · intro y hd d hpc hne
    by_cases hy : y = x
    · rw [hy, hsame] at hpc
      exact covered hd d hpc hne
    · rw [hother y hy] at hpc
      exact h.covered y hd d hpc hne
  · intro y hdrained hne
    by_cases hy : y = x
    · rw [hy, hsame] at hdrained hne
      exact drained hdrained hne
    · rw [hother y hy] at hdrained hne
      exact h.drained y hdrained hne
  · intro y hfailed
    by_cases hy : y = x
    · rw [hy, hsame] at hfailed
      exact failed hfailed
    · rw [hother y hy] at hfailed
      exact h.failed y hfailed

/-- It moves on inside the mutex, by the same hold. -/
theorem Inv.moveInside (h : s.Inv cfg) {pc : DrainPc} (before : (s.drains x).Inside)
    (hold : pc.hold = (s.drains x).hold) (covered : ∀ h d, pc ≠ .drainWorkers h d)
    (drained : pc.Drained → pc.hold ≠ .nothing → s.demux.Covered cfg .returned)
    (failed : pc.failed = true → s.demux.tripped = true) : (s.setDrain x pc).Inv cfg := by
  refine h.setDrain (hold ▸ h.held x) ?_ (fun _ => h.mutex x before)
    (fun h d hpc => absurd hpc (covered h d)) drained failed
  intro hpause y hy
  exact h.single y x hy (hold ▸ hpause)

/-- Trips change nothing that a drain waits for. -/
theorem Inv.trip (h : s.Inv cfg) : s.trip.Inv cfg := by
  refine ⟨h.demux.step (.env (.trip _)), h.idle, h.held, h.single, h.mutex, ?_, ?_, fun _ _ => rfl⟩
  · intro x hd d hpc hne
    exact Demux.Covered.shrink (.of_maps fun _ => rfl) (h.covered x hd d hpc hne)
  · intro x hdrained hne
    exact Demux.Covered.shrink (.of_maps fun _ => rfl) (h.drained x hdrained hne)

/-- While no send is in progress the maps only lose entries. -/
theorem shrinks_of_quiet {d d' : Demux T} (layout : Layout cfg d) (free : d.dispatcher.Free)
    (step : Demux.QuietStep cfg .process d d') : d.Shrinks d' := by
  obtain ⟨step, same⟩ := step
  cases step with
  | dispatch step =>
    have hshards := (step.quiet free same).2.1
    exact .of_maps fun i => by rw [hshards]
  | work step => exact (step.quiet layout).2.1
  | pool step => exact (step.quiet layout).2.1
  | env step => exact step.quiet.2.1
  | drain step => cases step <;> exact .of_maps fun _ => rfl

/-- A step of the pipeline: with the dispatcher idle it starts no send. -/
theorem Inv.pipeline (h : s.Inv cfg) {d : Demux T} (step : Demux.Step cfg .process s.demux d)
    (inner : Inner s.demux d) : ({ s with demux := d } : Subscription T).Inv cfg := by
  have hquiet : ∀ x, (s.drains x).hold ≠ .nothing → Demux.QuietStep cfg .process s.demux d ∧
      s.demux.dispatcher.Free := by
    intro x hne
    have hidle := h.quiet hne
    refine ⟨⟨step, ?_⟩, hidle ▸ trivial⟩
    rcases step.dispatched with ⟨w, hw, _⟩ | ⟨hsame, _⟩
    · rw [hidle] at hw
      exact nomatch hw
    · exact hsame
  have hlayout := (Placed.of_reachable h.demux).layout
  refine ⟨h.demux.step step, ?_, h.held, h.single, h.mutex, ?_, ?_, ?_⟩
  · intro hpc
    exact inner.polled (h.idle hpc)
  · intro x hd k hpc hne
    have hhold : (s.drains x).hold ≠ .nothing := by rwa [hpc]
    obtain ⟨hstep, hfree⟩ := hquiet x hhold
    exact (hstep.covered hlayout hfree (h.covered x hd k hpc hne)).2
  · intro x hdrained hne
    obtain ⟨hstep, hfree⟩ := hquiet x hne
    exact (h.drained x hdrained hne).shrink (shrinks_of_quiet hlayout hfree hstep)
  · intro x hfailed
    exact step.tripped (h.failed x hfailed)

/-- A drain takes the mutex, which no other has, and starts its `DrainWorkers` goroutine. -/
theorem Inv.lock (h : s.Inv cfg) {hold : Hold} {d : Nat} (pc : s.drains x = .locking hold)
    (free : s.mu = none) (ready : s.demux.Ready cfg) (fresh : s.demux.drainers d = .idle) :
    (s.lock x hold d).Inv cfg := by
  have houtside : ∀ y, ¬ (s.drains y).Inside := by
    intro y hinside
    exact nomatch free.symm.trans (h.mutex y hinside)
  have hcovered : ∀ pc, s.demux.Covered cfg pc →
      (s.demux.setDrainer d (.scanning 0)).Covered cfg pc :=
    fun _ hc => hc.shrink (.of_maps fun _ => rfl)
  have hheld : s.Held x hold := by
    have hx := h.held x
    rwa [pc] at hx
  -- the mutex passes to the drain that nobody else is inside with
  have htaken : ({ s with mu := some x, demux := s.demux.setDrainer d (.scanning 0) } :
      Subscription T).Inv cfg := by
    refine ⟨h.demux.step (.drain (.start _ d ready fresh)), h.idle, h.held, h.single,
      fun y hy => absurd hy (houtside y), ?_, ?_, h.failed⟩
    · intro y hd k hpc
      exact absurd (by rw [hpc]; trivial) (houtside y)
    · intro y hdrained hne
      exact hcovered _ (h.drained y hdrained hne)
  refine htaken.setDrain hheld ?_ (fun _ => rfl) ?_ (fun hdrained => hdrained.elim) nofun
  · intro hpause y hy
    refine h.single y x hy ?_
    rw [pc]
    exact hpause
  · intro hd k hpc _
    obtain ⟨_, rfl⟩ := DrainPc.drainWorkers.inj hpc
    rw [show (s.demux.setDrainer d (.scanning 0)).drainers d = .scanning 0 from
      Function.update_self ..]
    exact fun j hj => absurd hj (Nat.not_lt_zero j)

theorem Inv.release (h : s.Inv cfg) (inside : (s.drains x).Inside) {pc : DrainPc}
    (outside : ¬ pc.Inside) (h' : (s.setDrain x pc).Inv cfg) :
    ({ s.setDrain x pc with mu := none } : Subscription T).Inv cfg := by
  refine ⟨h'.demux, h'.idle, h'.held, h'.single, ?_, h'.covered, h'.drained, h'.failed⟩
  intro y hy
  by_cases hxy : y = x
  · subst hxy
    exact absurd (s.setDrain_same y pc ▸ hy) outside
  · have hy : (s.drains y).Inside := s.setDrain_other pc hxy ▸ hy
    have hmu := (h.mutex y hy).symm.trans (h.mutex x inside)
    exact absurd (Option.some.inj hmu) hxy

theorem Inv.unlock (h : s.Inv cfg) {hold : Hold} {failed : Bool}
    (pc : s.drains x = .unlocking hold failed) : (s.unlock x hold failed).Inv cfg := by
  have hinside : (s.drains x).Inside := by rw [pc]; trivial
  have hheld := h.held x
  have hfailed := h.failed x
  rw [pc] at hheld hfailed
  have hsingle : hold = .pause → ∀ y, (s.drains y).hold = .pause → y = x := by
    intro hpause y hy
    refine h.single y x hy ?_
    rw [pc]
    exact hpause
  have hdrained : failed = false → hold ≠ .nothing → s.demux.Covered cfg .returned := by
    intro hf hne
    refine h.drained x ?_ ?_ <;> rw [pc]
    · rw [hf]
      trivial
    · exact hne
  cases hold with
  | rebalance =>
    obtain ⟨rfl, hloop⟩ := hheld
    have hidle : s.demux.dispatcher = .idle := h.idle fun he => nomatch hloop.symm.trans he
    have hset : (s.setDrain .poller .idle).Inv cfg :=
      h.setDrain trivial nofun (fun hi => hi.elim) nofun (fun hd => hd.elim) nofun
    -- the other drains do not hold a loop that is rebalancing
    refine (h.release hinside id hset).setLoop ?_ fun _ => hidle
    intro y
    show ((s.setDrain .poller .idle).drains y).hold = .nothing
    rcases hset.hold_of_rebalancing hloop y with hnone | rfl
    · exact hnone
    · rw [setDrain_same]
      rfl
  | pause =>
    refine h.release hinside id (h.setDrain hheld hsingle (fun hi => hi.elim) nofun ?_ hfailed)
    intro hd hne
    cases failed with
    | true => exact hd.elim
    | false => exact hdrained rfl hne
  | stop =>
    refine h.release hinside id (h.setDrain hheld nofun (fun hi => hi.elim) nofun ?_ hfailed)
    intro hd hne
    cases failed with
    | true => exact hd.elim
    | false => exact hdrained rfl hne
  | nothing =>
    exact h.release hinside id
      (h.setDrain trivial nofun (fun hi => hi.elim) nofun (fun hd => hd.elim) hfailed)

theorem Inv.drainStep (h : s.Inv cfg) (step : DrainStep cfg s s') : s'.Inv cfg := by
  cases step with
  | ask n behaviour aside pc =>
    exact h.setDrain trivial nofun (fun hi => hi.elim) nofun (fun hd => hd.elim) nofun
  | stopTimeout n pc =>
    exact h.setDrain trivial nofun (fun hi => hi.elim) nofun (fun hd => hd.elim) nofun
  | pauseTimeout n pc =>
    exact h.trip.setDrain trivial nofun (fun hi => hi.elim) nofun (fun hd => hd.elim) fun _ => rfl
  | lock x hold d pc free ready fresh => exact h.lock pc free ready fresh
  | workersDrained x hold d pc done =>
    refine h.moveInside (by rw [pc]; trivial) (by rw [pc]; rfl) nofun ?_ nofun
    intro _ hne
    have hcovered := h.covered x hold d pc hne
    rwa [done] at hcovered
  | workersTimeout x hold d pc =>
    exact h.moveInside (by rw [pc]; trivial) (by rw [pc]; rfl) nofun (fun hd => hd.elim) nofun
  | committerDrained x hold pc =>
    refine h.moveInside (by rw [pc]; trivial) (by rw [pc]; rfl) nofun ?_ nofun
    intro _ hne
    refine h.drained x ?_ ?_ <;> rw [pc]
    · trivial
    · exact hne
  | committerFailed x hold pc =>
    exact h.moveInside (by rw [pc]; trivial) (by rw [pc]; rfl) nofun (fun hd => hd.elim) nofun
  | fail x hold pc =>
    have hinside : (s.trip.drains x).Inside := by
      show (s.drains x).Inside
      rw [pc]
      trivial
    exact h.trip.moveInside hinside (by show _ = (s.drains x).hold; rw [pc]; rfl) nofun
      (fun hd => hd.elim) fun _ => rfl
  | unlock x hold failed pc => exact h.unlock pc
  | resumeTimeout n failed pc =>
    have hfailed := h.failed (.other n)
    rw [pc] at hfailed
    exact h.setDrain trivial nofun (fun hi => hi.elim) nofun (fun hd => hd.elim) hfailed

theorem Inv.loopStep (h : s.Inv cfg) (step : LoopStep cfg s s') : s'.Inv cfg := by
  have hidle := h.idle
  have hruns := h.hold_of_runs
  cases step with
  | enter pc none | cancelled pc done | poll pc live none | noMessage pc | refuse pc =>
    exact h.setLoop (hruns (pc ▸ trivial)) fun _ => hidle (pc ▸ nofun)
  | processed pc idle => exact h.setLoop (hruns (pc ▸ trivial)) fun _ => idle
  | fail pc => exact h.trip.setLoop (hruns (pc ▸ trivial)) fun _ => hidle (pc ▸ nofun)
  | process w pc ready clean =>
    exact h.dispatch (hruns (pc ▸ trivial))
      (.dispatch (.poll _ w rfl ready (hidle (pc ▸ nofun)) clean)) fun hne => absurd rfl hne
  | acquireTimeout w pc waiting =>
    exact h.dispatch (hruns (pc ▸ trivial)) (.dispatch (.acquireTimeout _ w waiting)) fun _ => rfl
  | pause n pc sender =>
    have hunheld := hruns (pc ▸ trivial)
    refine (h.setLoop hunheld fun _ => hidle (pc ▸ nofun)).setDrain rfl ?_ (fun hi => hi.elim) nofun
      (fun hd => hd.elim) nofun
    intro _ y hy
    exact nomatch hy.symm.trans (hunheld y)
  | stop n pc sender =>
    exact (h.setLoop (hruns (pc ▸ trivial)) fun _ => hidle (pc ▸ nofun)).setDrain rfl nofun
      (fun hi => hi.elim) nofun (fun hd => hd.elim) nofun
  | revoke pc =>
    exact (h.setLoop (hruns (pc ▸ trivial)) fun _ => hidle (pc ▸ nofun)).setDrain ⟨rfl, rfl⟩ nofun
      (fun hi => hi.elim) nofun (fun hd => hd.elim) nofun
  | resume n failed pc sender =>
    have hpause : (s.drains (.other n)).hold = .pause := by rw [sender]; rfl
    have hfailed := h.failed (.other n)
    rw [sender] at hfailed
    have hset : (s.setDrain (.other n) (.returned .pause failed)).Inv cfg :=
      h.setDrain trivial nofun (fun hi => hi.elim) nofun (fun hd => hd.elim) hfailed
    refine hset.setLoop ?_ fun _ => hidle (pc ▸ nofun)
    -- the loop was paused for this drain alone
    intro y
    by_cases hy : y = .other n
    · rw [hy, setDrain_same]
      rfl
    · rw [setDrain_other _ _ hy]
      refine (h.hold_of_paused pc y).resolve_right ?_
      intro hother
      exact hy (h.single y (.other n) hother hpause)

theorem inv_of_reachable (h : (pollingSystem T cfg).Reachable s) : s.Inv cfg := by
  refine System.invariant (P := Inv cfg) ?_ ?_ s h
  · intro s hs
    rw [show s = {} from hs]
    exact .initial
  · intro s s' _ hinv step
    cases step with
    | loop step => exact hinv.loopStep step
    | drain step => exact hinv.drainStep step
    | pipeline d step inner => exact hinv.pipeline step inner

/-- In every run of the polling loop with any number of drains: the drains take turns at the
coordinator; a drain that is past the workers and holds the polling loop has left no worker in
a map and nothing dispatched unsettled, and no send is in progress; and a drain that failed has
tripped the breaker. -/
theorem drain_finds_quiet (s : Subscription T) (h : (pollingSystem T cfg).Reachable s) :
    (∀ x y, (s.drains x).Inside → (s.drains y).Inside → x = y) ∧
    (∀ x, (s.drains x).Drained → (s.drains x).hold ≠ .nothing →
      s.demux.dispatcher = .idle ∧ Pipeline.Drained cfg s.demux) ∧
    ∀ x, (s.drains x).failed = true → s.demux.tripped = true := by
  have hinv := inv_of_reachable h
  refine ⟨?_, ?_, hinv.failed⟩
  · intro x y hx hy
    exact Option.some.inj ((hinv.mutex x hx).symm.trans (hinv.mutex y hy))
  · intro x hdrained hne
    have hidle := hinv.quiet hne
    exact ⟨hidle, .of_maps hinv.demux (hidle ▸ trivial) (hinv.drained x hdrained hne)⟩

/-- A step of the pipeline between two calls of `Process`. -/
theorem reachable_between {d : Demux T} (h : (pollingSystem T cfg).Reachable s)
    (step : Demux.Step cfg .process s.demux d) (before : s.demux.dispatcher = .idle)
    (after : d.dispatcher = .idle) (drainers : ∀ k, s.demux.drainers k = .idle → d.drainers k = .idle) :
    (pollingSystem T cfg).Reachable { s with demux := d } :=
  h.step (.pipeline s d step ⟨fun _ => after,
    fun _ hw => (nomatch before.symm.trans hw), drainers⟩)

/-- A step of a `DrainWorkers` call in progress. -/
theorem reachable_draining {k : Nat} {pc : DrainerPc} (h : (pollingSystem T cfg).Reachable s)
    (step : s.demux.DrainStep cfg (s.demux.setDrainer k pc)) (before : s.demux.dispatcher = .idle)
    (busy : s.demux.drainers k ≠ .idle) :
    (pollingSystem T cfg).Reachable { s with demux := s.demux.setDrainer k pc } := by
  refine reachable_between h (.drain step) before before ?_
  intro j hj
  have hne : j ≠ k := fun he => busy (he ▸ hj)
  exact (Function.update_of_ne hne pc s.demux.drainers).trans hj

/-- A step of the send in progress. -/
theorem reachable_sending {d : Demux T} (h : (pollingSystem T cfg).Reachable s)
    (step : s.demux.DispatchStep cfg .process d) (busy : s.demux.dispatcher ≠ .idle)
    (granted : ∀ w, s.demux.dispatcher ≠ .waiting w) :
    (pollingSystem T cfg).Reachable { s with demux := d } := by
  refine h.step (.pipeline s d (.dispatch step) ⟨fun he => absurd he busy,
    fun w hw => absurd hw (granted w), ?_⟩)
  intro k hk
  rw [step.drainers]
  exact hk

/-- The polling loop has forwarded one message, whose worker has received it. -/
theorem reachable_receivedA : (pollingSystem Unit .small).Reachable { demux := Demux.receivedA } := by
  have h0 : (pollingSystem Unit .small).Reachable ({} : Subscription Unit) := .init rfl
  have hturn := reachable_between h0 (.pool (.turn _ 0 [] rfl rfl)) rfl rfl fun _ h => h
  have hready := reachable_between hturn (.pool (.ready _ 0 rfl)) rfl rfl fun _ h => h
  have henter := hready.step (.loop (.enter _ rfl fun _ hn => nomatch hn))
  have hpoll := henter.step (.loop (.poll _ rfl rfl fun _ hn => nomatch hn))
  have hprocess := hpoll.step (.loop (.process _ (itemA 0) rfl (Demux.ready_small rfl) rfl))
  have hguard := reachable_sending hprocess (.takeGuard _ _ rfl (show (0 : Int) < 2 by decide)) nofun
    fun _ hw => nomatch hw
  have hmissing := reachable_sending hguard (.missing _ _ rfl rfl) nofun
    fun _ hw => nomatch hw
  have hborrow := reachable_sending hmissing (.borrow _ _ rfl) nofun
    fun _ hw => nomatch hw
  have hinsert := reachable_sending hborrow (.insert _ _ _ rfl) nofun
    fun _ hw => nomatch hw
  have hhand := reachable_sending hinsert (.hand _ _ _ rfl Nat.zero_lt_one) nofun
    fun _ hw => nomatch hw
  have hprocessed := hhand.step (.loop (.processed _ rfl rfl))
  have hreceive := reachable_between hprocessed
    (.work (.work _ 0 _ _ Nat.zero_lt_one (.receive _ _ _ rfl rfl))) rfl rfl fun _ h => h
  have hcast : ∀ {d d' : Demux Unit}, (pollingSystem Unit .small).Reachable { demux := d } →
      d = d' → (pollingSystem Unit .small).Reachable { demux := d' } := fun h he => he ▸ h
  apply hcast hreceive
  apply Demux.ext
  case workers =>
    funext j
    cases j <;> rfl
  case shards =>
    funext j
    cases j <;> rfl
  all_goals rfl

/-- An `Unsubscribe` whose stop the loop accepted while the worker still had the message: when
it comes to the committer the message is settled. -/
theorem drain_finds_quiet_sample : ∃ s : Subscription Unit,
    s.drains (.other 0) = .drainCommitter .stop ∧ s.demux.log.dispatched = [ident (itemA 0)] ∧
      s.demux.dispatcher = .idle ∧ Pipeline.Drained .small s.demux := by
  have henter := reachable_receivedA.step (.loop (.enter _ rfl fun _ hn => nomatch hn))
  have hask := henter.step (.drain (.ask _ 0 .shutdownStopPollingBeforeDrain nofun rfl))
  have hstop := hask.step (.loop (.stop _ 0 rfl rfl))
  have hlock := hstop.step (.drain (.lock _ (.other 0) .stop 0 rfl rfl (Demux.ready_small rfl) rfl))
  have hlook : ∀ {d : Demux Unit}, d.shards = Demux.receivedA.shards → d.Snapshot 0 [0] := by
    intro d hshards
    refine ⟨List.nodup_singleton 0, fun id => ⟨fun hid => ⟨"a", ?_⟩, ?_⟩⟩
    · obtain rfl := List.mem_singleton.mp hid
      rw [hshards]
      rfl
    · intro hmapped
      obtain ⟨k, hk⟩ := hmapped
      rw [hshards] at hk
      have hlayout := (Placed.of_reachable Demux.receivedA_reachable).layout
      have hmade := ((hlayout.mapped _ _ _).mp hk).made
      exact List.mem_singleton.mpr (Nat.lt_one_iff.mp hmade)
  have hscan := reachable_draining hlock
    (.scan _ 0 0 [0] rfl Nat.zero_lt_one id (hlook rfl)) rfl nofun
  have hpark := reachable_draining hscan (.park _ 0 0 0 [] rfl id rfl) rfl nofun
  have hclear := reachable_between hpark
    (.work (.work _ 0 _ _ Nat.zero_lt_one (.clear _ _ rfl rfl))) rfl rfl fun _ h => h
  have hinvoke := reachable_between hclear
    (.work (.work _ 0 _ _ Nat.zero_lt_one (.invoke _ _ rfl))) rfl rfl fun _ h => h
  have hsucceed := reachable_between hinvoke
    (.work (.work _ 0 _ _ Nat.zero_lt_one (.succeed _ _ 1 1 rfl))) rfl rfl fun _ h => h
  have hcommit := reachable_between hsucceed
    (.work (.work _ 0 _ _ Nat.zero_lt_one (.commit _ _ rfl))) rfl rfl fun _ h => h
  have hempty := reachable_between hcommit
    (.work (.work _ 0 _ _ Nat.zero_lt_one (.fallThrough _ rfl rfl))) rfl rfl fun _ h => h
  have hretire := reachable_between hempty (.work (.retire _ 0 Nat.zero_lt_one rfl rfl id)) rfl rfl
    fun _ h => congrArg (DrainerPc.wake 0) h
  have hpass := reachable_draining hretire (.pass _ 0 0 0 [] rfl id rfl) rfl nofun
  have hnext := reachable_draining hpass (.next _ 0 0 rfl) rfl nofun
  have hreturn := reachable_draining hnext (.return_ _ 0 1 rfl rfl) rfl nofun
  have hdrained := hreturn.step (.drain (.workersDrained _ (.other 0) .stop 0 rfl rfl))
  obtain ⟨hidle, hmaps⟩ := (drain_finds_quiet _ hdrained).2.1 (.other 0) trivial nofun
  exact ⟨_, rfl, rfl, hidle, hmaps⟩

/-! ## After a trip -/

end Subscription

/-- The messages that the loop may still forward without another poll. -/
def LoopPc.coming : LoopPc → Nat
  | .polling | .rebalancing => 1
  | .outer | .paused | .inner | .forwarding | .failing | .stopped => 0

theorem LoopPc.coming_le (pc : LoopPc) : pc.coming ≤ 1 := by
  cases pc <;> decide

namespace Subscription

/-- The messages that are polled or being polled and have no worker. -/
def coming (s : Subscription T) : Nat :=
  s.loop.coming + s.demux.dispatcher.undispatched.toList.length

/-- A drain lets a loop go on in the poll that it was called from. -/
theorem DrainStep.frame (h : s.Inv cfg) (step : DrainStep cfg s s') :
    s'.demux.log = s.demux.log ∧ s'.demux.dispatcher = s.demux.dispatcher ∧
      (s.demux.tripped = true → s'.demux.tripped = true) ∧
      (s'.loop = s.loop ∨ s.loop = .rebalancing ∧ s'.loop = .polling) := by
  cases step with
  | ask n behaviour aside pc | stopTimeout n pc | workersDrained x hold d pc done
  | workersTimeout x hold d pc | committerDrained x hold pc | committerFailed x hold pc
  | resumeTimeout n failed pc | lock x hold d pc free ready fresh =>
    exact ⟨rfl, rfl, id, .inl rfl⟩
  | pauseTimeout n pc | fail x hold pc => exact ⟨rfl, rfl, fun _ => rfl, .inl rfl⟩
  | unlock x hold failed pc =>
    cases hold with
    | rebalance =>
      have hheld := h.held x
      rw [pc] at hheld
      exact ⟨rfl, rfl, id, .inr ⟨hheld.2, rfl⟩⟩
    | pause | stop | nothing => exact ⟨rfl, rfl, id, .inl rfl⟩

/-- With the breaker tripped no poll begins, so what is forwarded was coming before. -/
theorem LoopStep.forwards (tripped : s.demux.tripped = true) (step : LoopStep cfg s s') :
    s'.demux.tripped = true ∧ s'.demux.log = s.demux.log ∧ s'.coming ≤ s.coming ∧
      s.loop ≠ .stopped := by
  cases step with
  | pause n pc sender | enter pc none | resume n failed pc sender | cancelled pc done
  | stop n pc sender | refuse pc | processed pc idle | noMessage pc =>
    refine ⟨tripped, rfl, ?_, by rw [pc]; decide⟩
    exact Nat.add_le_add_right (Nat.zero_le _) _
  | revoke pc =>
    refine ⟨tripped, rfl, ?_, by rw [pc]; decide⟩
    rw [coming, coming, pc]
    exact le_rfl
  | poll pc live none => exact nomatch tripped.symm.trans live
  | process w pc ready clean =>
    refine ⟨tripped, rfl, ?_, by rw [pc]; decide⟩
    rw [coming, coming, pc]
    exact Nat.le_add_right 1 _
  | acquireTimeout w pc waiting =>
    refine ⟨tripped, rfl, ?_, by rw [pc]; decide⟩
    rw [coming, coming, pc]
    exact Nat.zero_le _
  | fail pc =>
    refine ⟨rfl, rfl, ?_, by rw [pc]; decide⟩
    rw [coming, coming, pc]
    exact le_rfl

theorem Step.forwards (h : s.Inv cfg) (tripped : s.demux.tripped = true) (step : Step cfg s s') :
    s'.demux.tripped = true ∧ s'.demux.log.dispatched.length + s'.coming ≤
      s.demux.log.dispatched.length + s.coming ∧ (s.loop = .stopped → s'.loop = .stopped) := by
  cases step with
  | loop step =>
    obtain ⟨htripped, hlog, hcoming, hloop⟩ := step.forwards tripped
    rw [hlog]
    exact ⟨htripped, Nat.add_le_add_left hcoming _, fun hs => absurd hs hloop⟩
  | drain step =>
    obtain ⟨hlog, hdispatcher, htripped, hloop⟩ := step.frame h
    rw [hlog, coming, coming, hdispatcher]
    rcases hloop with hsame | ⟨hbefore, hafter⟩
    · rw [hsame]
      exact ⟨htripped tripped, le_rfl, id⟩
    · rw [hbefore, hafter]
      exact ⟨htripped tripped, le_rfl, fun hs => nomatch hs⟩
  | pipeline d step inner =>
    refine ⟨step.tripped tripped, ?_, id⟩
    simp only [coming]
    rcases step.dispatched with ⟨w, hw, hlog, hnone⟩ | ⟨hlog, hkeep⟩
    · rw [hlog, hw, hnone, List.length_append]
      simp only [List.length_singleton, Option.toList_some, Option.toList_none, List.length_nil]
      omega
    · rw [hlog]
      cases hd : d.dispatcher.undispatched with
      | none => simp only [Option.toList_none, List.length_nil]; omega
      | some w =>
        rcases hkeep w hd with hw | ⟨hidle, hacquiring⟩
        · rw [hw]
        · exact nomatch hacquiring.symm.trans (inner.polled hidle)

/-- Along every run after a trip at most one more message gets a worker, and none unless the loop
was in a poll or in `Process`; and a loop that has stopped does not start again. -/
theorem polling_after_trip (s s' : Subscription T) (h : (pollingSystem T cfg).Reachable s)
    (tripped : s.demux.tripped = true) (run : (pollingSystem T cfg).Run s s') :
    s'.demux.log.dispatched.length ≤ s.demux.log.dispatched.length + 1 ∧
    (s.loop ≠ .polling → s.loop ≠ .rebalancing → s.loop ≠ .forwarding →
      s'.demux.log.dispatched.length ≤ s.demux.log.dispatched.length) ∧
    (s.loop = .stopped → s'.loop = .stopped) := by
  have hidle := (inv_of_reachable h).idle
  obtain ⟨_, hbound, hstopped⟩ : s'.demux.tripped = true ∧
      s'.demux.log.dispatched.length + s'.coming ≤ s.demux.log.dispatched.length + s.coming ∧
      (s.loop = .stopped → s'.loop = .stopped) := by
    refine System.run_invariant (P := fun t => t.demux.tripped = true ∧
      t.demux.log.dispatched.length + t.coming ≤ s.demux.log.dispatched.length + s.coming ∧
      (s.loop = .stopped → t.loop = .stopped)) h ⟨tripped, le_rfl, id⟩ ?_ run
    rintro a b ha ⟨htripped, hle, hstop⟩ hstep
    obtain ⟨htripped', hle', hstop'⟩ := hstep.forwards (inv_of_reachable ha) htripped
    exact ⟨htripped', hle'.trans hle, fun hs => hstop' (hstop hs)⟩
  -- between two calls of `Process` the dispatcher has nothing
  have hone : s.coming ≤ 1 := by
    by_cases hloop : s.loop = .forwarding
    · rw [coming, hloop]
      cases s.demux.dispatcher.undispatched with
      | none => exact Nat.zero_le 1
      | some w => exact le_rfl
    · rw [coming, hidle hloop]
      exact s.loop.coming_le
  refine ⟨by omega, fun hpoll hrebalance hforward => ?_, hstopped⟩
  have hzero : s.coming = 0 := by
    rw [coming, hidle hforward]
    cases hloop : s.loop with
    | polling => exact absurd hloop hpoll
    | rebalancing => exact absurd hloop hrebalance
    | outer | paused | inner | forwarding | failing | stopped => rfl
  omega

/-- A rebalance that cannot pause the loop trips the breaker while the loop is in a poll, whose
message is still forwarded. -/
theorem polling_after_trip_sample : ∃ s s' : Subscription Unit, s.demux.tripped = true ∧
    s.demux.log.dispatched = [] ∧ s'.demux.log.dispatched = [ident (itemA 0)] ∧
      s'.demux.log.dispatched.length ≤ s.demux.log.dispatched.length + 1 := by
  have h0 : (pollingSystem Unit .small).Reachable ({} : Subscription Unit) := .init rfl
  have hturn := reachable_between h0 (.pool (.turn _ 0 [] rfl rfl)) rfl rfl fun _ h => h
  have hready := reachable_between hturn (.pool (.ready _ 0 rfl)) rfl rfl fun _ h => h
  have henter := hready.step (.loop (.enter _ rfl fun _ hn => nomatch hn))
  have hpoll := henter.step (.loop (.poll _ rfl rfl fun _ hn => nomatch hn))
  have hask := hpoll.step (.drain (.ask _ 0 .asyncStopPollingBeforeDrain (by decide) rfl))
  have htrip := hask.step (.drain (.pauseTimeout _ 0 rfl))
  have hstart : ∀ {a b : Subscription Unit}, (pollingSystem Unit .small).Reachable a →
      (pollingSystem Unit .small).step a b → (pollingSystem Unit .small).Run a b :=
    fun _ hstep => .single hstep
  have hprocess := hstart htrip (.loop (.process _ (itemA 0) rfl (Demux.ready_small rfl) rfl))
  have hguard := hprocess.tail (show (pollingSystem Unit .small).step _ _ from
    .pipeline _ _ (.dispatch (.takeGuard _ _ rfl (show (0 : Int) < 2 by decide)))
      ⟨fun hi => (nomatch hi), fun _ hw => (nomatch hw), fun _ hk => hk⟩)
  exact ⟨_, _, rfl, rfl, rfl, (polling_after_trip _ _ htrip rfl hguard).1⟩

end Subscription

end LlingrDemux.Polling
