import LlingrDemux.Pipeline.KeyLane
import LlingrDemux.Shared.Counting

/-!
# Concurrency tokens are conserved

For the polling goroutine in `Process`: every token of this consumer in the guard or in
the shared overflow guard belongs to one worker that was activated by an item holding it,
or to the item being dispatched. A release is made by the holder, once, and of its kind.
-/

namespace LlingrDemux.Pipeline

open Shared
set_option autoImplicit false

variable {T : Type} {cfg : Config} {c : Caller} {s s' : Demux T}

namespace Demux

/-- The tokens of a kind this consumer has acquired and not released. -/
def held (s : Demux T) : Token → Int
  | .guard => s.guard
  | .overflow => s.overflow

/-- The workers activated by an item holding the kind which have not released it. -/
def holders (s : Demux T) (t : Token) : Nat :=
  Nat.count (fun id => (s.workers id).activatedBy = some t) s.created

/-- The dispatched item's token, if it is neither released nor passed on to a worker. -/
def pending (s : Demux T) (t : Token) : Nat := if s.dispatcher.token = some t then 1 else 0

theorem holders_congr {t : Token} (created : s'.created = s.created)
    (same : ∀ id < s.created, (s'.workers id).activatedBy = (s.workers id).activatedBy) :
    s'.holders t = s.holders t := by
  unfold holders
  rw [created]
  apply count_congr
  intro id hid
  rw [same id hid]

theorem holders_setWorker {t : Token} {id : Nat} {w : Worker T}
    (same : w.activatedBy = (s.workers id).activatedBy) :
    (s.setWorker id w).holders t = s.holders t := by
  refine holders_congr rfl ?_
  intro j _
  by_cases hj : j = id
  · subst hj
    rw [setWorker_same, same]
  · rw [setWorker_other w hj]

/-- One worker takes a token or gives it back. -/
theorem holders_change {t : Token} {id : Nat} {w : Worker T} (made : id < s.created) :
    (s.setWorker id w).holders t + (if (s.workers id).activatedBy = some t then 1 else 0) =
      s.holders t + (if w.activatedBy = some t then 1 else 0) := by
  have hchange := count_change (p := fun j => ((s.setWorker id w).workers j).activatedBy = some t)
    (q := fun j => (s.workers j).activatedBy = some t) made
    (fun j hj => by rw [setWorker_other w hj])
  rw [setWorker_same] at hchange
  exact hchange

theorem holders_borrowWorker (i : Nat) (holder : Holder) (t : Token) :
    (s.borrowWorker i holder).2.holders t = s.holders t := by
  unfold borrowWorker
  split
  · rename_i id rest hpool
    exact holders_setWorker rfl
  · have hnew : ((s.setWorker s.created { shard := i, place := .held holder }).workers
        s.created).activatedBy = none := by rw [setWorker_same]
    show Nat.count _ (s.created + 1) = _
    rw [Nat.count_succ, if_neg (by rw [hnew]; exact nofun)]
    apply count_congr
    intro j hj
    rw [setWorker_other _ (Nat.ne_of_lt hj)]

theorem holders_returnWorker (i id : Nat) (t : Token) :
    (s.returnWorker cfg i id).holders t = s.holders t := by
  unfold returnWorker
  split
  · exact holders_setWorker rfl
  · exact holders_setWorker rfl

theorem PoolStep.holders {t : Token} (step : s.PoolStep cfg s') : s'.holders t = s.holders t := by
  cases step with
  | tick i prevLen pc => rfl
  | miss i n pc pool => rfl
  | turn i warmed pc enough => rfl
  | ready i pc => rfl
  | take i n id rest pc pool => exact holders_setWorker (s := s.setPool i rest) rfl
  | close i n id pc => exact holders_setWorker (s := s.setPruner i (.waiting (some n))) rfl
  | warm i warmed pc more => exact holders_borrowWorker i (.warmup i) t
  | return_ i id warmed pc => exact holders_returnWorker (s := s.setWarmup i _) i id t

theorem held_congr (guard : s'.guard = s.guard) (overflow : s'.overflow = s.overflow) (t : Token) :
    s'.held t = s.held t := by
  cases t with
  | guard => exact guard
  | overflow => exact overflow

theorem PoolsOnly.held (h : s.PoolsOnly s') (t : Token) : s'.held t = s.held t :=
  held_congr h.guard h.overflow t

@[simp] theorem held_acquire (t t' : Token) :
    (s.acquire t).held t' = s.held t' + if t = t' then 1 else 0 := by
  cases t <;> cases t' <;> simp [acquire, held]

@[simp] theorem held_release (t t' : Token) :
    (s.release t).held t' = s.held t' - if t = t' then 1 else 0 := by
  cases t <;> cases t' <;> simp [release, held]

theorem holders_acquire (t t' : Token) : (s.acquire t).holders t' = s.holders t' := by
  cases t <;> rfl

theorem holders_release (t t' : Token) : (s.release t).holders t' = s.holders t' := by
  cases t <;> rfl

end Demux

/-- The token a worker is about to release is the one it was activated by. -/
theorem Layout.releasing_token (layout : Layout cfg s) {id : Nat} (made : id < s.created)
    (pc : (s.workers id).pc = .releasing) :
    (s.workers id).activatedBy = some (.ofOverflow (s.workers id).usedOverflow) := by
  have hsound := layout.sound id made
  rcases (hsound.retiring (hsound.retiring_of_pc (.inl pc))).token with ⟨_, ht⟩ | ⟨hpc | hpc, _⟩
  · exact ht
  · exact nomatch pc.symm.trans hpc
  · exact nomatch pc.symm.trans hpc

/-- Every token has a holder. An item that waits for a token is not marked, and the guard
is not overfull. -/
structure Balance (cfg : Config) (s : Demux T) : Prop where
  exact : ∀ t, s.held t = s.holders t + s.pending t
  clean : ∀ w, s.dispatcher = .acquiring w ∨ s.dispatcher = .waiting w → token w = .guard
  capacity : s.held .guard ≤ cfg.guardCap

namespace Balance

theorem initial : Balance cfg (Demux.initial : Demux T) where
  exact t := by cases t <;> rfl
  clean w h := by rcases h with h | h <;> exact nomatch h
  capacity := Int.natCast_nonneg _

/-- A step that neither moves a token nor the dispatcher. -/
theorem keep (h : Balance cfg s) (held : ∀ t, s'.held t = s.held t)
    (holders : ∀ t, s'.holders t = s.holders t) (dispatcher : s'.dispatcher = s.dispatcher) :
    Balance cfg s' where
  exact t := by
    rw [held, holders, Demux.pending, dispatcher]
    exact h.exact t
  clean w hw := h.clean w (dispatcher ▸ hw)
  capacity := by
    rw [held]
    exact h.capacity

/-- The dispatcher moves on with the token it has, or without one. -/
theorem move (h : Balance cfg s) (held : ∀ t, s'.held t = s.held t)
    (holders : ∀ t, s'.holders t = s.holders t)
    (pending : s'.dispatcher.token = s.dispatcher.token)
    (clean : ∀ w, s'.dispatcher = .acquiring w ∨ s'.dispatcher = .waiting w → token w = .guard) :
    Balance cfg s' where
  exact t := by
    rw [held, holders, Demux.pending, pending]
    exact h.exact t
  clean := clean
  capacity := by
    rw [held]
    exact h.capacity

theorem send (h : Balance cfg s) {w : WorkItem T} (room : s.Room cfg (token w))
    (free : s.dispatcher.token = none) : Balance cfg ((s.acquire (token w)).send cfg w) where
  exact t := by
    have hb := h.exact t
    have hheld : ((s.acquire (token w)).send cfg w).held t = (s.acquire (token w)).held t := by
      cases t <;> rfl
    have hholders : ((s.acquire (token w)).send cfg w).holders t = s.holders t :=
      Demux.holders_acquire (token w) t
    have hpending : ((s.acquire (token w)).send cfg w).pending t =
        if some (token w) = some t then 1 else 0 := rfl
    have hfree : s.pending t = 0 := by simp [Demux.pending, free]
    rw [hheld, hholders, hpending, Demux.held_acquire]
    by_cases ht : token w = t
    · rw [if_pos ht, if_pos (congrArg some ht)]
      omega
    · rw [if_neg ht, if_neg (fun he => ht (Option.some.inj he))]
      omega
  clean w' hw' := by rcases hw' with hw' | hw' <;> exact nomatch hw'
  capacity := by
    show (s.acquire (token w)).held .guard ≤ _
    rw [Demux.held_acquire]
    have hcap := h.capacity
    cases ht : token w with
    | guard =>
      rw [ht] at room
      exact room
    | overflow =>
      simpa using hcap

theorem insert (h : Balance cfg s) (placed : Placed cfg s) {w : WorkItem T} {id : Nat}
    (pc : s.dispatcher = .inserting w id) : Balance cfg (s.insert cfg w id) where
  exact t := by
    have hat := placed.dispatching.borrowed w id pc
    have hrest := (placed.layout.sound id hat.made).held hat.place
    have hb := h.exact t
    have hheld : (s.insert cfg w id).held t = s.held t := by cases t <;> rfl
    have hchange : (s.insert cfg w id).holders t +
        (if (s.workers id).activatedBy = some t then 1 else 0) =
          s.holders t + (if some (token w) = some t then 1 else 0) :=
      Demux.holders_change (s := s.setEntry (cfg.shardOf w.message.key) w.message.key (some id))
        hat.made
    rw [if_neg (by rw [hrest.token]; exact nofun)] at hchange
    have hpending : s.pending t = if some (token w) = some t then 1 else 0 := by
      rw [Demux.pending, pc]
      rfl
    have hpending' : (s.insert cfg w id).pending t = 0 := rfl
    rw [hheld, hpending']
    omega
  clean w' hw' := by rcases hw' with hw' | hw' <;> exact nomatch hw'
  capacity := h.capacity

theorem settle (h : Balance cfg s) {t : Token} (pc : s.dispatcher = .settling t) :
    Balance cfg { s.release t with dispatcher := .idle } where
  exact t' := by
    have hb := h.exact t'
    have hheld : ({ s.release t with dispatcher := .idle } : Demux T).held t' =
        (s.release t).held t' := by cases t' <;> rfl
    have hholders : ({ s.release t with dispatcher := .idle } : Demux T).holders t' = s.holders t' :=
      Demux.holders_release t t'
    have hpending : s.pending t' = if some t = some t' then 1 else 0 := by
      rw [Demux.pending, pc]
      rfl
    have hpending' : ({ s.release t with dispatcher := .idle } : Demux T).pending t' = 0 := rfl
    rw [hheld, hholders, hpending', Demux.held_release]
    by_cases ht : t = t'
    · rw [if_pos (congrArg some ht)] at hpending
      rw [if_pos ht]
      omega
    · rw [if_neg (fun he => ht (Option.some.inj he))] at hpending
      rw [if_neg ht]
      omega
  clean w' hw' := by rcases hw' with hw' | hw' <;> exact nomatch hw'
  capacity := by
    have hcap := h.capacity
    show (s.release t).held .guard ≤ _
    rw [Demux.held_release]
    split <;> omega

theorem release (h : Balance cfg s) (placed : Placed cfg s) {id : Nat} (made : id < s.created)
    (pc : (s.workers id).pc = .releasing) : Balance cfg (s.releaseWorker id) := by
  have htoken := placed.layout.releasing_token made pc
  refine ⟨?_, ?_, ?_⟩
  · intro t
    have hb := h.exact t
    have hheld : (s.releaseWorker id).held t =
        s.held t - if Token.ofOverflow (s.workers id).usedOverflow = t then 1 else 0 := by
      rw [Demux.releaseWorker, Demux.held_release]
      cases t <;> rfl
    have hchange : (s.releaseWorker id).holders t +
        (if (s.workers id).activatedBy = some t then 1 else 0) =
          s.holders t + (if (none : Option Token) = some t then 1 else 0) := by
      rw [Demux.releaseWorker, Demux.holders_release]
      exact Demux.holders_change made
    have hpending : (s.releaseWorker id).pending t = s.pending t := by
      rw [Demux.pending, Demux.releaseWorker_dispatcher]
      rfl
    rw [if_neg (nofun : (none : Option Token) ≠ some t), htoken] at hchange
    rw [hheld, hpending]
    by_cases ht : Token.ofOverflow (s.workers id).usedOverflow = t
    · rw [if_pos (congrArg some ht)] at hchange
      rw [if_pos ht]
      omega
    · rw [if_neg (fun he => ht (Option.some.inj he))] at hchange
      rw [if_neg ht]
      omega
  · intro w hw
    rw [Demux.releaseWorker_dispatcher] at hw
    exact h.clean w hw
  · have hcap := h.capacity
    rw [Demux.releaseWorker, Demux.held_release]
    show s.held .guard - _ ≤ _
    split <;> omega

theorem dispatchStep (h : Balance cfg s) (placed : Placed cfg s)
    (step : s.DispatchStep cfg .process s') : Balance cfg s' := by
  cases step with
  | poll w caller ready pc clean =>
    refine h.move (fun t => by cases t <;> rfl) (fun _ => rfl) (by rw [pc]; rfl) ?_
    intro w' hw'
    rcases hw' with hw' | hw'
    · injection hw' with hw'
      rw [← hw', token, clean]
      rfl
    · exact nomatch hw'
  | guardFull w pc full =>
    refine h.move (fun t => by cases t <;> rfl) (fun _ => rfl) (by rw [pc]; rfl) ?_
    intro w' hw'
    rcases hw' with hw' | hw'
    · exact nomatch hw'
    · injection hw' with hw'
      exact hw' ▸ h.clean w (.inl pc)
  | takeGuard w pc room =>
    have ht := h.clean w (.inl pc)
    rw [← ht]
    exact h.send (ht ▸ room) (by rw [pc]; rfl)
  | takeGuardLate w pc room =>
    have ht := h.clean w (.inr pc)
    rw [← ht]
    exact h.send (ht ▸ room) (by rw [pc]; rfl)
  | takeOverflow w pc room =>
    exact h.send (w := { w with metrics.traits.usedOverflow := true }) room (by rw [pc]; rfl)
  | call w caller ready pc => exact nomatch caller
  | deposit t caller room => exact nomatch caller
  | acquireTimeout w pc | stall w id pc found full | stallRetry w timeout pc live
  | stallExit w pc done | missing w pc absent =>
    refine h.move (fun t => by cases t <;> rfl) (fun _ => rfl) (by rw [pc]; rfl) ?_
    intro w' hw'
    rcases hw' with hw' | hw' <;> exact nomatch hw'
  | pipeline w id pc found room =>
    refine h.move (fun t => by cases t <;> rfl) (fun t => ?_) (by rw [pc]; rfl) ?_
    · exact Demux.holders_setWorker rfl
    · intro w' hw'
      rcases hw' with hw' | hw' <;> exact nomatch hw'
  | hand w id pc room =>
    refine h.move (fun t => by cases t <;> rfl) (fun t => ?_) (by rw [pc]; rfl) ?_
    · exact Demux.holders_setWorker rfl
    · intro w' hw'
      rcases hw' with hw' | hw' <;> exact nomatch hw'
  | borrow w pc =>
    have hpools := Demux.borrowWorker_poolsOnly (s := s) (cfg.shardOf w.message.key) .dispatcher
    refine h.move (Demux.held_congr hpools.guard hpools.overflow) (fun t => ?_) (by rw [pc]; rfl) ?_
    · exact Demux.holders_borrowWorker _ _ t
    · intro w' hw'
      rcases hw' with hw' | hw' <;> exact nomatch hw'
  | insert w id pc => exact h.insert placed pc
  | settle t pc filled => exact h.settle pc

theorem workStep (h : Balance cfg s) (placed : Placed cfg s) (step : s.WorkStep cfg s') :
    Balance cfg s' := by
  cases step with
  | work id e w made step =>
    refine h.keep (fun t => by cases t <;> rfl) (fun t => ?_) rfl
    exact Demux.holders_setWorker step.activatedBy
  | resume id made pc arrived free =>
    exact h.keep (fun t => by cases t <;> rfl) (fun _ => Demux.holders_setWorker rfl) rfl
  | retire id made pc empty free =>
    refine h.keep (fun t => by cases t <;> rfl) (fun t => ?_) rfl
    exact Demux.holders_setWorker
      (s := s.setEntry (s.workers id).shard (s.workers id).partitionKey none) rfl
  | release id made pc filled => exact h.release placed made pc
  | giveBack id made pc =>
    have hpools := Demux.giveBack_poolsOnly (s := s) cfg id
    refine h.keep hpools.held (fun t => ?_) hpools.dispatcher
    rw [Demux.giveBack, Demux.holders_returnWorker]
    exact Demux.holders_setWorker rfl

theorem step (h : Balance cfg s) (placed : Placed cfg s) (step : Demux.Step cfg .process s s') :
    Balance cfg s' := by
  cases step with
  | dispatch step => exact h.dispatchStep placed step
  | work step => exact h.workStep placed step
  | pool step => exact h.keep step.poolsOnly.held (fun _ => step.holders) step.poolsOnly.dispatcher
  | env step => cases step <;> exact h.keep (fun t => by cases t <;> rfl) (fun _ => rfl) rfl
  | drain step => cases step <;> exact h.keep (fun t => by cases t <;> rfl) (fun _ => rfl) rfl

theorem of_reachable (h : (demuxSystem T cfg .process).Reachable s) : Balance cfg s := by
  refine System.invariant (P := Balance cfg) ?_ ?_ s h
  · intro s hs
    rw [show s = Demux.initial from hs]
    exact Balance.initial
  · intro s s' hs hb hstep
    exact hb.step (.of_reachable hs) hstep

end Balance

/-- A worker has a token exactly while it is in a map or about to release. -/
theorem Layout.activated_iff (layout : Layout cfg s) {id : Nat} (made : id < s.created) :
    (s.workers id).activatedBy ≠ none ↔
      (∃ i k, (s.shards i).workers k = some id) ∨ (s.workers id).pc = .releasing := by
  have hsound := layout.sound id made
  constructor
  · intro hne
    cases hp : (s.workers id).place with
    | serving k => exact .inl ⟨_, k, (layout.mapped _ _ _).mpr ⟨made, rfl, hp⟩⟩
    | retiring =>
      rcases (hsound.retiring hp).token with ⟨hpc, _⟩ | ⟨_, hnone⟩
      · exact .inr hpc
      · exact absurd hnone hne
    | pooled => exact absurd (hsound.pooled hp).token hne
    | held holder => exact absurd (hsound.held hp).token hne
    | stopped => exact absurd (hsound.stopped hp).token hne
  · intro h hnone
    rcases h with ⟨i, k, hentry⟩ | hpc
    · obtain ⟨t, ht⟩ := hsound.serving ((layout.mapped _ _ _).mp hentry).place
      exact nomatch hnone.symm.trans ht.token
    · have hret := hsound.retiring (hsound.retiring_of_pc (.inl hpc))
      rcases hret.token with ⟨_, ht⟩ | ⟨hpc' | hpc', _⟩
      · exact nomatch hnone.symm.trans ht
      · exact nomatch hpc.symm.trans hpc'
      · exact nomatch hpc.symm.trans hpc'

/-- Activated workers hold a token of one kind or of the other. -/
theorem Demux.count_activated (n : Nat) :
    Nat.count (fun id => (s.workers id).activatedBy ≠ none) n =
      Nat.count (fun id => (s.workers id).activatedBy = some .guard) n +
        Nat.count (fun id => (s.workers id).activatedBy = some .overflow) n := by
  induction n with
  | zero => rfl
  | succ n ih =>
    simp only [Nat.count_succ, ih]
    cases (s.workers n).activatedBy with
    | none => simp
    | some t =>
      cases t
      · simp
        omega
      · simp
        omega

/-- The map entries are at most as many as the activated workers. -/
theorem Layout.entries_le (layout : Layout cfg s) {entries : List (Nat × String)}
    (nodup : entries.Nodup) (mapped : ∀ e ∈ entries, (s.shards e.1).workers e.2 ≠ none) :
    entries.length ≤ s.holders .guard + s.holders .overflow := by
  let worker := fun e : Nat × String => ((s.shards e.1).workers e.2).getD 0
  have hentry : ∀ e ∈ entries, (s.shards e.1).workers e.2 = some (worker e) := by
    intro e he
    obtain ⟨id, hid⟩ := Option.ne_none_iff_exists'.mp (mapped e he)
    simp only [worker, hid, Option.getD_some]
  have hnodup : (entries.map worker).Nodup := by
    refine (List.nodup_map_iff_inj_on nodup).mpr ?_
    intro e he e' he' hsame
    have hat := (layout.mapped _ _ _).mp (hentry e he)
    have hiff := layout.entry_iff hat (hentry e' he')
    obtain ⟨h1, h2⟩ := hiff.mp hsame.symm
    exact Prod.ext h1.symm h2.symm
  have hcount := length_le_count (n := s.created)
    (p := fun id => (s.workers id).activatedBy ≠ none) hnodup (by
      intro id hid
      obtain ⟨e, he, rfl⟩ := List.mem_map.mp hid
      have hmade := ((layout.mapped _ _ _).mp (hentry e he)).made
      exact ⟨hmade, (layout.activated_iff hmade).mpr (.inl ⟨_, _, hentry e he⟩)⟩)
  rw [List.length_map, Demux.count_activated] at hcount
  exact hcount

/-- Who holds the tokens of this consumer. A worker has its token from its activation until it
has released it, which comes after it has left the map and is no longer active. -/
structure Conserved (cfg : Config) (s : Demux T) : Prop where
  exact : ∀ t, s.held t = s.holders t + s.pending t
  active : ∀ id < s.created, (s.workers id).activatedBy ≠ none ↔
    (∃ i k, (s.shards i).workers k = some id) ∨ (s.workers id).pc = .releasing
  kind : ∀ id < s.created, (s.workers id).pc = .releasing →
    (s.workers id).activatedBy = some (.ofOverflow (s.workers id).usedOverflow)
  entries : ∀ entries : List (Nat × String), entries.Nodup →
    (∀ e ∈ entries, (s.shards e.1).workers e.2 ≠ none) →
    (entries.length : Int) ≤ cfg.guardCap + s.held .overflow
  rest : (∀ i k, (s.shards i).workers k = none) →
    (∀ id < s.created, (s.workers id).pc ≠ .releasing) → s.dispatcher.token = none →
    ∀ t, s.held t = 0

/-- One token of the kind goes back, and the worker or the dispatcher that held it has it
no longer. -/
def Demux.Releases (s s' : Demux T) (t : Token) : Prop :=
  s'.held t = s.held t - 1 ∧
    ((∃ id < s.created, (s.workers id).activatedBy = some t ∧ (s'.workers id).activatedBy = none) ∨
      s.dispatcher.token = some t ∧ s'.dispatcher.token = none)

theorem Balance.conserved (h : Balance cfg s) (layout : Layout cfg s) : Conserved cfg s where
  exact := h.exact
  active _ hid := layout.activated_iff hid
  kind _ hid hpc := layout.releasing_token hid hpc
  entries l hnodup hmapped := by
    have hle := layout.entries_le hnodup hmapped
    have hguard := h.exact .guard
    have hoverflow := h.exact .overflow
    have hcap := h.capacity
    omega
  rest hmaps hreleased hfree t := by
    have hnone : s.holders t = 0 := by
      apply Nat.count_of_forall_not
      intro id hid ht
      have hactive : (s.workers id).activatedBy ≠ none := ht ▸ Option.some_ne_none t
      rcases (layout.activated_iff hid).mp hactive with ⟨i, k, hentry⟩ | hpc
      · exact nomatch (hmaps i k).symm.trans hentry
      · exact hreleased id hid hpc
    have hpending : s.pending t = 0 := by simp [Demux.pending, hfree]
    have hb := h.exact t
    omega

namespace Demux

/-- Of the dispatcher's steps only the last of a send that kept its token gives one back. -/
theorem DispatchStep.releases {t : Token} (step : s.DispatchStep cfg c s')
    (less : s'.held t < s.held t) : s.Releases s' t := by
  cases step with
  | poll | guardFull | acquireTimeout | call | pipeline | stall | stallExit | stallRetry | missing
  | insert | hand => exact absurd less (by cases t <;> exact lt_irrefl _)
  | takeGuard w pc room | takeGuardLate w pc room | takeOverflow w pc room =>
    refine absurd less (not_lt.mpr ?_)
    show s.held t ≤ (s.acquire _).held t
    rw [held_acquire]
    split <;> omega
  | deposit t' caller room =>
    refine absurd less (not_lt.mpr ?_)
    rw [held_acquire]
    split <;> omega
  | borrow w pc =>
    have hpools := borrowWorker_poolsOnly (s := s) (cfg.shardOf w.message.key) .dispatcher
    exact absurd less (not_lt.mpr (le_of_eq (held_congr hpools.guard hpools.overflow t).symm))
  | settle t' pc filled =>
    have hheld : ({ s.release t' with dispatcher := .idle } : Demux T).held t =
        (s.release t').held t := by cases t <;> rfl
    rw [hheld, held_release] at less
    by_cases ht : t' = t
    · subst ht
      refine ⟨by rw [hheld, held_release, if_pos rfl], .inr ⟨?_, rfl⟩⟩
      rw [pc]
      rfl
    · rw [if_neg ht] at less
      omega

/-- Of the workers' steps only the release after leaving the map gives a token back. -/
theorem WorkStep.releases {t : Token} (layout : Layout cfg s) (step : s.WorkStep cfg s')
    (less : s'.held t < s.held t) : s.Releases s' t := by
  cases step with
  | work | resume | retire => exact absurd less (by cases t <;> exact lt_irrefl _)
  | giveBack id made pc =>
    exact absurd less (not_lt.mpr (le_of_eq ((giveBack_poolsOnly cfg id).held t).symm))
  | release id made pc filled =>
    have htoken := layout.releasing_token made pc
    have hheld : (s.releaseWorker id).held t =
        s.held t - if Token.ofOverflow (s.workers id).usedOverflow = t then 1 else 0 := by
      rw [releaseWorker, held_release]
      cases t <;> rfl
    by_cases ht : Token.ofOverflow (s.workers id).usedOverflow = t
    · rw [if_pos ht] at hheld
      refine ⟨hheld, .inl ⟨id, made, ht ▸ htoken, ?_⟩⟩
      rw [releaseWorker, (release_tokensOnly _).workers, setWorker_same]
    · rw [if_neg ht] at hheld
      omega

theorem Step.releases {t : Token} (layout : Layout cfg s) (step : Step cfg c s s')
    (less : s'.held t < s.held t) : s.Releases s' t := by
  cases step with
  | dispatch step => exact step.releases less
  | work step => exact step.releases layout less
  | pool step => exact absurd less (not_lt.mpr (le_of_eq (step.poolsOnly.held t).symm))
  | env step => cases step <;> exact absurd less (by cases t <;> exact lt_irrefl _)
  | drain step => cases step <;> exact absurd less (by cases t <;> exact lt_irrefl _)

/-- Token conservation in every reachable state of a consumer that polls through `Process`;
every release is made by a holder of that kind, which has the token no longer. -/
theorem tokens_conserved (h : (demuxSystem T cfg .process).Reachable s) :
    Conserved cfg s ∧
      ∀ s', Step cfg .process s s' → ∀ t, s'.held t < s.held t → s.Releases s' t := by
  have hlayout := (Placed.of_reachable h).layout
  refine ⟨(Balance.of_reachable h).conserved hlayout, ?_⟩
  intro s' hstep t hless
  exact hstep.releases hlayout hless

/-- A run in which the first item of a key has activated a worker and the second is being
pipelined to it: two tokens, one with the worker and one with the dispatcher. -/
theorem tokens_conserved_sample : ∃ s : Demux Unit,
    (demuxSystem Unit .small .process).Reachable s ∧ s.held .guard = 2 ∧
    s.holders .guard = 1 ∧ s.pending .guard = 1 ∧ Conserved .small s := by
  have hpoll := receivedA_reachable.step
    (.dispatch (.poll _ (itemA 1) rfl (ready_small rfl) rfl rfl))
  have hguard := hpoll.step (.dispatch (.takeGuard _ _ rfl (show (1 : Int) < 2 by decide)))
  have hpipeline := hguard.step (.dispatch (.pipeline _ _ 0 rfl rfl (by decide)))
  exact ⟨_, hpipeline, rfl, by decide, by decide, (tokens_conserved hpipeline).1⟩

theorem receivedA_entry {i : Nat} {k : String} (other : ¬ (i = 0 ∧ k = "a")) :
    (receivedA.shards i).workers k = none := by
  by_cases hi : i = 0
  · have hk : k ≠ "a" := fun hk => other ⟨hi, hk⟩
    simp [receivedA, hi, hk]
  · simp [receivedA, hi]

/-- The only worker has served its item, cleared `IsActive` and left the map, and has not yet
received from the guard: nothing is active or being dispatched, and a token is held. -/
theorem token_held_by_inactive : ∃ s : Demux Unit,
    (demuxSystem Unit .small .process).Reachable s ∧
    (∀ id < s.created, (s.workers id).isActive = false) ∧
    (∀ i k, (s.shards i).workers k = none) ∧ s.dispatcher = .idle ∧ s.held .guard = 1 := by
  have hclear := receivedA_reachable.step
    (.work (.work _ 0 _ _ Nat.zero_lt_one (.clear _ _ rfl rfl)))
  have hinvoke := hclear.step (.work (.work _ 0 _ _ Nat.zero_lt_one (.invoke _ _ rfl)))
  have hsucceed := hinvoke.step (.work (.work _ 0 _ _ Nat.zero_lt_one (.succeed _ _ 1 1 rfl)))
  have hcommit := hsucceed.step (.work (.work _ 0 _ _ Nat.zero_lt_one (.commit _ _ rfl)))
  have hempty := hcommit.step (.work (.work _ 0 _ _ Nat.zero_lt_one (.fallThrough _ rfl rfl)))
  have hretire := hempty.step (.work (.retire _ 0 Nat.zero_lt_one rfl rfl id))
  refine ⟨_, hretire, ?_, ?_, rfl, rfl⟩
  · intro id hid
    rw [Nat.lt_one_iff.mp hid]
    exact congrArg Worker.isActive (retire_worker 0)
  · intro i k
    rw [retire_entry]
    split_ifs with h
    · rfl
    · exact receivedA_entry h

end Demux

end LlingrDemux.Pipeline
