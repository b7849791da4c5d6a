import LlingrDemux.Pipeline.Tokens
import LlingrDemux.Shared.Totals
import Mathlib.Tactic.Abel

/-!
# The load of the workers

A load is what each worker has and a worker at rest does not: a number, or a multiset. Its total
over the workers changes only where a worker moves on in its loop or gets an item. The items in
the workers' hands and channels are such a load: with it, every dispatched item is accounted for,
and the tokens and the channels bound how many of them there are.
-/

namespace LlingrDemux.Pipeline

open Shared
set_option autoImplicit false

variable {T : Type} {cfg : Config} {c : Caller} {s s' : Demux T}

structure Load (T M : Type) [AddCommMonoid M] where
  of : Worker T → M
  same : ∀ w w', w'.shard = w.shard → w'.pc = w.pc → w'.workItems = w.workItems → of w' = of w
  rest : ∀ w, w.pc = .cold → w.workItems = [] → of w = 0

namespace Demux
variable {M : Type} [AddCommMonoid M] {f : Load T M}

def total (f : Load T M) (s : Demux T) : M := ∑ id ∈ Finset.range s.created, f.of (s.workers id)

theorem total_congr (created : s'.created = s.created)
    (same : ∀ id < s.created, f.of (s'.workers id) = f.of (s.workers id)) :
    s'.total f = s.total f := by
  rw [total, total, created]
  exact Finset.sum_congr rfl fun id hid => same id (Finset.mem_range.mp hid)

/-- One worker's load changes. -/
theorem total_change {id : Nat} {w : Worker T} (made : id < s.created) :
    (s.setWorker id w).total f + f.of (s.workers id) = s.total f + f.of w := by
  have hchange := sum_change (g := fun j => f.of ((s.setWorker id w).workers j))
    (h := fun j => f.of (s.workers j)) made (fun j hj => by rw [setWorker_other w hj])
  rwa [setWorker_same] at hchange

theorem total_setWorker {id : Nat} {w : Worker T} (same : f.of w = f.of (s.workers id)) :
    (s.setWorker id w).total f = s.total f := by
  refine total_congr rfl ?_
  intro j _
  by_cases hj : j = id
  · subst hj
    rw [setWorker_same, same]
  · rw [setWorker_other w hj]

/-- A change of other fields than the load depends on. -/
theorem total_relabel {id : Nat} {w : Worker T} (shard : w.shard = (s.workers id).shard)
    (pc : w.pc = (s.workers id).pc) (queue : w.workItems = (s.workers id).workItems) :
    (s.setWorker id w).total f = s.total f :=
  total_setWorker (f.same _ _ shard pc queue)

theorem total_tokensOnly (h : s.TokensOnly s') : s'.total f = s.total f :=
  total_congr h.created fun id _ => by rw [h.workers]

theorem total_borrowWorker (i : Nat) (holder : Holder) :
    (s.borrowWorker i holder).2.total f = s.total f := by
  unfold borrowWorker
  split
  · exact total_relabel rfl rfl rfl
  · have hnew : f.of ((s.setWorker s.created { shard := i, place := .held holder }).workers
        s.created) = 0 := by
      rw [setWorker_same]
      exact f.rest _ rfl rfl
    show ∑ id ∈ Finset.range (s.created + 1), _ = _
    rw [Finset.sum_range_succ, hnew, add_zero]
    apply Finset.sum_congr rfl
    intro j hj
    rw [setWorker_other _ (Nat.ne_of_lt (Finset.mem_range.mp hj))]

theorem total_returnWorker (i id : Nat) : (s.returnWorker cfg i id).total f = s.total f := by
  unfold returnWorker
  split <;> exact total_relabel (s := s) rfl rfl rfl

/-- The ends of a worker's loop; the load is the same at both places. -/
theorem total_retire {id : Nat} (same : f.of { s.workers id with
    isActive := false, place := .retiring, pc := .releasing } = f.of (s.workers id)) :
    (s.retire id).total f = s.total f :=
  total_setWorker (s := s.setEntry (s.workers id).shard (s.workers id).partitionKey none) same

theorem total_releaseWorker {id : Nat} (same : f.of { s.workers id with
    pc := .returning, partitionKey := "", activatedBy := none } = f.of (s.workers id)) :
    (s.releaseWorker id).total f = s.total f :=
  (total_tokensOnly (release_tokensOnly _)).trans (total_setWorker same)

theorem total_giveBack {id : Nat}
    (same : f.of { s.workers id with pc := .cold } = f.of (s.workers id)) :
    (s.giveBack cfg id).total f = s.total f :=
  (total_returnWorker _ _).trans (total_setWorker same)

theorem PoolStep.total (step : s.PoolStep cfg s') : s'.total f = s.total f := by
  cases step with
  | tick i prevLen pc => rfl
  | miss i n pc pool => rfl
  | turn i warmed pc enough => rfl
  | ready i pc => rfl
  | take i n id rest pc pool => exact total_relabel (s := s.setPool i rest) rfl rfl rfl
  | close i n id pc => exact total_relabel (s := s.setPruner i (.waiting (some n))) rfl rfl rfl
  | warm i warmed pc more => exact total_borrowWorker i (.warmup i)
  | return_ i id warmed pc => exact total_returnWorker (s := s.setWarmup i _) i id

end Demux

/-! ## The items with the workers -/

/-- The items in the worker's channel and in its hand. -/
def Worker.items (w : Worker T) : List Ident := (w.workItems ++ w.pc.item.toList).map ident

theorem Worker.items_eq {w w' : Worker T} (pc : w'.pc.item = w.pc.item)
    (queue : w'.workItems = w.workItems) : w'.items = w.items := by
  rw [items, items, pc, queue]

theorem Worker.items_length (w : Worker T) :
    w.items.length = w.workItems.length + w.pc.item.toList.length := by
  rw [items, List.length_map, List.length_append]

theorem Worker.items_nil {w : Worker T} (pc : w.pc.item = none) (queue : w.workItems = []) :
    w.items = [] := by
  rw [items, pc, queue]
  rfl

def Load.items : Load T (Multiset Ident) where
  of w := w.items
  same w w' _ pc queue := by rw [Worker.items_eq (congrArg WorkerPc.item pc) queue]
  rest w pc queue := by rw [Worker.items_nil (by rw [pc]; rfl) queue]; rfl

/-- The item of the event needs no more handling. -/
def Event.settled : Event T → Multiset Ident
  | .skipped w | .triggered w | .collected w => {ident w}
  | .silent | .invoked _ | .finished _ _ => 0

theorem WorkerStep.items {done : Bool} {w w' : Worker T} {e : Event T}
    (step : WorkerStep done w e w') : (w'.items : Multiset Ident) + e.settled = w.items := by
  cases step with
  | receive x rest pc queue | receiveHot x rest pc queue =>
    simp [Worker.items, Event.settled, WorkerPc.item, pc, queue]
  | exit pc | fallThrough pc | skip x pc | clear x pc | invoke x pc | succeed x start duration pc
  | fail x r start duration pc | deadLetter x duration pc | deadLetterFail x duration pc
  | trigger x pc | commit x pc =>
    simp [Worker.items, Event.settled, WorkerPc.item, pc, -Multiset.coe_add, ← Multiset.coe_add]

/-- The dispatched items that no worker and no dispatcher has to handle any more. -/
def Log.settled (l : Log T) : List Ident := l.collected.map ident ++ l.failed ++ l.skipped

theorem Log.settled_record (l : Log T) (e : Event T) :
    ((l.record e).settled : Multiset Ident) = l.settled + e.settled := by
  cases e with
  | silent | invoked | finished => exact (add_zero _).symm
  | skipped w | triggered w | collected w =>
    simp only [Log.record, Log.settled, Event.settled, List.map_append, List.map_cons, List.map_nil,
      ← Multiset.coe_add, Multiset.coe_singleton]
    abel

namespace Demux

/-- The items in the channels, in the workers' hands and in the dispatcher's. -/
def outstanding (s : Demux T) : List Ident :=
  (List.range s.created).flatMap (fun id => (s.workers id).items) ++
    (s.dispatcher.sending.map ident).toList

theorem coe_outstanding (s : Demux T) : (s.outstanding : Multiset Ident) =
    s.total .items + (s.dispatcher.sending.map ident).toList := by
  have htotal : s.total .items = ((List.range s.created).flatMap fun id => (s.workers id).items :
      List Ident) := sum_coe_eq_flatMap (fun id => (s.workers id).items) s.created
  rw [outstanding, ← Multiset.coe_add, htotal]

/-- Every dispatched item is settled or outstanding. -/
def Accounted (s : Demux T) : Prop :=
  (s.log.dispatched : Multiset Ident) = s.log.settled + s.outstanding

/-- A step that dispatches the items `d` and settles `n`. -/
theorem Accounted.move (h : s.Accounted) {d n : Multiset Ident}
    (dispatched : (s'.log.dispatched : Multiset Ident) = s.log.dispatched + d)
    (settled : (s'.log.settled : Multiset Ident) = s.log.settled + n)
    (moved : (s'.outstanding : Multiset Ident) + n = s.outstanding + d) : s'.Accounted := by
  unfold Accounted at h ⊢
  rw [dispatched, settled, h, add_assoc, ← moved, add_assoc, add_comm n]

theorem Accounted.keep (h : s.Accounted) (log : s'.log = s.log)
    (sending : s'.dispatcher.sending.map ident = s.dispatcher.sending.map ident)
    (total : s'.total .items = s.total .items) : s'.Accounted := by
  unfold Accounted at h ⊢
  rw [log, h, coe_outstanding, coe_outstanding, sending, total]

/-- An item enters the channel of a worker. -/
theorem total_feed {id : Nat} (made : id < s.created) (x : WorkItem T) :
    (s.setWorker id { s.workers id with
      workItems := (s.workers id).workItems ++ [x] }).total .items = s.total .items + {ident x} := by
  have hchange := total_change (f := .items) (s := s)
    (w := { s.workers id with workItems := (s.workers id).workItems ++ [x] }) made
  have hfed : Load.items.of { s.workers id with workItems := (s.workers id).workItems ++ [x] } =
      Load.items.of (s.workers id) + {ident x} := by
    simp only [Load.items, Worker.items, List.map_append, List.map_cons, List.map_nil,
      ← Multiset.coe_add, Multiset.coe_singleton]
    abel
  rw [hfed, ← add_assoc, add_right_comm] at hchange
  exact add_right_cancel hchange

theorem Accounted.tokens (h : s.Accounted) (same : s.TokensOnly s') : s'.Accounted :=
  h.keep same.log (by rw [same.dispatcher]) (total_tokensOnly same)

theorem Accounted.send (h : s.Accounted) (free : s.dispatcher.sending = none) (w : WorkItem T) :
    (s.send cfg w).Accounted := by
  refine h.move (d := {ident w}) (n := 0) (Multiset.coe_add _ _).symm (add_zero _).symm ?_
  rw [coe_outstanding, coe_outstanding, free, add_zero]
  exact congrArg (· + _) (add_zero (s.total .items)).symm

/-- The dispatcher's item goes into a channel. -/
theorem Accounted.fed (h : s.Accounted) {a : Ident} (log : s'.log = s.log)
    (before : s.dispatcher.sending.map ident = some a)
    (after : s'.dispatcher.sending.map ident = none)
    (total : s'.total .items = s.total .items + {a}) : s'.Accounted := by
  unfold Accounted at h ⊢
  rw [log, h, coe_outstanding, coe_outstanding, before, after, total]
  simp

theorem DispatchStep.accounted (placed : Placed cfg s) (step : s.DispatchStep cfg c s')
    (h : s.Accounted) : s'.Accounted := by
  cases step with
  | poll w caller ready pc clean =>
    exact h.keep rfl (by rw [pc]; rfl) rfl
  | guardFull w pc full | acquireTimeout w pc | stall w id pc found full
  | stallRetry w timeout pc live | missing w pc absent =>
    exact h.keep rfl (by rw [pc]; rfl) rfl
  | deposit t caller room => exact h.tokens (acquire_tokensOnly t)
  | takeGuard w pc room | takeGuardLate w pc room | takeOverflow w pc room =>
    refine (h.tokens (acquire_tokensOnly _)).send ?_ _
    rw [(acquire_tokensOnly (s := s) _).dispatcher, pc]
    rfl
  | call w caller ready pc => exact h.send (by rw [pc]; rfl) w
  | pipeline w id pc found room =>
    have hmade := ((placed.layout.mapped _ _ _).mp found).made
    exact h.fed rfl (by rw [pc]; rfl) rfl (total_feed hmade (s.measured id w))
  | stallExit w pc done =>
    refine h.move (d := 0) (n := {ident w}) (add_zero _).symm
      (Log.settled_record _ (.skipped w)) ?_
    rw [coe_outstanding, coe_outstanding, pc, add_zero]
    exact congrArg (· + _) (add_zero (s.total .items))
  | borrow w pc =>
    have hpools := borrowWorker_poolsOnly (s := s) (cfg.shardOf w.message.key) .dispatcher
    exact h.keep hpools.log (by rw [pc]; rfl) (total_borrowWorker _ _)
  | insert w id pc =>
    refine h.keep rfl (by rw [pc]; rfl) ?_
    exact total_relabel (s := s.setEntry (cfg.shardOf w.message.key) w.message.key (some id)) rfl rfl rfl
  | hand w id pc room =>
    have hmade := (placed.dispatching.handing w id pc).1.made
    exact h.fed rfl (by rw [pc]; rfl) rfl (total_feed hmade w)
  | settle t pc filled =>
    have hsame := release_tokensOnly (s := s) t
    have htotal : (s.release t).total .items = s.total .items := total_tokensOnly hsame
    exact h.keep hsame.log (by rw [pc]; rfl) htotal

theorem WorkStep.accounted (step : s.WorkStep cfg s') (h : s.Accounted) : s'.Accounted := by
  cases step with
  | work id e w made step =>
    refine h.move (d := 0) (n := e.settled) ?_ (Log.settled_record s.log e) ?_
    · cases e <;> exact (add_zero _).symm
    · have hchange : (s.setWorker id w).total .items + (s.workers id).items =
          s.total .items + w.items := total_change made
      rw [← step.items, ← add_assoc, add_right_comm] at hchange
      have htotal := add_right_cancel hchange
      rw [coe_outstanding, coe_outstanding, add_zero, add_right_comm]
      exact congrArg (· + _) htotal
  | resume id made pc arrived free =>
    refine h.keep rfl rfl ?_
    exact total_setWorker (f := .items)
      (congrArg Multiset.ofList (Worker.items_eq (by rw [pc]; rfl) rfl))
  | retire id made pc empty free =>
    refine h.keep rfl rfl ?_
    exact total_retire (f := .items) (congrArg Multiset.ofList (Worker.items_eq (by rw [pc]; rfl) rfl))
  | release id made pc filled =>
    refine h.keep (release_tokensOnly _).log ?_ ?_
    · rw [releaseWorker_dispatcher]
    · exact total_releaseWorker (f := .items)
        (congrArg Multiset.ofList (Worker.items_eq (by rw [pc]; rfl) rfl))
  | giveBack id made pc =>
    have hpools := giveBack_poolsOnly (s := s) cfg id
    refine h.keep hpools.log (by rw [hpools.dispatcher]) ?_
    exact total_giveBack (f := .items) (congrArg Multiset.ofList (Worker.items_eq (by rw [pc]; rfl) rfl))

/-- No item is lost or counted twice on the way through the demultiplexer. -/
theorem accounted_of_reachable (h : (demuxSystem T cfg c).Reachable s) : s.Accounted := by
  refine System.invariant (M := demuxSystem T cfg c) (P := Accounted) ?_ ?_ s h
  · intro s hs
    rw [show s = initial from hs]
    rfl
  · intro s s' hs hinv hstep
    cases hstep with
    | dispatch step => exact step.accounted (.of_reachable hs) hinv
    | work step => exact step.accounted hinv
    | pool step =>
      exact hinv.keep step.poolsOnly.log (by rw [step.poolsOnly.dispatcher]) step.total
    | env step => cases step <;> exact hinv.keep rfl rfl rfl
    | drain step => cases step <;> exact hinv.keep rfl rfl rfl

/-! ## How many items that can be -/

/-- No channel holds more than it has room for. -/
def Bounded (cfg : Config) (s : Demux T) : Prop :=
  ∀ id, (s.workers id).workItems.length ≤ cfg.perKeyBufferLen

theorem Bounded.setWorker (h : s.Bounded cfg) {id : Nat} {w : Worker T}
    (bound : w.workItems.length ≤ cfg.perKeyBufferLen) : (s.setWorker id w).Bounded cfg := by
  intro j
  by_cases hj : j = id
  · subst hj
    rwa [setWorker_same]
  · rw [setWorker_other w hj]
    exact h j

theorem Bounded.of_workers (h : s.Bounded cfg) (workers : s'.workers = s.workers) :
    s'.Bounded cfg := by
  intro j
  rw [workers]
  exact h j

/-- One worker changes and keeps its channel. -/
theorem Bounded.relabel (h : s.Bounded cfg) {id : Nat} {w : Worker T}
    (workers : s'.workers = (s.setWorker id w).workers)
    (queue : w.workItems = (s.workers id).workItems) : s'.Bounded cfg := by
  refine (h.setWorker ?_).of_workers workers
  rw [queue]
  exact h id

theorem Bounded.borrowWorker (h : s.Bounded cfg) (i : Nat) (holder : Holder) :
    (s.borrowWorker i holder).2.Bounded cfg := by
  unfold Demux.borrowWorker
  split
  · exact h.relabel rfl rfl
  · exact (h.setWorker (Nat.zero_le _)).of_workers rfl

theorem Bounded.returnWorker (h : s.Bounded cfg) (i id : Nat) :
    (s.returnWorker cfg i id).Bounded cfg := by
  unfold Demux.returnWorker
  split <;> exact h.relabel rfl rfl

theorem Bounded.feed (h : s.Bounded cfg) {id : Nat} {x : WorkItem T} {s' : Demux T}
    (room : (s.workers id).workItems.length < cfg.perKeyBufferLen)
    (workers : s'.workers = (s.setWorker id { s.workers id with
      workItems := (s.workers id).workItems ++ [x] }).workers) : s'.Bounded cfg := by
  refine (h.setWorker ?_).of_workers workers
  rw [List.length_append]
  exact room

theorem Bounded.step (h : s.Bounded cfg) (step : Step cfg c s s') : s'.Bounded cfg := by
  cases step with
  | dispatch step =>
    cases step with
    | poll | guardFull | acquireTimeout | call | stall | stallExit | stallRetry | missing => exact h
    | takeGuard | takeGuardLate | takeOverflow | deposit =>
      exact h.of_workers (acquire_tokensOnly _).workers
    | settle t pc filled => exact h.of_workers (release_tokensOnly t).workers
    | pipeline w id pc found room => exact h.feed room rfl
    | hand w id pc room => exact h.feed room rfl
    | borrow w pc =>
      exact (h.borrowWorker (cfg.shardOf w.message.key) .dispatcher).of_workers rfl
    | insert w id pc => exact h.relabel rfl rfl
  | work step =>
    cases step with
    | work id e w made step =>
      refine Bounded.of_workers (h.setWorker (Nat.le_trans ?_ (h id))) rfl
      cases step with
      | receive x rest pc queue | receiveHot x rest pc queue =>
        rw [queue]
        exact Nat.le_succ _
      | _ => exact Nat.le_refl _
    | resume id => exact h.relabel rfl rfl
    | retire id => exact h.relabel rfl rfl
    | release id => exact h.relabel (release_tokensOnly _).workers rfl
    | giveBack id made pc =>
      have hcold : (s.setWorker id { s.workers id with pc := .cold }).Bounded cfg :=
        h.relabel rfl rfl
      exact hcold.returnWorker _ _
  | pool step =>
    cases step with
    | tick | miss | turn | ready => exact h
    | take i n id => exact h.relabel rfl rfl
    | close i n id => exact h.relabel rfl rfl
    | warm i => exact (h.borrowWorker i (.warmup i)).of_workers rfl
    | return_ i id warmed =>
      exact Bounded.returnWorker (s := s.setWarmup i (.returning warmed)) h i id
  | env step => cases step <;> exact h
  | drain step => cases step <;> exact h

theorem bounded_of_reachable (h : (demuxSystem T cfg c).Reachable s) : s.Bounded cfg := by
  refine System.invariant (M := demuxSystem T cfg c) (P := Bounded cfg) ?_
    (fun s s' _ hs hstep => hs.step hstep) s h
  intro s hs
  rw [show s = initial from hs]
  exact fun _ => Nat.zero_le _

/-- The overflow channel is not overfull. -/
structure Fits (cfg : Config) (s : Demux T) : Prop where
  others : 0 ≤ s.others
  capacity : s.overflow + s.others ≤ cfg.overflowCap

theorem Fits.of_same (h : s.Fits cfg) (others : s'.others = s.others)
    (overflow : s'.overflow ≤ s.overflow) : s'.Fits cfg := by
  refine ⟨others ▸ h.others, ?_⟩
  have hcapacity := h.capacity
  rw [others]
  omega

theorem borrowWorker_others (i : Nat) (holder : Holder) :
    (s.borrowWorker i holder).2.others = s.others := by
  unfold borrowWorker
  split <;> rfl

theorem returnWorker_others (i id : Nat) : (s.returnWorker cfg i id).others = s.others := by
  unfold returnWorker
  split <;> rfl

theorem Fits.release (h : s.Fits cfg) (t : Token) : (s.release t).Fits cfg := by
  cases t with
  | guard => exact h.of_same rfl (le_refl _)
  | overflow => exact h.of_same rfl (Int.sub_le_self _ (by decide))

theorem Fits.step (h : s.Fits cfg) (step : Step cfg .process s s') : s'.Fits cfg := by
  cases step with
  | dispatch step =>
    cases step with
    | poll | guardFull | takeGuard | takeGuardLate | acquireTimeout | pipeline | stall | stallExit
    | stallRetry | missing | insert | hand => exact h.of_same rfl (le_refl _)
    | takeOverflow w pc room => exact ⟨h.others, by
        show s.overflow + 1 + s.others ≤ cfg.overflowCap
        have hroom : s.overflow + s.others < cfg.overflowCap := room
        omega⟩
    | call w caller | deposit t caller => cases caller
    | borrow w pc =>
      have hpools := borrowWorker_poolsOnly (s := s) (cfg.shardOf w.message.key) .dispatcher
      exact h.of_same (borrowWorker_others ..) (le_of_eq hpools.overflow)
    | settle t pc filled => exact (h.release t).of_same rfl (le_refl _)
  | work step =>
    cases step with
    | work | resume | retire => exact h.of_same rfl (le_refl _)
    | release id made pc filled =>
      have hreturning : (s.setWorker id { s.workers id with
          pc := .returning, partitionKey := "", activatedBy := none }).Fits cfg :=
        h.of_same rfl (le_refl _)
      exact hreturning.release _
    | giveBack id made pc =>
      exact h.of_same (returnWorker_others ..) (le_of_eq (giveBack_poolsOnly cfg id).overflow)
  | pool step =>
    refine h.of_same ?_ (le_of_eq step.poolsOnly.overflow)
    cases step with
    | tick | take | miss | close | turn | ready => rfl
    | warm i => exact borrowWorker_others i (.warmup i)
    | return_ i id => exact returnWorker_others ..
  | env step =>
    cases step with
    | trip | observe => exact h.of_same rfl (le_refl _)
    | others n nonneg room => exact ⟨nonneg, room⟩
  | drain step => cases step <;> exact h.of_same rfl (le_refl _)

theorem fits_of_reachable (h : (demuxSystem T cfg .process).Reachable s) : s.Fits cfg := by
  refine System.invariant (M := demuxSystem T cfg .process) (P := Fits cfg) ?_
    (fun s s' _ hs hstep => hs.step hstep) s h
  intro s hs
  rw [show s = initial from hs]
  exact ⟨le_refl _, Int.natCast_nonneg _⟩

/-- The workers that were activated and have not released their token. -/
def activated (s : Demux T) : Nat :=
  Nat.count (fun id => (s.workers id).activatedBy ≠ none) s.created

/-- There are tokens for all of them and for the item being dispatched. -/
theorem activated_le (h : (demuxSystem T cfg .process).Reachable s) :
    s.activated + s.pending .guard + s.pending .overflow ≤ cfg.workerPoolSize := by
  have hbalance := Balance.of_reachable h
  have hfits := fits_of_reachable h
  have hguard : s.guard = s.holders .guard + s.pending .guard := hbalance.exact .guard
  have hoverflow : s.overflow = s.holders .overflow + s.pending .overflow := hbalance.exact .overflow
  have hcap : s.guard ≤ cfg.guardCap := hbalance.capacity
  have hsplit : s.activated = s.holders .guard + s.holders .overflow := count_activated s.created
  obtain ⟨hothers, hcapacity⟩ := hfits
  unfold Config.workerPoolSize
  omega

/-- A worker has items only while it is activated, and then no more than fit into its channel
and its hand. -/
theorem queued_le (h : (demuxSystem T cfg c).Reachable s) {id : Nat} (made : id < s.created) :
    (s.workers id).items.length ≤
      if (s.workers id).activatedBy ≠ none then cfg.perKeyBufferLen + 1 else 0 := by
  have hlayout := (Placed.of_reachable h).layout
  have hbound := bounded_of_reachable h id
  have hitem : (s.workers id).pc.item.toList.length ≤ 1 := by
    cases (s.workers id).pc.item <;> simp
  split
  · rw [Worker.items_length]
    omega
  · rename_i hnone
    have hnone := not_not.mp hnone
    have hsound := hlayout.sound id made
    have hidle : ∀ pc, (s.workers id).pc = pc → pc.item = none → (s.workers id).workItems = [] →
        (s.workers id).items.length ≤ 0 := by
      intro pc hpc hpc' hq
      rw [Worker.items_nil (hpc ▸ hpc') hq]
      exact Nat.le_refl 0
    cases hplace : (s.workers id).place with
    | serving k =>
      obtain ⟨t, ht⟩ := hsound.serving hplace
      exact nomatch hnone.symm.trans ht.token
    | pooled => exact hidle _ (hsound.pooled hplace).pc rfl (hsound.pooled hplace).queue
    | held holder => exact hidle _ (hsound.held hplace).pc rfl (hsound.held hplace).queue
    | retiring =>
      have hretires := hsound.retiring hplace
      rcases hretires.token with ⟨hpc, _⟩ | ⟨hpc | hpc, _⟩
      all_goals exact hidle _ hpc rfl hretires.queue
    | stopped =>
      have hstopped := hsound.stopped hplace
      rcases hstopped.pc with hpc | hpc
      all_goals exact hidle _ hpc rfl hstopped.queue

/-- The number of items with the workers. -/
def queued (s : Demux T) : Nat := ∑ id ∈ Finset.range s.created, (s.workers id).items.length

theorem outstanding_length (s : Demux T) :
    s.outstanding.length = s.queued + s.dispatcher.sending.toList.length := by
  have htotal : Multiset.card (s.total .items) = s.queued := Multiset.card_sum _ _
  rw [← Multiset.coe_card, coe_outstanding, Multiset.card_add, htotal, Multiset.coe_card]
  cases s.dispatcher.sending <;> rfl

/-- Of the activated workers at most as many items as fit into their channels and hands. -/
theorem queued_le_activated (h : (demuxSystem T cfg c).Reachable s) :
    s.queued ≤ (cfg.perKeyBufferLen + 1) * s.activated :=
  sum_le_mul_count fun _ hid => queued_le h hid

/-- A worker that has just been put into the map has no items yet. -/
theorem queued_handing (h : (demuxSystem T cfg c).Reachable s) {w : WorkItem T} {id : Nat}
    (pc : s.dispatcher = .handing w id) :
    s.queued + (cfg.perKeyBufferLen + 1) ≤ (cfg.perKeyBufferLen + 1) * s.activated := by
  obtain ⟨hat, hunfed, htoken⟩ := (Placed.of_reachable h).dispatching.handing w id pc
  have hcount := count_change
    (p := fun j => (s.workers j).activatedBy ≠ none ∧ j ≠ id)
    (q := fun j => (s.workers j).activatedBy ≠ none) hat.made (fun j hj => by simp [hj])
  rw [if_pos (by rw [htoken]; exact nofun), if_neg (fun hp => hp.2 rfl)] at hcount
  have hle : s.queued ≤ (cfg.perKeyBufferLen + 1) *
      Nat.count (fun j => (s.workers j).activatedBy ≠ none ∧ j ≠ id) s.created := by
    apply sum_le_mul_count
    intro j hj
    by_cases he : j = id
    · subst he
      rw [Worker.items_nil (by rw [hunfed.pc]; rfl) hunfed.queue]
      exact Nat.zero_le _
    · have hq := queued_le h hj
      simpa [he] using hq
  have hall : s.activated =
      Nat.count (fun j => (s.workers j).activatedBy ≠ none ∧ j ≠ id) s.created + 1 := hcount.symm
  rw [hall, Nat.mul_add]
  omega

/-- Backpressure: every dispatched item is collected, failed, skipped or outstanding, and what is
outstanding fits into the channels and hands of the workers for which there are tokens. -/
theorem outstanding_bounded (h : (demuxSystem T cfg .process).Reachable s) :
    s.log.dispatched.Perm
        (s.log.collected.map ident ++ s.log.failed ++ s.log.skipped ++ s.outstanding) ∧
      s.outstanding.length ≤ cfg.workerPoolSize * (cfg.perKeyBufferLen + 1) := by
  refine ⟨?_, ?_⟩
  · apply Multiset.coe_eq_coe.mp
    rw [← Multiset.coe_add]
    exact accounted_of_reachable h
  have hactive := activated_le h
  have htotal := queued_le_activated h
  have hmul : ∀ n, n ≤ cfg.workerPoolSize →
      (cfg.perKeyBufferLen + 1) * n ≤ cfg.workerPoolSize * (cfg.perKeyBufferLen + 1) :=
    fun n hn => by rw [Nat.mul_comm]; exact Nat.mul_le_mul_right _ hn
  rw [outstanding_length]
  cases hpc : s.dispatcher with
  | idle | acquiring | waiting | settling =>
    exact htotal.trans (hmul _ (by omega))
  | handing w id =>
    have hhanding := queued_handing h hpc
    have hbound := hmul s.activated (by omega)
    show s.queued + 1 ≤ _
    omega
  | locking w | borrowing w | inserting w id | stalled w =>
    -- the item being dispatched holds a token that no worker has
    have hpending : 1 ≤ s.pending .guard + s.pending .overflow := by
      rw [pending, pending, hpc]
      cases ht : token w <;> simp [DispatcherPc.token, ht]
    have hbound := hmul (s.activated + 1) (by omega)
    rw [Nat.mul_add] at hbound
    show s.queued + 1 ≤ _
    omega

/-- A run in which the two items that the sample configuration has tokens for are outstanding:
the first in a worker's hand, the second in the worker's channel. -/
theorem outstanding_bounded_sample : ∃ s : Demux Unit,
    (demuxSystem Unit .small .process).Reachable s ∧
      s.outstanding = [ident (itemA 1), ident (itemA 0)] ∧
      s.outstanding.length ≤ Config.small.workerPoolSize * (Config.small.perKeyBufferLen + 1) := by
  have hpoll := receivedA_reachable.step
    (.dispatch (.poll _ (itemA 1) rfl (ready_small rfl) rfl rfl))
  have hguard := hpoll.step (.dispatch (.takeGuard _ _ rfl (show (1 : Int) < 2 by decide)))
  have hpipeline := hguard.step (.dispatch (.pipeline _ _ 0 rfl rfl (by decide)))
  exact ⟨_, hpipeline, by decide, (outstanding_bounded hpipeline).2⟩

end Demux

end LlingrDemux.Pipeline
