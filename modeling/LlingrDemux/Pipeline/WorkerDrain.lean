import LlingrDemux.Pipeline.KeyLane

/-!
# `DrainWorkers` waits for everything

While no send is in progress the maps only lose entries. A `DrainWorkers` call that starts
then has the workers of a shard's map in its snapshot or has seen them inactive, so that it
returns with every map empty; an empty map leaves nothing in the lane of any of its keys.
-/

namespace LlingrDemux.Pipeline

open Shared
set_option autoImplicit false

variable {T : Type} {cfg : Config} {c : Caller} {s s' : Demux T} {d : Nat}

/-- No `SendToWorkerForProcessing` call is in progress. -/
def DispatcherPc.Free : DispatcherPc T → Prop
  | .idle | .acquiring _ | .waiting _ => True
  | .locking _ | .borrowing _ | .inserting _ _ | .handing _ _ | .stalled _ | .settling _ => False

namespace Demux

/-- A step that starts no `SendToWorkerForProcessing` call. -/
def QuietStep (cfg : Config) (c : Caller) (s s' : Demux T) : Prop :=
  Step cfg c s s' ∧ s'.log.dispatched = s.log.dispatched

/-- The step puts no worker into a map. -/
def Shrinks (s s' : Demux T) : Prop :=
  ∀ i k id, (s'.shards i).workers k = some id → (s.shards i).workers k = some id

theorem Shrinks.of_maps (maps : ∀ i, (s'.shards i).workers = (s.shards i).workers) :
    s.Shrinks s' := by
  intro i k id hid
  rwa [maps] at hid

/-- What a drainer has made sure of. -/
def Covered (cfg : Config) (s : Demux T) : DrainerPc → Prop
  | .idle => True
  | .scanning i => ∀ j < i, ∀ k, (s.shards j).workers k = none
  | .checking i ids | .parked i ids =>
    (∀ j < i, ∀ k, (s.shards j).workers k = none) ∧
      ∀ k id, (s.shards i).workers k = some id → id ∈ ids
  | .returned => ∀ j < cfg.workerShardsCount, ∀ k, (s.shards j).workers k = none

theorem Shrinks.none (h : s.Shrinks s') {i : Nat} {k : String}
    (empty : (s.shards i).workers k = none) : (s'.shards i).workers k = none := by
  cases hid : (s'.shards i).workers k with
  | none => rfl
  | some id => exact nomatch empty.symm.trans (h i k id hid)

theorem Covered.shrink (h : s.Shrinks s') {pc : DrainerPc} (covered : s.Covered cfg pc) :
    s'.Covered cfg pc := by
  cases pc with
  | idle => trivial
  | scanning i => exact fun j hj k => h.none (covered j hj k)
  | checking i ids | parked i ids =>
    obtain ⟨hbefore, hids⟩ := covered
    exact ⟨fun j hj k => h.none (hbefore j hj k), fun k id hid => hids k id (h i k id hid)⟩
  | returned => exact fun j hj k => h.none (covered j hj k)

theorem Covered.wake {pc : DrainerPc} (covered : s.Covered cfg pc) (id : Nat) :
    s.Covered cfg (pc.wake id) := by
  cases pc with
  | idle | scanning | checking | returned => exact covered
  | parked i ids =>
    cases ids with
    | nil => exact covered
    | cons w ws =>
      rw [DrainerPc.wake]
      split <;> exact covered

/-- With the dispatcher free, only the start of a send could lead to a new entry. -/
theorem DispatchStep.quiet (free : s.dispatcher.Free) (step : s.DispatchStep cfg c s')
    (same : s'.log.dispatched = s.log.dispatched) :
    s'.dispatcher.Free ∧ s'.shards = s.shards ∧ s'.drainers = s.drainers := by
  cases step with
  | poll | guardFull | acquireTimeout => exact ⟨trivial, rfl, rfl⟩
  | deposit t caller room => cases t <;> exact ⟨free, rfl, rfl⟩
  | takeGuard w pc room | takeGuardLate w pc room | takeOverflow w pc room | call w caller ready pc =>
    exact absurd (congrArg List.length same) (by simp [send, acquire])
  | pipeline w id pc | stall w id pc | stallExit w pc | stallRetry w timeout pc | missing w pc
  | borrow w pc | insert w id pc | hand w id pc | settle t pc =>
    rw [pc] at free
    exact free.elim

theorem WorkStep.quiet (layout : Layout cfg s) (step : s.WorkStep cfg s') :
    s'.dispatcher = s.dispatcher ∧ s.Shrinks s' ∧
      ∀ d, s'.drainers d = s.drainers d ∨ ∃ id, s'.drainers d = (s.drainers d).wake id := by
  cases step with
  | work | resume => exact ⟨rfl, .of_maps fun _ => rfl, fun _ => .inl rfl⟩
  | retire id made pc empty free =>
    refine ⟨rfl, ?_, fun d => .inr ⟨id, rfl⟩⟩
    intro i k id' hid'
    rw [retire_entry] at hid'
    split at hid'
    · exact nomatch hid'
    · exact hid'
  | release id made pc filled =>
    refine ⟨releaseWorker_dispatcher id, .of_maps (keeps_release layout made pc).maps, ?_⟩
    intro d
    left
    rw [releaseWorker, (release_tokensOnly _).drainers]
    rfl
  | giveBack id made pc =>
    have hpools := giveBack_poolsOnly (s := s) cfg id
    refine ⟨hpools.dispatcher, .of_maps (keeps_giveBack layout made pc).maps, ?_⟩
    intro d
    left
    rw [hpools.drainers]

theorem PoolStep.quiet (layout : Layout cfg s) (step : s.PoolStep cfg s') :
    s'.dispatcher = s.dispatcher ∧ s.Shrinks s' ∧ s'.drainers = s.drainers := by
  have hpools := step.poolsOnly
  exact ⟨hpools.dispatcher, .of_maps (step.keeps layout).maps, hpools.drainers⟩

theorem EnvStep.quiet (step : s.EnvStep cfg s') :
    s'.dispatcher = s.dispatcher ∧ s.Shrinks s' ∧ s'.drainers = s.drainers := by
  cases step with
  | trip | others => exact ⟨rfl, .of_maps fun _ => rfl, rfl⟩
  | observe i tripped =>
    refine ⟨rfl, .of_maps fun j => ?_, rfl⟩
    rw [setDone_shards]

/-- A drainer's own step: it takes a snapshot, ticks an inactive worker off, or goes on. -/
theorem DrainStep.covered (layout : Layout cfg s) (step : s.DrainStep cfg s')
    (covered : s.Covered cfg (s.drainers d)) : s'.Covered cfg (s'.drainers d) := by
  have hset : ∀ (d' : Nat) (pc : DrainerPc), (d' = d → s.Covered cfg pc) →
      (s.setDrainer d' pc).Covered cfg ((s.setDrainer d' pc).drainers d) := by
    intro d' pc hpc
    by_cases hd : d' = d
    · subst hd
      rw [show (s.setDrainer d' pc).drainers d' = pc from Function.update_self ..]
      exact Covered.shrink (.of_maps fun _ => rfl) (hpc rfl)
    · rw [show (s.setDrainer d' pc).drainers d = s.drainers d from
        Function.update_of_ne (Ne.symm hd) ..]
      exact Covered.shrink (.of_maps fun _ => rfl) covered
  cases step with
  | start d' ready pc => exact hset d' _ fun _ j hj => absurd hj (Nat.not_lt_zero j)
  | scan d' i ids pc more free look =>
    apply hset
    intro hd
    rw [← hd, pc] at covered
    exact ⟨covered, fun k id hid => (look.2 id).mpr ⟨k, hid⟩⟩
  | pass d' i id ids pc free drained =>
    apply hset
    intro hd
    rw [← hd, pc] at covered
    refine ⟨covered.1, fun k id' hid' => ?_⟩
    rcases List.mem_cons.mp (covered.2 k id' hid') with he | hmem
    · -- a worker still in the map is active
      have hat := (layout.mapped _ _ _).mp hid'
      obtain ⟨t, ht⟩ := (layout.sound id' hat.made).serving hat.place
      rw [he] at ht
      exact nomatch drained.symm.trans ht.active
    · exact hmem
  | park d' i id ids pc free active =>
    apply hset
    intro hd
    rw [← hd, pc] at covered
    exact covered
  | next d' i pc =>
    apply hset
    intro hd
    rw [← hd, pc] at covered
    intro j hj k
    by_cases hji : j = i
    · cases hid : (s.shards j).workers k with
      | none => rfl
      | some id => exact absurd (covered.2 k id (hji ▸ hid)) List.not_mem_nil
    · exact covered.1 j (Nat.lt_of_le_of_ne (Nat.le_of_lt_succ hj) hji) k
  | return_ d' i pc last =>
    apply hset
    intro hd
    rw [← hd, pc, last] at covered
    exact covered

/-- What a run without a new send keeps. -/
theorem QuietStep.covered (layout : Layout cfg s) (step : QuietStep cfg c s s')
    (free : s.dispatcher.Free) (covered : s.Covered cfg (s.drainers d)) :
    s'.dispatcher.Free ∧ s'.Covered cfg (s'.drainers d) := by
  obtain ⟨step, same⟩ := step
  cases step with
  | dispatch step =>
    obtain ⟨hfree, hshards, hdrainers⟩ := step.quiet free same
    rw [hdrainers]
    exact ⟨hfree, Covered.shrink (.of_maps fun i => by rw [hshards]) covered⟩
  | work step =>
    obtain ⟨hdispatcher, hshrinks, hdrainers⟩ := step.quiet layout
    refine ⟨hdispatcher ▸ free, ?_⟩
    rcases hdrainers d with heq | ⟨id, heq⟩
    · rw [heq]
      exact covered.shrink hshrinks
    · rw [heq]
      exact (covered.wake id).shrink hshrinks
  | pool step =>
    obtain ⟨hdispatcher, hshrinks, hdrainers⟩ := step.quiet layout
    rw [hdispatcher, hdrainers]
    exact ⟨free, covered.shrink hshrinks⟩
  | env step =>
    obtain ⟨hdispatcher, hshrinks, hdrainers⟩ := step.quiet
    rw [hdispatcher, hdrainers]
    exact ⟨free, covered.shrink hshrinks⟩
  | drain step =>
    refine ⟨?_, step.covered layout covered⟩
    cases step <;> exact free

theorem quiet_run {s₀ : Demux T} (h : (demuxSystem T cfg c).Reachable s₀)
    (free : s₀.dispatcher.Free) (idle : s₀.drainers d = .idle)
    (run : Relation.ReflTransGen (QuietStep cfg c) s₀ s) :
    (demuxSystem T cfg c).Reachable s ∧ s.dispatcher.Free ∧ s.Covered cfg (s.drainers d) := by
  induction run with
  | refl =>
    refine ⟨h, free, ?_⟩
    rw [idle]
    trivial
  | tail _ step ih =>
    obtain ⟨hreach, hfree, hcovered⟩ := ih
    obtain ⟨hfree', hcovered'⟩ :=
      step.covered (Placed.of_reachable hreach).layout hfree hcovered
    exact ⟨hreach.step step.1, hfree', hcovered'⟩

theorem failed_of_same (log : s'.log = s.log) (tripped : s'.tripped = s.tripped) :
    s'.log.failed = s.log.failed ∧ (s.tripped = true → s'.tripped = true) :=
  ⟨congrArg Log.failed log, tripped.trans⟩

/-- A failed dead-letter write is recorded together with the trip. -/
theorem Step.failed (step : Step cfg c s s') :
    s'.log.failed = s.log.failed ∧ (s.tripped = true → s'.tripped = true) ∨ s'.tripped = true := by
  cases step with
  | dispatch step =>
    left
    cases step with
    | poll | guardFull | takeGuard | takeGuardLate | takeOverflow | acquireTimeout | call | pipeline
    | stall | stallExit | missing | insert | hand => exact ⟨rfl, id⟩
    | stallRetry w timeout pc live => exact ⟨rfl, fun h => by simp [h]⟩
    | deposit t caller room =>
      have hacquire := acquire_tokensOnly (s := s) t
      exact failed_of_same hacquire.log hacquire.tripped
    | settle t pc filled =>
      have hrelease := release_tokensOnly (s := s) t
      exact failed_of_same hrelease.log hrelease.tripped
    | borrow w pc =>
      have hpools := borrowWorker_poolsOnly (s := s) (cfg.shardOf w.message.key) .dispatcher
      exact failed_of_same hpools.log hpools.tripped
  | work step =>
    cases step with
    | work i e w made step =>
      cases e with
      | triggered x => exact .inr rfl
      | silent | skipped | invoked | finished | collected => exact .inl ⟨rfl, id⟩
    | resume | retire => exact .inl ⟨rfl, id⟩
    | release i made pc filled =>
      have hrelease := release_tokensOnly (s := s.setWorker i { s.workers i with
        pc := .returning, partitionKey := "", activatedBy := none })
          (.ofOverflow (s.workers i).usedOverflow)
      exact .inl (failed_of_same hrelease.log hrelease.tripped)
    | giveBack i made pc =>
      have hpools := giveBack_poolsOnly (s := s) cfg i
      exact .inl (failed_of_same hpools.log hpools.tripped)
  | pool step => exact .inl (failed_of_same step.poolsOnly.log step.poolsOnly.tripped)
  | env step =>
    cases step with
    | trip => exact .inr rfl
    | observe | others => exact .inl ⟨rfl, id⟩
  | drain step =>
    left
    cases step <;> exact ⟨rfl, id⟩

theorem failed_tripped (h : (demuxSystem T cfg c).Reachable s) :
    s.log.failed ≠ [] → s.tripped = true := by
  refine System.invariant (P := fun s => s.log.failed ≠ [] → s.tripped = true) ?_ ?_ s h
  · intro s hs hne
    rw [show s = initial from hs] at hne
    exact absurd rfl hne
  · intro s s' hs hinv hstep hne
    rcases Step.failed hstep with ⟨hlog, htripped⟩ | htripped
    · exact htripped (hinv (hlog ▸ hne))
    · exact htripped

/-- With no send in progress and no worker in the map, a key's items are all settled. -/
theorem settled_of_entry_none (h : (demuxSystem T cfg c).Reachable s) (free : s.dispatcher.Free)
    {k : String} (entry : (s.shards (cfg.shardOf k)).workers k = none) :
    (onKey k s.log.dispatched).Perm
      (onKey k (s.log.collected.map ident) ++ onKey k s.log.failed ++ onKey k s.log.skipped) := by
  have hserving := serving_none entry
  apply (lane_inv h k).settled
  · exact congrArg Prod.snd hserving
  · exact congrArg Prod.fst hserving
  · apply offer_none
    cases hpc : s.dispatcher <;> rw [hpc] at free <;> first | rfl | exact free.elim

end Demux

/-- Lists whose parts on every key agree up to order agree up to order. -/
theorem perm_of_onKey {l l' : List Ident} (h : ∀ k, (onKey k l).Perm (onKey k l')) : l.Perm l' := by
  rw [List.perm_iff_count]
  intro a
  have hcount := (h a.key).count_eq a
  rwa [onKey, onKey, List.count_filter (by simp), List.count_filter (by simp)] at hcount

/-- Nothing is left of the items dispatched so far: each was committed, failed with the
breaker triggered, or was skipped with the breaker visible to its shard. -/
structure Drained (cfg : Config) (s : Demux T) : Prop where
  maps : ∀ i k, (s.shards i).workers k = none
  settled : s.log.dispatched.Perm (s.log.collected.map ident ++ s.log.failed ++ s.log.skipped)
  failed : s.log.failed ≠ [] → s.tripped = true
  skipped : ∀ a ∈ s.log.skipped, (s.shards (cfg.shardOf a.key)).done = true

theorem Drained.of_maps (h : (demuxSystem T cfg c).Reachable s) (free : s.dispatcher.Free)
    (maps : ∀ i < cfg.workerShardsCount, ∀ k, (s.shards i).workers k = none) : Drained cfg s where
  maps i k := by
    cases hid : (s.shards i).workers k with
    | none => rfl
    | some id =>
      have hlayout := (Placed.of_reachable h).layout
      have hhome := hlayout.home id i k ((hlayout.mapped _ _ _).mp hid)
      exact nomatch hid.symm.trans (maps i (hhome ▸ cfg.shardOf_lt k) k)
  settled := by
    apply perm_of_onKey
    intro k
    have hsettled := Demux.settled_of_entry_none h free (maps _ (cfg.shardOf_lt k) k)
    rwa [onKey_append, onKey_append]
  failed := Demux.failed_tripped h
  skipped a ha := by
    apply (Demux.lane_inv h a.key).dropped_closed
    apply List.ne_nil_of_mem (a := a)
    exact List.mem_filter.mpr ⟨ha, by simp⟩

/-- From a reachable state without a send in progress, along any run in which none starts:
when a `DrainWorkers` call made meanwhile returns, the maps are empty and every item
dispatched before is settled. -/
theorem Demux.drain_complete {s₀ s : Demux T} {d : Nat} (h : (demuxSystem T cfg c).Reachable s₀)
    (free : s₀.dispatcher.Free) (idle : s₀.drainers d = .idle)
    (run : Relation.ReflTransGen (Demux.QuietStep cfg c) s₀ s) (returned : s.drainers d = .returned) :
    s.log.dispatched = s₀.log.dispatched ∧ Drained cfg s := by
  obtain ⟨hreach, hfree, hcovered⟩ := Demux.quiet_run h free idle run
  rw [returned] at hcovered
  refine ⟨?_, .of_maps hreach hfree hcovered⟩
  clear returned hcovered hfree hreach
  induction run with
  | refl => rfl
  | tail _ step ih => exact step.2.trans ih

/-- One worker is in the map and hands its only item to `CollectAndCommit`. -/
def Demux.committingA : Demux Unit where
  workers := Function.update (fun _ => { shard := 0, place := .stopped }) 0
    { shard := 0, partitionKey := "a", pc := .committing (processed (itemA 0) .ok 1 1),
      place := .serving "a", activatedBy := some .guard }
  created := 1
  shards := Function.update (fun _ => {}) 0
    { workers := Function.update (fun _ => none) "a" (some 0), warmup := .ready }
  guard := 1
  log :=
    { dispatched := [ident (itemA 0)], invoked := [ident (itemA 0)],
      outcomes := [(ident (itemA 0), true)] }

theorem Demux.committingA_reachable :
    (demuxSystem Unit .small .process).Reachable Demux.committingA := by
  have hclear := Demux.receivedA_reachable.step (.work (.work _ 0 _ _ (by decide) (.clear _ _ rfl rfl)))
  have hinvoke := hclear.step (.work (.work _ 0 _ _ (by decide) (.invoke _ _ rfl)))
  have hdone := hinvoke.step (.work (.work _ 0 _ _ (by decide) (.succeed _ _ 1 1 rfl)))
  have hcast : ∀ {s s' : Demux Unit}, (demuxSystem Unit .small .process).Reachable s → s = s' →
      (demuxSystem Unit .small .process).Reachable s' := fun h he => he ▸ h
  apply hcast hdone
  apply Demux.ext
  case workers =>
    funext j
    cases j <;> rfl
  case shards =>
    funext j
    cases j <;> rfl
  all_goals rfl

/-- The call finds that worker, parks on it and returns after the commit, when the worker
has left the map. -/
theorem Demux.drain_complete_sample : ∃ s : Demux Unit,
    Relation.ReflTransGen (Demux.QuietStep .small .process) Demux.committingA s ∧
    s.log.collected.map ident = [ident (itemA 0)] ∧ Drained .small s := by
  have hrefl : Relation.ReflTransGen (Demux.QuietStep .small .process)
    Demux.committingA Demux.committingA := .refl
  have hstart := hrefl.tail ⟨.drain (.start _ 0 (Demux.ready_small rfl) rfl), rfl⟩
  have hscan := hstart.tail ⟨.drain (.scan _ 0 0 [0] rfl (by decide) id (by
    refine ⟨by decide, fun id => ?_⟩
    show id ∈ [0] ↔ ∃ k, Function.update (fun _ => none) "a" (some 0) k = some id
    constructor
    · intro hid
      exact ⟨"a", by simpa using (List.mem_singleton.mp hid).symm⟩
    · intro hid
      obtain ⟨k, hk⟩ := hid
      by_cases ha : k = "a"
      · subst ha
        simpa using hk.symm
      · rw [Function.update_of_ne ha] at hk
        exact nomatch hk)), rfl⟩
  have hpark := hscan.tail ⟨.drain (.park _ 0 0 0 [] rfl id rfl), rfl⟩
  have hcommit := hpark.tail ⟨.work (.work _ 0 _ _ (by decide) (.commit _ _ rfl)), rfl⟩
  have hempty := hcommit.tail ⟨.work (.work _ 0 _ _ (by decide) (.fallThrough _ rfl rfl)), rfl⟩
  have hretire := hempty.tail ⟨.work (.retire _ 0 (by decide) rfl rfl id), rfl⟩
  have hpass := hretire.tail ⟨.drain (.pass _ 0 0 0 [] rfl id rfl), rfl⟩
  have hnext := hpass.tail ⟨.drain (.next _ 0 0 rfl), rfl⟩
  have hreturn := hnext.tail ⟨.drain (.return_ _ 0 1 rfl rfl), rfl⟩
  exact ⟨_, hreturn, rfl,
    (Demux.drain_complete (d := 0) Demux.committingA_reachable trivial rfl hreturn rfl).2⟩

end LlingrDemux.Pipeline
