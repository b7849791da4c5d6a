import LlingrDemux.Pipeline.Placed
import Mathlib.Data.List.Nodup

/-!
# The life cycle of a worker

`Stands` reads a worker's place off the pools, the maps, the goroutines and its shutdown
channel. In every reachable state each worker stands in exactly one place, the one it
records. What follows is that a shutdown channel is closed once, outside pool and map, that
nothing is sent to a worker that was shut down, and that a worker that leaves the map
deletes its own entry.
-/

namespace LlingrDemux.Pipeline

open Shared
set_option autoImplicit false

variable {T : Type} {cfg : Config} {c : Caller} {s s' : Demux T}

/-- The goroutine has just created the worker or taken it from a pool. -/
def Demux.Holds (s : Demux T) (id : Nat) : Holder → Prop
  | .dispatcher => ∃ w, s.dispatcher = .inserting w id
  | .pruner i => ∃ n, (s.shards i).pruner = .closing id n
  | .warmup i => id ∈ (s.shards i).warmup.warmed

/-- Where the worker is, as far as the rest of the system can tell. -/
def Demux.Stands (s : Demux T) (id : Nat) : Place → Prop
  | .pooled => ∃ i, id ∈ (s.shards i).workerPool
  | .serving k => ∃ i, (s.shards i).workers k = some id
  | .retiring => (s.workers id).pc = .releasing ∨ (s.workers id).pc = .returning
  | .held holder => s.Holds id holder
  | .stopped => (s.workers id).shutdown = true

/-- A step that executes `close(worker.shutdown)`: `ReturnWorker` finds the pool full, called
by the worker itself or by the warm-up, or the pruner took the worker. -/
inductive Demux.Closes (cfg : Config) (s : Demux T) (id : Nat) : Demux T → Prop where
  | giveBack (made : id < s.created) (pc : (s.workers id).pc = .returning)
      (full : cfg.workerPoolSize ≤ (s.shards (s.workers id).shard).workerPool.length) :
      Closes cfg s id (s.giveBack cfg id)
  | prune (i n : Nat) (pc : (s.shards i).pruner = .closing id n) :
      Closes cfg s id ((s.setPruner i (.waiting (some n))).setWorker id
        { s.workers id with place := .stopped, shutdown := true })
  | warmup (i : Nat) (warmed : List Nat) (pc : (s.shards i).warmup = .returning (id :: warmed))
      (full : cfg.workerPoolSize ≤ (s.shards i).workerPool.length) :
      Closes cfg s id ((s.setWarmup i (.returning warmed)).returnWorker cfg i id)

/-- The dispatcher is about to send an item on the worker's channel. -/
def Demux.SendsTo (cfg : Config) (s : Demux T) (id : Nat) : Prop :=
  ∃ w, s.dispatcher = .locking w ∧
      (s.shards (cfg.shardOf w.message.key)).workers w.message.key = some id ∨
    s.dispatcher = .handing w id

/-! ## At most one place -/

namespace Placed

/-- A worker stands in no place but the one it records. -/
theorem place_of_stands (h : Placed cfg s) {id : Nat} (made : id < s.created) {p : Place}
    (stands : s.Stands id p) : (s.workers id).place = p := by
  have hsound := h.layout.sound id made
  cases p with
  | pooled =>
    obtain ⟨i, hi⟩ := stands
    exact (h.layout.pool i id hi).place
  | serving k =>
    obtain ⟨i, hi⟩ := stands
    exact ((h.layout.mapped i k id).mp hi).place
  | retiring => exact hsound.retiring_of_pc stands
  | held holder =>
    cases holder with
    | dispatcher =>
      obtain ⟨w, hw⟩ := stands
      exact (h.dispatching.borrowed w id hw).place
    | pruner i =>
      obtain ⟨n, hn⟩ := stands
      exact (h.layout.pruner i id n hn).place
    | warmup i => exact (h.layout.warmup i id stands).place
  | stopped =>
    cases hp : (s.workers id).place with
    | pooled => exact nomatch stands.symm.trans (hsound.pooled hp).live
    | serving k =>
      obtain ⟨t, ht⟩ := hsound.serving hp
      exact nomatch stands.symm.trans ht.live
    | retiring => exact nomatch stands.symm.trans (hsound.retiring hp).live
    | held holder => exact nomatch stands.symm.trans (hsound.held hp).live
    | stopped => rfl

theorem stands_of_serving (h : Placed cfg s) {id : Nat} (made : id < s.created) {k : String}
    (place : (s.workers id).place = .serving k) : s.Stands id (s.workers id).place := by
  rw [place]
  exact ⟨_, (h.layout.mapped _ k id).mpr ⟨made, rfl, place⟩⟩

end Placed

/-! ## At least one place -/

/-- Every worker stands where it says it is. -/
def Housed (s : Demux T) : Prop := ∀ id < s.created, s.Stands id (s.workers id).place

namespace Housed

/-- A step that touches one worker, or none if `id` is not one, and takes no other worker out
of a list or a hand. -/
theorem move (h : Housed s) (placed : Placed cfg s') (id : Nat)
    (created : ∀ j, j < s'.created → j ≠ id → j < s.created)
    (others : ∀ j, j ≠ id → s'.workers j = s.workers j)
    (pool : ∀ i j, j ≠ id → j ∈ (s.shards i).workerPool → j ∈ (s'.shards i).workerPool)
    (inserting : ∀ w j, j ≠ id → s.dispatcher = .inserting w j → s'.dispatcher = .inserting w j)
    (pruner : ∀ i j n, j ≠ id → (s.shards i).pruner = .closing j n →
      (s'.shards i).pruner = .closing j n)
    (warmup : ∀ i j, j ≠ id → j ∈ (s.shards i).warmup.warmed → j ∈ (s'.shards i).warmup.warmed)
    (self : id < s'.created → s'.Stands id (s'.workers id).place) : Housed s' := by
  intro j hj
  by_cases hne : j = id
  · subst hne
    exact self hj
  · have hstands := h j (created j hj hne)
    have hworker := others j hne
    cases hp : (s.workers j).place with
    | pooled =>
      rw [hp] at hstands
      obtain ⟨i, hi⟩ := hstands
      rw [hworker, hp]
      exact ⟨i, pool i j hne hi⟩
    | serving k =>
      refine placed.stands_of_serving hj (k := k) ?_
      rw [hworker, hp]
    | retiring =>
      rw [hp] at hstands
      rw [hworker, hp]
      simpa only [Demux.Stands, hworker] using hstands
    | held holder =>
      rw [hp] at hstands
      rw [hworker, hp]
      cases holder with
      | dispatcher =>
        obtain ⟨w, hw⟩ := hstands
        exact ⟨w, inserting w j hne hw⟩
      | pruner i =>
        obtain ⟨n, hn⟩ := hstands
        exact ⟨n, pruner i j n hne hn⟩
      | warmup i => exact warmup i j hne hstands
    | stopped =>
      rw [hp] at hstands
      rw [hworker, hp]
      simpa only [Demux.Stands, hworker] using hstands

/-- A step that touches no worker and no list. -/
theorem same (h : Housed s) (placed : Placed cfg s') (workers : s'.workers = s.workers)
    (created : s'.created = s.created) (shards : s'.shards = s.shards)
    (inserting : ∀ w id, s.dispatcher = .inserting w id → s'.dispatcher = .inserting w id) :
    Housed s' := by
  refine h.move placed s'.created (fun j hj _ => created ▸ hj) (fun j _ => congrFun workers j)
    ?_ (fun w j _ => inserting w j) ?_ ?_ (fun hlt => absurd hlt (Nat.lt_irrefl _))
  · exact fun i j _ hj => shards ▸ hj
  · exact fun i j n _ hj => shards ▸ hj
  · exact fun i j _ hj => shards ▸ hj

/-- A step that touches one worker, which is in a map afterwards, and no list. -/
theorem serve (h : Housed s) (placed : Placed cfg s') (id : Nat) (k : String)
    (place : (s'.workers id).place = .serving k)
    (created : s'.created = s.created) (others : ∀ j, j ≠ id → s'.workers j = s.workers j)
    (pool : ∀ i, (s'.shards i).workerPool = (s.shards i).workerPool)
    (inserting : ∀ w j, j ≠ id → s.dispatcher = .inserting w j → s'.dispatcher = .inserting w j)
    (pruner : ∀ i, (s'.shards i).pruner = (s.shards i).pruner)
    (warmup : ∀ i, (s'.shards i).warmup = (s.shards i).warmup) : Housed s' := by
  refine h.move placed id (fun j hj _ => created ▸ hj) others ?_ inserting ?_ ?_
    (fun hid => placed.stands_of_serving hid place)
  · exact fun i j _ hj => (pool i).symm ▸ hj
  · exact fun i j n _ hj => (pruner i).trans hj
  · exact fun i j _ hj => (warmup i).symm ▸ hj

/-- Borrowing takes one worker from a pool or creates it. -/
theorem borrowWorker_others (s : Demux T) (i : Nat) (holder : Holder) :
    (∀ j, j < (s.borrowWorker i holder).2.created → j ≠ (s.borrowWorker i holder).1 →
      j < s.created) ∧
    (∀ j, j ≠ (s.borrowWorker i holder).1 →
      (s.borrowWorker i holder).2.workers j = s.workers j) ∧
    (∀ l j, j ≠ (s.borrowWorker i holder).1 → j ∈ (s.shards l).workerPool →
      j ∈ ((s.borrowWorker i holder).2.shards l).workerPool) ∧
    (∀ l, ((s.borrowWorker i holder).2.shards l).pruner = (s.shards l).pruner) ∧
    ∀ l, ((s.borrowWorker i holder).2.shards l).warmup = (s.shards l).warmup := by
  unfold Demux.borrowWorker
  cases hpool : (s.shards i).workerPool with
  | nil =>
    refine ⟨?_, fun j hj => Demux.setWorker_other _ hj, fun l j _ hj => hj, fun _ => rfl,
      fun _ => rfl⟩
    intro j hj hne
    simp only at hj hne
    omega
  | cons id rest =>
    refine ⟨fun j hj _ => hj, fun j hj => Demux.setWorker_other _ hj, ?_, ?_, ?_⟩
    · intro l j hne hj
      rw [Demux.setWorker_shards, Demux.setPool_shards]
      by_cases hl : l = i
      · subst hl
        rw [hpool] at hj
        simpa [hne] using hj
      · simpa [hl] using hj
    · intro l
      rw [Demux.setWorker_shards, Demux.setPool_shards]
    · intro l
      rw [Demux.setWorker_shards, Demux.setPool_shards]

theorem dispatchStep (h : Housed s) (before : Placed cfg s) (placed : Placed cfg s')
    (step : s.DispatchStep cfg c s') : Housed s' := by
  cases step with
  | poll w caller ready pc | guardFull w pc | acquireTimeout w pc | stall w id pc | stallExit w pc
  | stallRetry w timeout pc | missing w pc =>
    exact h.same placed rfl rfl rfl fun w id hw => nomatch pc.symm.trans hw
  | takeGuard w pc | takeGuardLate w pc | takeOverflow w pc =>
    have hsame := Demux.acquire_tokensOnly (s := s)
    refine h.same placed (hsame _).workers (hsame _).created (hsame _).shards ?_
    exact fun w id hw => nomatch pc.symm.trans hw
  | call w caller ready pc =>
    exact h.same placed rfl rfl rfl fun w id hw => nomatch pc.symm.trans hw
  | deposit t caller room =>
    have hsame := Demux.acquire_tokensOnly (s := s) t
    exact h.same placed hsame.workers hsame.created hsame.shards
      fun w id hw => hsame.dispatcher.trans hw
  | pipeline w id pc found room =>
    have hat := (before.layout.mapped _ _ id).mp found
    refine h.serve placed id w.message.key ?_ rfl
      (fun j hj => Demux.setWorker_other _ hj) (fun _ => rfl)
      (fun w' j _ hw => nomatch pc.symm.trans hw) (fun _ => rfl) (fun _ => rfl)
    rw [Demux.pipeline_worker]
    exact hat.place
  | borrow w pc =>
    obtain ⟨hcreated, hothers, hpool, hpruner, hwarmup⟩ :=
      borrowWorker_others s (cfg.shardOf w.message.key) .dispatcher
    obtain ⟨_, hat, _⟩ := before.layout.borrowWorker (cfg.shardOf w.message.key) .dispatcher
    refine h.move placed _ hcreated hothers hpool (fun w' j _ hw => nomatch pc.symm.trans hw)
      (fun i j n _ hj => (hpruner i).trans hj) (fun i j _ hj => (hwarmup i).symm ▸ hj) ?_
    intro _
    have hplace := hat.place
    show Demux.Stands _ _ ((s.borrowWorker _ _).2.workers _).place
    rw [hplace]
    exact ⟨w, rfl⟩
  | insert w id pc =>
    have hmap := Demux.insert_mapOnly (s := s) cfg w id
    refine h.serve placed id w.message.key ?_ rfl (fun j hj => Demux.setWorker_other _ hj)
      (fun i => (hmap i).workerPool) ?_ (fun i => (hmap i).pruner) (fun i => (hmap i).warmup)
    · rw [Demux.insert_worker]
    · intro w' j hne hw
      cases pc.symm.trans hw
      exact absurd rfl hne
  | hand w id pc room =>
    have hat := (before.dispatching.handing w id pc).1
    refine h.serve placed id w.message.key ?_ rfl
      (fun j hj => Demux.setWorker_other _ hj) (fun _ => rfl)
      (fun w' j _ hw => nomatch pc.symm.trans hw) (fun _ => rfl) (fun _ => rfl)
    rw [Demux.hand_worker]
    exact hat.place
  | settle t pc filled =>
    have hsame := Demux.release_tokensOnly (s := s) t
    exact h.same placed hsame.workers hsame.created hsame.shards
      fun w id hw => nomatch pc.symm.trans hw

/-- A worker that no list has is given back: it is in the pool or its channel is closed. -/
theorem returnWorker_stands (s : Demux T) (i id : Nat) : (s.returnWorker cfg i id).Stands id
    ((s.returnWorker cfg i id).workers id).place := by
  unfold Demux.returnWorker
  split
  · rw [Demux.setWorker_same]
    refine ⟨i, ?_⟩
    rw [Demux.setWorker_shards, Demux.setPool_shards]
    simp
  · rw [Demux.setWorker_same]
    show ((s.setWorker id _).workers id).shutdown = true
    rw [Demux.setWorker_same]

theorem returnWorker_others (cfg : Config) (s : Demux T) (i id : Nat) :
    (∀ j, j ≠ id → (s.returnWorker cfg i id).workers j = s.workers j) ∧
    (∀ l j, j ∈ (s.shards l).workerPool →
      j ∈ ((s.returnWorker cfg i id).shards l).workerPool) ∧
    (∀ l, ((s.returnWorker cfg i id).shards l).pruner = (s.shards l).pruner) ∧
    (∀ l, ((s.returnWorker cfg i id).shards l).warmup = (s.shards l).warmup) ∧
    (s.returnWorker cfg i id).created = s.created := by
  unfold Demux.returnWorker
  split
  · refine ⟨fun j hj => Demux.setWorker_other _ hj, ?_, ?_, ?_, rfl⟩
    · intro l j hj
      rw [Demux.setWorker_shards, Demux.setPool_shards]
      by_cases hl : l = i
      · subst hl
        simp [hj]
      · simpa [hl] using hj
    · intro l
      rw [Demux.setWorker_shards, Demux.setPool_shards]
    · intro l
      rw [Demux.setWorker_shards, Demux.setPool_shards]
  · exact ⟨fun j hj => Demux.setWorker_other _ hj, fun l j hj => hj, fun _ => rfl, fun _ => rfl, rfl⟩

theorem workStep (h : Housed s) (before : Placed cfg s) (placed : Placed cfg s')
    (step : s.WorkStep cfg s') : Housed s' := by
  cases step with
  | work id e w made step =>
    refine h.move placed id (fun j hj _ => hj) (fun j hj => Demux.setWorker_other w hj)
      (fun i j _ hj => hj) (fun w' j _ hw => hw) (fun i j n _ hj => hj) (fun i j _ hj => hj) ?_
    intro hid
    have hw : ((s.setWorker id w).record e).workers id = w := Demux.setWorker_same id w
    by_cases hserving : ∃ k, (s.workers id).place = .serving k
    · obtain ⟨k, hk⟩ := hserving
      refine placed.stands_of_serving hid (k := k) ?_
      rw [hw, step.place, hk]
    · obtain ⟨hstopped, _, rfl⟩ := step.outside (before.layout.sound id made)
        fun k hk => hserving ⟨k, hk⟩
      have hclosed := h id made
      rw [hstopped] at hclosed
      rw [(congrArg Worker.place hw).trans hstopped]
      exact (congrArg Worker.shutdown hw).trans hclosed
  | resume id made pc arrived free =>
    obtain ⟨k, _, hk, _⟩ := before.serving_of_emptied made pc
    refine h.serve placed id k ?_ rfl (fun j hj => Demux.setWorker_other _ hj)
      (fun _ => rfl) (fun w' j _ hw => hw) (fun _ => rfl) (fun _ => rfl)
    rw [Demux.setWorker_same]
    exact hk
  | retire id made pc empty free =>
    have hmap := Demux.retire_mapOnly (s := s) id
    have hw := Demux.retire_worker (s := s) id
    refine h.move placed id (fun j hj _ => hj) (fun j hj => Demux.setWorker_other _ hj)
      ?_ (fun w' j _ hw => hw) (fun i j n _ hj => (hmap i).pruner.trans hj) ?_ ?_
    · intro i j _ hj
      rwa [(hmap i).workerPool]
    · intro i j _ hj
      rwa [(hmap i).warmup]
    · intro _
      rw [hw]
      exact .inl (congrArg Worker.pc hw)
  | release id made pc filled =>
    have hsame := Demux.release_tokensOnly (s := s.setWorker id { s.workers id with
      pc := .returning, partitionKey := "", activatedBy := none })
      (.ofOverflow (s.workers id).usedOverflow)
    have hw : (s.releaseWorker id).workers id = { s.workers id with
        pc := .returning, partitionKey := "", activatedBy := none } := by
      rw [Demux.releaseWorker, hsame.workers, Demux.setWorker_same]
    refine h.move placed id (fun j hj _ => ?_) (fun j hj => ?_) ?_ ?_ ?_ ?_ ?_
    · rwa [Demux.releaseWorker, hsame.created] at hj
    · rw [Demux.releaseWorker, hsame.workers, Demux.setWorker_other _ hj]
    · intro i j _ hj
      rwa [Demux.releaseWorker, hsame.shards]
    · intro w j _ hj
      rwa [Demux.releaseWorker, hsame.dispatcher]
    · intro i j n _ hj
      rwa [Demux.releaseWorker, hsame.shards]
    · intro i j _ hj
      rwa [Demux.releaseWorker, hsame.shards]
    · intro _
      have hplace := (before.layout.sound id made).retiring_of_pc (.inl pc)
      rw [(congrArg Worker.place hw).trans hplace]
      exact .inr (congrArg Worker.pc hw)
  | giveBack id made pc =>
    obtain ⟨hothers, hpool, hpruner, hwarmup, hcreated⟩ := returnWorker_others cfg
      (s.setWorker id { s.workers id with pc := .cold }) (s.workers id).shard id
    refine h.move placed id (fun j hj _ => hcreated ▸ hj)
      (fun j hj => (hothers j hj).trans (Demux.setWorker_other _ hj)) (fun i j _ hj => hpool i j hj)
      ?_ (fun i j n _ hj => (hpruner i).trans hj) (fun i j _ hj => (hwarmup i).symm ▸ hj)
      (fun _ => returnWorker_stands _ _ _)
    intro w j _ hw
    exact (Demux.giveBack_poolsOnly cfg id).dispatcher.trans hw

/-- The pruner moves on while it has no worker in its hands. -/
theorem setPruner (h : Housed s) {i : Nat} {pc : PrunerPc} (placed : Placed cfg (s.setPruner i pc))
    (free : ∀ id n, (s.shards i).pruner ≠ .closing id n) : Housed (s.setPruner i pc) := by
  refine h.move placed s.created (fun j hj _ => hj) (fun _ _ => rfl) ?_ (fun w j _ hw => hw) ?_ ?_
    (fun hlt => absurd hlt (Nat.lt_irrefl _))
  · intro l j _ hj
    rwa [Demux.setPruner_shards]
  · intro l j n _ hj
    rw [Demux.setPruner_shards]
    by_cases hl : l = i
    · subst hl
      exact absurd hj (free j n)
    · simpa [hl] using hj
  · intro l j _ hj
    rwa [Demux.setPruner_shards]

theorem setWarmup (h : Housed s) {i : Nat} {pc : WarmupPc} (placed : Placed cfg (s.setWarmup i pc))
    (kept : ∀ id ∈ (s.shards i).warmup.warmed, id ∈ pc.warmed) : Housed (s.setWarmup i pc) := by
  refine h.move placed s.created (fun j hj _ => hj) (fun _ _ => rfl) ?_ (fun w j _ hw => hw) ?_ ?_
    (fun hlt => absurd hlt (Nat.lt_irrefl _))
  · intro l j _ hj
    rwa [Demux.setWarmup_shards]
  · intro l j n _ hj
    rwa [Demux.setWarmup_shards]
  · intro l j _ hj
    rw [Demux.setWarmup_shards]
    by_cases hl : l = i
    · subst hl
      simpa using kept j hj
    · simpa [hl] using hj

theorem take (h : Housed s) {i n id : Nat} {rest : List Nat}
    (pc : (s.shards i).pruner = .taking n) (pool : (s.shards i).workerPool = id :: rest)
    (placed : Placed cfg (((s.setPool i rest).setWorker id
      { s.workers id with place := .held (.pruner i) }).setPruner i (.closing id n))) :
    Housed (((s.setPool i rest).setWorker id
      { s.workers id with place := .held (.pruner i) }).setPruner i (.closing id n)) := by
  have hw : (((s.setPool i rest).setWorker id { s.workers id with
      place := .held (.pruner i) }).setPruner i (.closing id n)).workers id =
      { s.workers id with place := .held (.pruner i) } := Demux.setWorker_same ..
  refine h.move placed id (fun j hj _ => hj) (fun j hj => Demux.setWorker_other _ hj) ?_
    (fun w j _ hw => hw) ?_ ?_ ?_
  · intro l j hne hj
    rw [Demux.setPruner_shards, Demux.setWorker_shards, Demux.setPool_shards]
    by_cases hl : l = i
    · subst hl
      rw [pool] at hj
      simpa [hne] using hj
    · simpa [hl] using hj
  · intro l j n' _ hj
    rw [Demux.setPruner_shards, Demux.setWorker_shards, Demux.setPool_shards]
    by_cases hl : l = i
    · subst hl
      exact nomatch pc.symm.trans hj
    · simpa [hl] using hj
  · intro l j _ hj
    rwa [Demux.setPruner_shards, Demux.setWorker_shards, Demux.setPool_shards]
  · intro _
    rw [hw]
    refine ⟨n, ?_⟩
    rw [Demux.setPruner_shards]
    simp

theorem close (h : Housed s) {i n id : Nat} (pc : (s.shards i).pruner = .closing id n)
    (placed : Placed cfg ((s.setPruner i (.waiting (some n))).setWorker id
      { s.workers id with place := .stopped, shutdown := true })) :
    Housed ((s.setPruner i (.waiting (some n))).setWorker id
      { s.workers id with place := .stopped, shutdown := true }) := by
  refine h.move placed id (fun j hj _ => hj) (fun j hj => Demux.setWorker_other _ hj) ?_
    (fun w j _ hw => hw) ?_ ?_ ?_
  · intro l j _ hj
    rwa [Demux.setWorker_shards, Demux.setPruner_shards]
  · intro l j n' hne hj
    rw [Demux.setWorker_shards, Demux.setPruner_shards]
    by_cases hl : l = i
    · subst hl
      cases pc.symm.trans hj
      exact absurd rfl hne
    · simpa [hl] using hj
  · intro l j _ hj
    rwa [Demux.setWorker_shards, Demux.setPruner_shards]
  · intro _
    rw [Demux.setWorker_same]
    exact congrArg Worker.shutdown (Demux.setWorker_same id _)

theorem warm (h : Housed s) (before : Placed cfg s) {i : Nat} {warmed : List Nat}
    (pc : (s.shards i).warmup = .filling warmed)
    (placed : Placed cfg ((s.borrowWorker i (.warmup i)).2.setWarmup i
      (.filling (warmed ++ [(s.borrowWorker i (.warmup i)).1])))) :
    Housed ((s.borrowWorker i (.warmup i)).2.setWarmup i
      (.filling (warmed ++ [(s.borrowWorker i (.warmup i)).1]))) := by
  obtain ⟨hcreated, hothers, hpool, hpruner, hwarmup⟩ := borrowWorker_others s i (.warmup i)
  obtain ⟨_, hat, _⟩ := before.layout.borrowWorker i (.warmup i)
  have hsame := Demux.borrowWorker_poolsOnly (s := s) i (.warmup i)
  refine h.move placed _ hcreated hothers ?_ (fun w j _ hw => hsame.dispatcher.trans hw) ?_ ?_ ?_
  · intro l j hne hj
    rw [Demux.setWarmup_shards]
    exact hpool l j hne hj
  · intro l j n _ hj
    rw [Demux.setWarmup_shards]
    exact (hpruner l).trans hj
  · intro l j _ hj
    rw [Demux.setWarmup_shards]
    by_cases hl : l = i
    · subst hl
      rw [pc] at hj
      simpa [WarmupPc.warmed] using .inl hj
    · simpa [hl, hwarmup] using hj
  · intro _
    show Demux.Stands _ _ ((s.borrowWorker _ _).2.workers _).place
    rw [hat.place]
    show _ ∈ (((s.borrowWorker i (.warmup i)).2.setWarmup i _).shards i).warmup.warmed
    rw [Demux.setWarmup_shards]
    simp [WarmupPc.warmed]

theorem warmReturn (h : Housed s) {i id : Nat} {warmed : List Nat}
    (pc : (s.shards i).warmup = .returning (id :: warmed))
    (placed : Placed cfg ((s.setWarmup i (.returning warmed)).returnWorker cfg i id)) :
    Housed ((s.setWarmup i (.returning warmed)).returnWorker cfg i id) := by
  obtain ⟨hothers, hpool, hpruner, hwarmup, hcreated⟩ := returnWorker_others cfg
    (s.setWarmup i (.returning warmed)) i id
  refine h.move placed id (fun j hj _ => hcreated ▸ hj) hothers ?_ ?_ ?_ ?_
    (fun _ => returnWorker_stands _ _ _)
  · intro l j _ hj
    apply hpool l j
    rwa [Demux.setWarmup_shards]
  · intro w j _ hw
    exact (Demux.returnWorker_poolsOnly cfg i id).dispatcher.trans hw
  · intro l j n _ hj
    rw [hpruner l, Demux.setWarmup_shards]
    exact hj
  · intro l j hne hj
    rw [hwarmup l, Demux.setWarmup_shards]
    by_cases hl : l = i
    · subst hl
      rw [pc] at hj
      simpa [WarmupPc.warmed, hne] using hj
    · simpa [hl] using hj

theorem poolStep (h : Housed s) (before : Placed cfg s) (placed : Placed cfg s')
    (step : s.PoolStep cfg s') : Housed s' := by
  cases step with
  | tick i prevLen pc => exact h.setPruner placed fun id n hn => nomatch pc.symm.trans hn
  | take i n id rest pc pool => exact h.take pc pool placed
  | miss i n pc pool => exact h.setPruner placed fun id n hn => nomatch pc.symm.trans hn
  | close i n id pc => exact h.close pc placed
  | warm i warmed pc more => exact h.warm before pc placed
  | turn i warmed pc enough => exact h.setWarmup placed fun id hid => by rwa [pc] at hid
  | return_ i id warmed pc => exact h.warmReturn pc placed
  | ready i pc =>
    refine h.setWarmup placed fun id hid => ?_
    rw [pc] at hid
    exact nomatch hid

theorem step (h : Housed s) (before : Placed cfg s) (step : Demux.Step cfg c s s') :
    Housed s' := by
  have placed := before.step step
  cases step with
  | dispatch step => exact h.dispatchStep before placed step
  | work step => exact h.workStep before placed step
  | pool step => exact h.poolStep before placed step
  | env step =>
    cases step with
    | trip => exact h.same placed rfl rfl rfl fun w id hw => hw
    | others n nonneg room => exact h.same placed rfl rfl rfl fun w id hw => hw
    | observe i tripped =>
      refine h.move placed s.created (fun j hj _ => hj) (fun _ _ => rfl) ?_ (fun w j _ hw => hw)
        ?_ ?_ (fun hlt => absurd hlt (Nat.lt_irrefl _))
      · intro l j _ hj
        rwa [Demux.setDone_shards]
      · intro l j n _ hj
        rwa [Demux.setDone_shards]
      · intro l j _ hj
        rwa [Demux.setDone_shards]
  | drain step => cases step <;> exact h.same placed rfl rfl rfl fun w id hw => hw

theorem of_reachable (h : (demuxSystem T cfg c).Reachable s) : Housed s := by
  refine System.invariant (M := demuxSystem T cfg c) (P := Housed) ?_ ?_ s h
  · intro s hs id hid
    rw [show s = Demux.initial from hs] at hid
    exact absurd hid (Nat.not_lt_zero id)
  · intro s s' hreach hs hstep
    exact hs.step (Placed.of_reachable hreach) hstep

end Housed

/-! ## Closing a shutdown channel -/

section Shutdown

theorem setWorker_shutdown {id : Nat} {w : Worker T}
    (same : w.shutdown = (s.workers id).shutdown) (j : Nat) :
    ((s.setWorker id w).workers j).shutdown = (s.workers j).shutdown := by
  by_cases hj : j = id
  · subst hj
    rw [Demux.setWorker_same]
    exact same
  · rw [Demux.setWorker_other w hj]

theorem WorkerStep.shutdown {done : Bool} {w w' : Worker T} {e : Event T}
    (h : WorkerStep done w e w') : w'.shutdown = w.shutdown := by
  cases h <;> rfl

theorem borrowWorker_shutdown (i : Nat) (holder : Holder) {j : Nat} (made : j < s.created) :
    ((s.borrowWorker i holder).2.workers j).shutdown = (s.workers j).shutdown := by
  unfold Demux.borrowWorker
  cases (s.shards i).workerPool with
  | nil => exact congrArg Worker.shutdown (Demux.setWorker_other _ (Nat.ne_of_lt made))
  | cons id rest => exact setWorker_shutdown (s := s.setPool i rest) (by rfl) j

theorem returnWorker_shutdown (cfg : Config) (s : Demux T) (i id j : Nat) :
    ((s.returnWorker cfg i id).workers j).shutdown = (s.workers j).shutdown ∨
      j = id ∧ cfg.workerPoolSize ≤ (s.shards i).workerPool.length := by
  unfold Demux.returnWorker
  split
  · exact .inl (setWorker_shutdown (s := s.setPool i _) (by rfl) j)
  · rename_i hfull
    by_cases hj : j = id
    · exact .inr ⟨hj, Nat.not_lt.mp hfull⟩
    · exact .inl (congrArg Worker.shutdown (Demux.setWorker_other _ hj))

theorem returnWorker_full {i id : Nat}
    (full : cfg.workerPoolSize ≤ (s.shards i).workerPool.length) :
    ((s.returnWorker cfg i id).workers id).shutdown = true := by
  rw [Demux.returnWorker, if_neg (Nat.not_lt.mpr full), Demux.setWorker_same]

/-- Only a closing step changes the shutdown channel of a worker. -/
theorem Demux.Step.shutdown (step : Demux.Step cfg c s s') {id : Nat} (made : id < s.created) :
    (s'.workers id).shutdown = (s.workers id).shutdown ∨ s.Closes cfg id s' := by
  cases step with
  | dispatch step =>
    left
    cases step with
    | poll | guardFull | acquireTimeout | stall | stallExit | stallRetry | missing | call => rfl
    | takeGuard | takeGuardLate | takeOverflow | deposit =>
      exact congrArg (fun f : Nat → Worker T => (f id).shutdown)
        (Demux.acquire_tokensOnly (s := s) _).workers
    | settle t =>
      exact congrArg (fun f : Nat → Worker T => (f id).shutdown)
        (Demux.release_tokensOnly (s := s) t).workers
    | pipeline w j | hand w j => exact setWorker_shutdown (by rfl) id
    | borrow w pc => exact borrowWorker_shutdown _ _ made
    | insert w j pc => exact setWorker_shutdown (s := s.setEntry _ _ _) (by rfl) id
  | work step =>
    cases step with
    | work j e w _ step => exact .inl (setWorker_shutdown step.shutdown id)
    | resume j => exact .inl (setWorker_shutdown (by rfl) id)
    | retire j => exact .inl (setWorker_shutdown (s := s.setEntry _ _ _) (by rfl) id)
    | release j =>
      left
      rw [Demux.releaseWorker, (Demux.release_tokensOnly _).workers]
      exact setWorker_shutdown (by rfl) id
    | giveBack j hj pc =>
      rcases returnWorker_shutdown cfg (s.setWorker j { s.workers j with pc := .cold })
        (s.workers j).shard j id with hsame | ⟨rfl, hfull⟩
      · exact .inl (hsame.trans (setWorker_shutdown (by rfl) id))
      · exact .inr (.giveBack hj pc hfull)
  | pool step =>
    cases step with
    | tick | miss | turn | ready => exact .inl rfl
    | take i n j rest => exact .inl (setWorker_shutdown (s := s.setPool i rest) (by rfl) id)
    | close i n j pc =>
      by_cases hj : id = j
      · subst hj
        exact .inr (.prune i n pc)
      · exact .inl (congrArg Worker.shutdown (Demux.setWorker_other _ hj))
    | warm i warmed pc more => exact .inl (borrowWorker_shutdown i _ made)
    | return_ i j warmed pc =>
      rcases returnWorker_shutdown cfg (s.setWarmup i (.returning warmed)) i j id with hsame | ⟨rfl, hfull⟩
      · exact .inl hsame
      · refine .inr (.warmup i warmed pc ?_)
        rwa [Demux.setWarmup_shards] at hfull
  | env step => cases step <;> exact .inl rfl
  | drain step => cases step <;> exact .inl rfl

/-- What a closing step finds: the worker exists, is live and is in no pool and no map. -/
theorem Demux.Closes.before (h : Placed cfg s) {id : Nat} (closes : s.Closes cfg id s') :
    id < s.created ∧ (s.workers id).shutdown = false ∧
      (∀ i, id ∉ (s.shards i).workerPool) ∧ ∀ i k, (s.shards i).workers k ≠ some id := by
  have hout : id < s.created → (s.workers id).shutdown = false →
      (s.workers id).place ≠ .pooled → (∀ k, (s.workers id).place ≠ .serving k) →
      id < s.created ∧ (s.workers id).shutdown = false ∧
        (∀ i, id ∉ (s.shards i).workerPool) ∧ ∀ i k, (s.shards i).workers k ≠ some id := by
    intro made live hpool hmap
    exact ⟨made, live, fun i hi => hpool (h.layout.pool i id hi).place,
      fun i k hk => hmap k ((h.layout.mapped i k id).mp hk).place⟩
  cases closes with
  | giveBack made pc full =>
    have hplace := (h.layout.sound id made).retiring_of_pc (.inr pc)
    refine hout made ((h.layout.sound id made).retiring hplace).live ?_ ?_
    · exact fun hp => nomatch hplace.symm.trans hp
    · exact fun k hk => nomatch hplace.symm.trans hk
  | prune i n pc =>
    have hat := h.layout.pruner i id n pc
    refine hout hat.made ((h.layout.sound id hat.made).held hat.place).live ?_ ?_
    · exact fun hp => nomatch hat.place.symm.trans hp
    · exact fun k hk => nomatch hat.place.symm.trans hk
  | warmup i warmed pc full =>
    have hat := h.layout.warmup i id (pc ▸ List.mem_cons_self)
    refine hout hat.made ((h.layout.sound id hat.made).held hat.place).live ?_ ?_
    · exact fun hp => nomatch hat.place.symm.trans hp
    · exact fun k hk => nomatch hat.place.symm.trans hk

theorem Demux.Closes.after {id : Nat} (closes : s.Closes cfg id s') :
    (s'.workers id).shutdown = true := by
  cases closes with
  | giveBack made pc full => exact returnWorker_full full
  | prune i n pc => exact congrArg Worker.shutdown (Demux.setWorker_same id _)
  | warmup i warmed pc full =>
    apply returnWorker_full
    rwa [Demux.setWarmup_shards]

theorem Demux.Closes.step {id : Nat} (closes : s.Closes cfg id s') : Demux.Step cfg c s s' := by
  cases closes with
  | giveBack made pc full => exact .work (.giveBack s id made pc)
  | prune i n pc => exact .pool (.close s i n id pc)
  | warmup i warmed pc full => exact .pool (.return_ s i id warmed pc)

theorem Demux.Step.created (step : Demux.Step cfg c s s') : s.created ≤ s'.created := by
  have hborrow : ∀ i holder, s.created ≤ (s.borrowWorker i holder).2.created := by
    intro i holder
    unfold Demux.borrowWorker
    split
    · exact Nat.le_refl _
    · exact Nat.le_succ _
  cases step with
  | dispatch step =>
    cases step with
    | poll | guardFull | acquireTimeout | stall | stallExit | stallRetry | missing | call
    | pipeline | insert | hand => exact Nat.le_refl _
    | takeGuard | takeGuardLate | takeOverflow | deposit =>
      exact Nat.le_of_eq (Demux.acquire_tokensOnly (s := s) _).created.symm
    | settle t => exact Nat.le_of_eq (Demux.release_tokensOnly (s := s) t).created.symm
    | borrow w pc => exact hborrow _ _
  | work step =>
    cases step with
    | work | resume | retire => exact Nat.le_refl _
    | release id =>
      rw [Demux.releaseWorker, (Demux.release_tokensOnly _).created]
      exact Nat.le_refl _
    | giveBack id =>
      rw [Demux.giveBack, (Housed.returnWorker_others _ _ _ id).2.2.2.2]
      exact Nat.le_refl _
  | pool step =>
    cases step with
    | tick | take | miss | close | turn | ready => exact Nat.le_refl _
    | warm i => exact hborrow _ _
    | return_ i id =>
      rw [(Housed.returnWorker_others _ _ i id).2.2.2.2]
      exact Nat.le_refl _
  | env step => cases step <;> exact Nat.le_refl _
  | drain step => cases step <;> exact Nat.le_refl _

/-- A closed shutdown channel stays closed. -/
theorem shutdown_stays (h : (demuxSystem T cfg c).Reachable s) {id : Nat} (made : id < s.created)
    (closed : (s.workers id).shutdown = true) (run : (demuxSystem T cfg c).Run s s') :
    (s'.workers id).shutdown = true := by
  have hboth : id < s'.created ∧ (s'.workers id).shutdown = true := by
    refine System.run_invariant (P := fun u => id < u.created ∧ (u.workers id).shutdown = true) h
      ⟨made, closed⟩ ?_ run
    rintro u v _ ⟨hmade, hclosed⟩ hstep
    refine ⟨Nat.lt_of_lt_of_le hmade (Demux.Step.created hstep), ?_⟩
    rcases Demux.Step.shutdown hstep hmade with hsame | hcloses
    · exact hsame.trans hclosed
    · exact hcloses.after
  exact hboth.2

end Shutdown

/-- In every state that is reached each worker is in exactly one place: once in the pool of
its shard, under one key in the map of its shard, on its way back, in the hands of one
goroutine, or shut down. A shutdown channel is closed once, by a worker's last holder. The
dispatcher sends to live workers only, and a worker that leaves the map deletes its own
entry. -/
theorem worker_life_cycle (reachable : (demuxSystem T cfg c).Reachable s) :
    (∀ id < s.created, (∃! p, s.Stands id p) ∧
      (∀ i, id ∈ (s.shards i).workerPool →
        i = (s.workers id).shard ∧ (s.shards i).workerPool.count id = 1) ∧
      ∀ i k, (s.shards i).workers k = some id → i = (s.workers id).shard) ∧
    (∀ id s₁, s.Closes cfg id s₁ → (s.workers id).shutdown = false ∧
      (∀ i, id ∉ (s.shards i).workerPool) ∧ (∀ i k, (s.shards i).workers k ≠ some id) ∧
      ∀ s₂, (demuxSystem T cfg c).Run s₁ s₂ → ∀ s₃, ¬ s₂.Closes cfg id s₃) ∧
    (∀ id s₁, id < s.created → (demuxSystem T cfg c).step s s₁ →
      (s.workers id).shutdown = false → (s₁.workers id).shutdown = true → s.Closes cfg id s₁) ∧
    (∀ id, s.SendsTo cfg id → id < s.created ∧ (s.workers id).shutdown = false ∧
      (s.workers id).pc ≠ .exited) ∧
    ∀ id < s.created, (s.workers id).pc = .emptied →
      (s.shards (s.workers id).shard).workers (s.workers id).partitionKey = some id := by
  have hplaced := Placed.of_reachable reachable
  have hhoused := Housed.of_reachable reachable
  have hserves : ∀ id k, (∃ i, s.At id i (.serving k)) → id < s.created ∧
      (s.workers id).shutdown = false ∧ (s.workers id).pc ≠ .exited := by
    rintro id k ⟨i, hat⟩
    obtain ⟨t, ht⟩ := (hplaced.layout.sound id hat.made).serving hat.place
    refine ⟨hat.made, ht.live, fun hpc => ?_⟩
    rcases ht.cached with ⟨hcold, _⟩ | ⟨hwarm, _⟩
    · exact nomatch hpc.symm.trans hcold
    · rw [hpc] at hwarm
      exact hwarm
  refine ⟨?_, ?_, ?_, ?_, ?_⟩
  · intro id made
    refine ⟨⟨(s.workers id).place, hhoused id made, ?_⟩, ?_, ?_⟩
    · exact fun p hp => (hplaced.place_of_stands made hp).symm
    · intro i hi
      exact ⟨(hplaced.layout.pool i id hi).shard.symm,
        List.count_eq_one_of_mem (hplaced.layout.pool_nodup i) hi⟩
    · exact fun i k hk => ((hplaced.layout.mapped i k id).mp hk).shard.symm
  · intro id s₁ closes
    obtain ⟨made, live, hpool, hmap⟩ := closes.before hplaced
    refine ⟨live, hpool, hmap, ?_⟩
    intro s₂ run s₃ again
    have hreach : (demuxSystem T cfg c).Reachable s₁ := reachable.step closes.step
    have hclosed := shutdown_stays hreach
      (Nat.lt_of_lt_of_le made (closes.step (c := c)).created) closes.after run
    have hlive := (again.before (Placed.of_reachable (hreach.run run))).2.1
    exact nomatch hclosed.symm.trans hlive
  · intro id s₁ made hstep live closed
    rcases Demux.Step.shutdown hstep made with hsame | hcloses
    · exact nomatch closed.symm.trans (hsame.trans live)
    · exact hcloses
  · rintro id ⟨w, ⟨_, hfound⟩ | hhanding⟩
    · exact hserves id w.message.key ⟨_, (hplaced.layout.mapped _ _ id).mp hfound⟩
    · exact hserves id w.message.key ⟨_, (hplaced.dispatching.handing w id hhanding).1⟩
  · intro id made pc
    obtain ⟨k, t, hk, _, hkey⟩ := hplaced.serving_of_emptied made pc
    rw [hkey]
    exact (hplaced.layout.mapped _ k id).mpr ⟨made, rfl, hk⟩

theorem worker_life_cycle_receivedA :
    Demux.receivedA.created = 1 ∧ ∃! p, Demux.receivedA.Stands 0 p :=
  ⟨rfl, ((worker_life_cycle Demux.receivedA_reachable).1 0 (by decide)).1⟩

end LlingrDemux.Pipeline
