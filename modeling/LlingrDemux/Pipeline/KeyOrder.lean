import LlingrDemux.Pipeline.KeyLane

/-!
# Order and mutual exclusion per key

Read off the lanes: for every key `ProcessMessage` runs on one item at a time, in the order
of dispatch and without gaps, and `CollectAndCommit` gets the handled items in that order.
-/

namespace LlingrDemux.Pipeline

open Shared
set_option autoImplicit false

variable {T : Type} {cfg : Config} {c : Caller} {s : Demux T} {k : String}

/-- What the demultiplexer guarantees for the items of one key. -/
structure InOrder (s : Demux T) (k : String) : Prop where
  /-- `ProcessMessage` never runs on two items at once. -/
  exclusive : ∀ id id' w w', id < s.created → id' < s.created →
    (s.workers id).pc = .processing w → w.message.key = k →
    (s.workers id').pc = .processing w' → w'.message.key = k → id = id'
  /-- The items it was invoked on are the first ones dispatched, in that order. -/
  invoked_prefix : onKey k s.log.invoked <+: onKey k s.log.dispatched
  /-- They are handled in the same order, up to the one being handled. -/
  handled : ∃ handling : List Ident,
    onKey k s.log.invoked = (s.log.outcomes.filter fun p => p.1.key = k).map Prod.fst ++ handling ∧
    handling.length ≤ 1
  /-- Those handled with success, by `ProcessMessage` or else by `WriteDeadLetter`, are the ones
  whose `CollectAndCommit` has returned and the one, if any, whose call is in progress. -/
  collected : ∃ passing : List Ident,
    ((s.log.outcomes.filter fun p => p.1.key = k).filter Prod.snd).map Prod.fst =
      onKey k (s.log.collected.map ident) ++ passing ∧
    passing.length ≤ 1 ∧
    ∀ a, a ∈ passing ↔ a.key = k ∧
      ∃ id < s.created, ∃ w, (s.workers id).pc = .committing w ∧ ident w = a
  /-- Distinct items are invoked and committed at most once. -/
  once : s.log.dispatched.Nodup →
    (onKey k s.log.invoked).Nodup ∧ (onKey k (s.log.collected.map ident)).Nodup

namespace Layout

/-- A worker with an item is the one in the map under the item's key. -/
theorem entry_of_item (layout : Layout cfg s) {id : Nat} {w : WorkItem T} (made : id < s.created)
    (item : (s.workers id).pc.item = some w) :
    (s.shards (cfg.shardOf w.message.key)).workers w.message.key = some id := by
  obtain ⟨k, hk⟩ := (layout.sound id made).serving_of_warm (WorkerPc.warm_of_item item)
  obtain ⟨t, ht⟩ := (layout.sound id made).serving hk
  have hat : s.At id (s.workers id).shard (.serving k) := ⟨made, rfl, hk⟩
  rw [ht.busy w item, ← layout.home id _ k hat]
  exact (layout.mapped _ _ _).mpr hat

theorem stage_of_item (layout : Layout cfg s) {id : Nat} {w : WorkItem T} (made : id < s.created)
    (item : (s.workers id).pc.item = some w) :
    (s.lane cfg w.message.key).stage = (s.workers id).pc.stage :=
  congrArg Prod.snd (Demux.serving_some (layout.entry_of_item made item))

/-- The item whose commit call is in progress is the one its lane is about to deliver. -/
theorem mem_leaving (layout : Layout cfg s) {a : Ident} :
    a ∈ (s.lane cfg k).stage.leaving ↔ a.key = k ∧
      ∃ id < s.created, ∃ w, (s.workers id).pc = .committing w ∧ ident w = a := by
  constructor
  · intro ha
    cases hentry : (s.shards (cfg.shardOf k)).workers k with
    | none =>
      rw [show (s.lane cfg k).stage = _ from congrArg Prod.snd (Demux.serving_none hentry)] at ha
      exact absurd ha List.not_mem_nil
    | some id =>
      have hat := (layout.mapped _ _ _).mp hentry
      obtain ⟨t, ht⟩ := (layout.sound id hat.made).serving hat.place
      rw [show (s.lane cfg k).stage = _ from congrArg Prod.snd (Demux.serving_some hentry)] at ha
      cases hpc : (s.workers id).pc with
      | committing w =>
        rw [hpc] at ha
        have hw : a = ident w := List.mem_singleton.mp ha
        refine ⟨?_, id, hat.made, w, hpc, hw.symm⟩
        rw [hw]
        exact ht.busy w (by rw [hpc]; rfl)
      | cold | hot | emptied | releasing | returning | exited | received | cleared | processing
      | deadLettering | triggering =>
        rw [hpc] at ha
        exact absurd ha List.not_mem_nil
  · intro ha
    obtain ⟨hk, id, hid, w, hpc, rfl⟩ := ha
    have hstage := layout.stage_of_item hid (w := w) (by rw [hpc]; rfl)
    rw [← hk, show (ident w).key = w.message.key from rfl, hstage, hpc]
    exact List.mem_singleton.mpr rfl

end Layout

theorem InOrder.of_lane (layout : Layout cfg s) (inv : (s.lane cfg k).Inv) : InOrder s k where
  exclusive id id' w w' hid hid' hpc hk hpc' hk' := by
    have hentry := layout.entry_of_item hid (w := w) (by rw [hpc]; rfl)
    have hentry' := layout.entry_of_item hid' (w := w') (by rw [hpc']; rfl)
    rw [hk] at hentry
    rw [hk'] at hentry'
    exact Option.some.inj (hentry.symm.trans hentry')
  invoked_prefix := inv.started_prefix
  handled := by
    refine ⟨(s.lane cfg k).stage.runningItems, inv.handled, ?_⟩
    cases (s.lane cfg k).stage <;> simp [Stage.runningItems]
  collected := by
    refine ⟨(s.lane cfg k).stage.leaving, inv.passed, ?_, fun a => layout.mem_leaving⟩
    cases (s.lane cfg k).stage with
    | ending a good => cases good <;> simp [Stage.leaving]
    | idle | taken | accepted | running => simp [Stage.leaving]
  once hnodup := by
    have hstarted : (s.lane cfg k).started.Nodup :=
      inv.started_prefix.sublist.nodup (hnodup.filter _)
    refine ⟨hstarted, ?_⟩
    have hfinished : ((s.lane cfg k).finished.map Prod.fst).Nodup :=
      (inv.handled ▸ hstarted : _).sublist (List.sublist_append_left _ _)
    have hpassed : (((s.lane cfg k).finished.filter Prod.snd).map Prod.fst).Nodup :=
      hfinished.sublist (List.filter_sublist.map _)
    exact (inv.passed ▸ hpassed).sublist (List.sublist_append_left _ _)

/-- Per-key order and mutual exclusion, in every reachable state and for every key. -/
theorem Demux.key_in_order (h : (demuxSystem T cfg c).Reachable s) (k : String) : InOrder s k :=
  .of_lane (Placed.of_reachable h).layout (Demux.lane_inv h k)

/-- A run of the direct caller: the first item of a key is being processed, and the second
has been sent to the same worker's channel. -/
theorem Demux.key_in_order_sample : ∃ s : Demux Unit,
    (demuxSystem Unit .small .direct).Reachable s ∧
    s.log.dispatched = [ident (itemA 0), ident (itemA 1)] ∧
    s.log.invoked = [ident (itemA 0)] ∧ InOrder s "a" := by
  have h0 : (demuxSystem Unit .small .direct).Reachable Demux.initial := .init rfl
  have hturn := h0.step (.pool (.turn _ 0 [] rfl rfl))
  have hready := hturn.step (.pool (.ready _ 0 rfl))
  have hcall := hready.step (.dispatch (.call _ (itemA 0) rfl (Demux.ready_small rfl) rfl))
  have hmissing := hcall.step (.dispatch (.missing _ _ rfl rfl))
  have hborrow := hmissing.step (.dispatch (.borrow _ _ rfl))
  have hinsert := hborrow.step (.dispatch (.insert _ _ _ rfl))
  have hhand := hinsert.step (.dispatch (.hand _ _ _ rfl (by decide)))
  have hreceive := hhand.step (.work (.work _ 0 _ _ (by decide) (.receive _ _ _ rfl rfl)))
  have hclear := hreceive.step (.work (.work _ 0 _ _ (by decide) (.clear _ _ rfl rfl)))
  have hinvoke := hclear.step (.work (.work _ 0 _ _ (by decide) (.invoke _ _ rfl)))
  have hcall' := hinvoke.step (.dispatch (.call _ (itemA 1) rfl (Demux.ready_small rfl) rfl))
  have hpipeline := hcall'.step (.dispatch (.pipeline _ _ 0 rfl rfl (by decide)))
  exact ⟨_, hpipeline, rfl, rfl, Demux.key_in_order hpipeline "a"⟩

end LlingrDemux.Pipeline
