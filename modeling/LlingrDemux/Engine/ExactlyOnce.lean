import LlingrDemux.Engine.Delivery
import LlingrDemux.Offset.Handover

/-!
# Exactly once in a healthy system

The engine with every ownership epoch ending in a hand-over: the workers are drained, the ingest
channel is empty and its goroutine idle, the breaker has not tripped, and the final
`CommitOffsets` returns `nil` before `MarkPartitionRevoked`. All else is as in any run of the
engine: rejected ticks, completions in any order, other partitions and other owners. Then no record
of the partition is processed twice, over all its epochs together.
-/

namespace LlingrDemux

open Shared Pipeline Offset
set_option autoImplicit false

variable {T : Type}

namespace Engine

/-- What the drain of a revocation leaves behind when nothing fails. -/
structure Quiet (cfg : Config) (e : Engine T) : Prop where
  free : e.demux.dispatcher.Free
  maps : ∀ i < cfg.workerShardsCount, ∀ k, (e.demux.shards i).workers k = none
  healthy : e.demux.tripped = false
  empty : e.commitsIn = []
  idle : e.ingest = .idle
  sent : ∀ f ∈ e.world.history, f.epoch = e.world.epoch → ident f.item ∈ e.demux.log.dispatched

inductive HealthyStep (slices : SortFunc (WorkItem T)) (p : Int) (cfg : Config)
    (commitIngestChannelLen : Nat) : Engine T → Engine T → Prop where
  | engine {e e' : Engine T} (step : Step slices p cfg commitIngestChannelLen e e')
      (kept : e.world.phase = .assigned → e'.world.phase = .assigned) :
      HealthyStep slices p cfg commitIngestChannelLen e e'
  | handover {e : Engine T} {v : World T} (owned : e.world.phase = .assigned) (quiet : e.Quiet cfg)
      (final : World.Commits slices p e.world v) :
      HealthyStep slices p cfg commitIngestChannelLen e { e with world := v.markRevoked p }

end Engine

def healthyEngineSystem (slices : SortFunc (WorkItem T)) (p : Int) (cfg : Config)
    (commitIngestChannelLen : Nat) : System (Engine T) where
  init e := e = {}
  step := Engine.HealthyStep slices p cfg commitIngestChannelLen

namespace Engine

section
variable {slices : SortFunc (WorkItem T)} {p : Int} {cfg : Config} {commitIngestChannelLen : Nat}
  {e e' : Engine T}

theorem engine_of_healthy
    (h : (healthyEngineSystem slices p cfg commitIngestChannelLen).Reachable e) :
    (engineSystem slices p cfg commitIngestChannelLen).Reachable e := by
  refine System.invariant (M := healthyEngineSystem slices p cfg commitIngestChannelLen)
    (P := (engineSystem slices p cfg commitIngestChannelLen).Reachable) (fun _ he => .init he) ?_ e h
  intro e e' _ he hstep
  cases hstep with
  | engine step kept => exact he.step step
  | handover owned quiet final =>
    obtain ⟨k, flushes, commits, _, rfl⟩ := final
    have hfree : ¬ e.ingest.InLock := by
      rw [quiet.idle]
      exact id
    have htick := he.step (.broker e _ (.tick e.world k flushes commits) rfl (.inr hfree))
    exact htick.step (.broker _ _ (.markRevoked (e.world.tick slices p k) owned) rfl (.inr hfree))

/-- The partition of a healthy engine is handed over at the end of each epoch. -/
theorem Inv.healthy_step (h : Inv slices p cfg e) (hw : (healthySystem slices p).Reachable e.world)
    (step : Step slices p cfg commitIngestChannelLen e e')
    (kept : e.world.phase = .assigned → e'.world.phase = .assigned) :
    (healthySystem slices p).Reachable e'.world := by
  have hclean := (h.step step).clean
  cases step with
  | poll item prev enters owned next partition stamped =>
    exact hw.step (.shared (h.fetch_step enters owned next partition stamped) kept hclean)
  | pollOther item enters partition => exact hw
  | pipeline s step inside room => exact hw
  | ingest a pc queue v move effect =>
    cases effect with
    | silent => exact hw
    | own w now partition known =>
      have hline := line_of_move move
      obtain ⟨hwritable, hlabel, f, hf, hptr⟩ := h.writable_head hline partition
      have hmem := (World.flying_sublist h.world).subset hf
      have hw' := World.healthy_write hw hwritable
        (clean_of_label (hlabel f hmem hptr) (h.clean f hmem))
      exact hw'.step (.shared (h.arrive_step now hline partition known) kept hclean)
    | other w now partition =>
      exact hw.step (.shared (.other e.world (.processCommit w now) trivial partition) kept hclean)
    | flush order now iterates =>
      exact hw.step (.shared (.own (.flush e.world order now iterates)) kept hclean)
    | offer => exact hw
  | broker v step flying free => exact hw.step (.shared (.own step) kept hclean)
  | rebalanceOther call legal away none free =>
    exact hw.step (.shared (.other e.world call legal away) kept hclean)

/-- With everything collected and nothing on its way to `processCommit`, nothing is in flight. -/
theorem Inv.drained_of_quiet (h : Inv slices p cfg e)
    (hw : (healthySystem slices p).Reachable e.world) (quiet : e.Quiet cfg) :
    e.world.inFlight = [] := by
  have hhealthy := World.healthy_of_reachable hw
  have hnodup : (e.world.inFlight ++ e.world.completed).Nodup := by
    apply (World.flying_completed_perm h.world).nodup_iff.mpr
    exact hhealthy.offsets_nodup.of_map
  apply List.eq_nil_iff_forall_not_mem.mpr
  intro f hf
  have hmem := (World.flying_sublist h.world).subset hf
  have hcollected := h.collected_of_drained quiet.free quiet.maps quiet.healthy
    (quiet.sent f hmem (hhealthy.flying f hf))
  have hline : e.line = [] := by
    rw [line, quiet.idle, quiet.empty]
    rfl
  have hdone := h.completed_of_collected hline hmem hcollected
  exact (List.nodup_append.mp hnodup).2.2 f hf f hdone rfl

theorem healthy_world
    (h : (healthyEngineSystem slices p cfg commitIngestChannelLen).Reachable e) :
    (healthySystem slices p).Reachable e.world := by
  refine System.invariant (M := healthyEngineSystem slices p cfg commitIngestChannelLen)
    (P := fun e => (healthySystem slices p).Reachable e.world) ?_ ?_ e h
  · rintro e rfl
    exact .init rfl
  · intro e e' hreach hw hstep
    have hinv := inv_of_reachable (engine_of_healthy hreach)
    cases hstep with
    | engine step kept => exact hinv.healthy_step hw step kept
    | handover owned quiet final =>
      exact hw.step (.handover owned (hinv.drained_of_quiet hw quiet) final)

/-- The calls of `ProcessMessage` on records of the partition with the offset. -/
def calls (e : Engine T) (x : Int) : Nat :=
  ((e.world.history.filter fun f => f.offset = x).map fun f =>
    e.demux.log.invoked.count (ident f.item)).sum

theorem Inv.invoked_le_one (h : Inv slices p cfg e) (a : Ident) : e.demux.log.invoked.count a ≤ 1 := by
  rw [← List.count_filter (p := fun b => b.key = a.key) (decide_eq_true rfl)]
  exact List.nodup_iff_count_le_one.mp ((h.inOrder a.key).once h.dispatched_nodup).1 a

/-- With every offset fetched once, the calls are those on the one work item, if there is one. -/
theorem calls_cases (increasing : e.world.history.Pairwise fun f g => f.offset < g.offset) (x : Int) :
    ((∀ f ∈ e.world.history, f.offset ≠ x) ∧ e.calls x = 0) ∨
      ∃ f ∈ e.world.history, f.offset = x ∧ e.calls x = e.demux.log.invoked.count (ident f.item) := by
  have hfilter := increasing.filter fun f => f.offset = x
  have hmem : ∀ f, f ∈ (e.world.history.filter fun f => f.offset = x) ↔
      f ∈ e.world.history ∧ f.offset = x := fun f => by rw [List.mem_filter, decide_eq_true_iff]
  unfold calls
  generalize e.world.history.filter (fun f => f.offset = x) = l at hfilter hmem ⊢
  match l with
  | [] => exact .inl ⟨fun f hf hx => absurd ((hmem f).mpr ⟨hf, hx⟩) List.not_mem_nil, rfl⟩
  | [f] =>
    obtain ⟨hf, hx⟩ := (hmem f).mp List.mem_cons_self
    exact .inr ⟨f, hf, hx, List.sum_singleton⟩
  | f :: g :: l =>
    have hlt := (List.pairwise_cons.mp hfilter).1 g List.mem_cons_self
    have hfx := ((hmem f).mp List.mem_cons_self).2
    have hgx := ((hmem g).mp (List.mem_cons_of_mem f List.mem_cons_self)).2
    omega

end

/-- Exactly once: over all epochs of a healthy engine, `ProcessMessage` is called at most once for
an offset of the partition; exactly once and with success, or else one of `WriteDeadLetter`, for a
record below the committed position, unless another owner committed past it; on each key in the
order of the offsets; and at the end of an epoch every record it fetched lies below the position,
so that the next owner starts behind it. -/
theorem exactly_once (slices : SortFunc (WorkItem T)) (p : Int) (cfg : Config)
    (commitIngestChannelLen : Nat) (e : Engine T)
    (h : (healthyEngineSystem slices p cfg commitIngestChannelLen).Reachable e) :
    (∀ x, e.calls x ≤ 1) ∧
    (∀ x, e.world.Live x → x < e.world.committed →
      (e.calls x = 1 ∧ ∃ f ∈ e.world.history, f.offset = x ∧ Handled e.demux (ident f.item)) ∨
        x < e.world.otherCommitted) ∧
    (∀ k, (onKey k e.demux.log.invoked).Pairwise fun a b => ∀ f ∈ e.world.history,
      ∀ g ∈ e.world.history, ident f.item = a → ident g.item = b → f.offset < g.offset) ∧
    (e.world.phase = .closed → ∀ f ∈ e.world.history,
      f.offset < e.world.committed ∧ Handled e.demux (ident f.item)) := by
  have hinv := inv_of_reachable (engine_of_healthy h)
  have hhealthy := World.healthy_of_reachable (healthy_world h)
  have hcases := calls_cases hhealthy.increasing
  refine ⟨fun x => ?_, fun x live below => ?_, fun k => ?_, fun hclosed f hf => ?_⟩
  · rcases hcases x with ⟨_, hzero⟩ | ⟨f, _, _, hcalls⟩
    · omega
    · rw [hcalls]
      exact hinv.invoked_le_one (ident f.item)
  · rcases (World.ledger_inv hinv.world).safe x live below with ⟨f, hf, hoffset⟩ | hother
    · left
      have hmem := World.completed_fetched hinv.world f hf
      have hhandled := hinv.handled_of_completed hf
      refine ⟨?_, f, hmem, hoffset, hhandled⟩
      rcases hcases x with ⟨hnone, _⟩ | ⟨g, hg, hgx, hcalls⟩
      · exact absurd hoffset (hnone f hmem)
      · have hsame : g = f :=
          List.inj_on_of_nodup_map hhealthy.offsets_nodup hg hmem (hgx.trans hoffset.symm)
        rw [hcalls, hsame]
        exact hhandled.once
    · exact .inr hother
  · have hinitial := InOrder.invoked_prefix (hinv.inOrder k)
    exact (hinv.dispatched_pairwise hhealthy.increasing k).sublist hinitial.sublist
  · obtain ⟨hnone, hbelow⟩ := hhealthy.closed hclosed
    refine ⟨hbelow f hf, hinv.handled_of_completed ?_⟩
    rcases World.fetched_flying_or_completed hinv.world f hf with hfly | hdone
    · exact absurd (hnone ▸ hfly : f ∈ []) List.not_mem_nil
    · exact hdone

/-- What a step of the engine does to the epochs. -/
theorem Step.turn {slices : SortFunc (WorkItem T)} {p : Int} {cfg : Config}
    {commitIngestChannelLen : Nat} {e e' : Engine T}
    (step : Step slices p cfg commitIngestChannelLen e e') : World.Turn e.world e'.world := by
  cases step with
  | broker v step flying free => exact (World.SharedStep.own step).turn
  | ingest a pc queue v move effect => cases effect <;> exact .stays rfl rfl
  | _ => exact .stays rfl rfl

/-- Before its first revocation the engine is healthy. -/
theorem healthy_of_first {slices : SortFunc (WorkItem T)} {p : Int} {cfg : Config}
    {commitIngestChannelLen : Nat} {e : Engine T}
    (h : (engineSystem slices p cfg commitIngestChannelLen).Reachable e) (first : e.world.First) :
    (healthyEngineSystem slices p cfg commitIngestChannelLen).Reachable e := by
  refine System.invariant (M := engineSystem slices p cfg commitIngestChannelLen) (P := fun e =>
    e.world.First → (healthyEngineSystem slices p cfg commitIngestChannelLen).Reachable e) ?_ ?_ e h
    first
  · rintro e rfl _
    exact .init rfl
  · intro e e' hreach he hstep hfirst
    have hpositive := World.epoch_pos (inv_of_reachable hreach).world
    obtain ⟨hfirst, hkept⟩ := hstep.turn.first hpositive hfirst
    exact (he hfirst).step (.engine hstep hkept)

/-- The one record of the first epoch, handed over. -/
theorem exactly_once_sample : ∃ e : Engine Unit,
    (healthyEngineSystem (SortFunc.insertion (WorkItem Unit)) 0 .small 1).Reachable e ∧
      e.world.phase = .closed ∧ e.world.committed = 1 ∧ e.calls 0 = 1 := by
  have hretired := healthy_of_first sampleRetired_reachable (.inr ⟨by decide, rfl⟩)
  have hquiet : Quiet .small (⟨(demuxA .emptied sampleHandled).retire 0, [], sampleCompleted,
      [ident sampleItem], [sampleDone], .idle⟩ : Engine Unit) :=
    ⟨trivial, sampleRetired_maps, rfl, rfl, rfl, by decide⟩
  have hreach := hretired.step (.handover rfl hquiet sampleCompleted_commits)
  refine ⟨_, hreach, rfl, by decide, ?_⟩
  rcases (exactly_once _ 0 .small 1 _ hreach).2.1 0 (.inl (by decide)) (by decide) with hcalls | hother
  · exact hcalls.1
  · exact absurd hother (by decide)

end Engine

end LlingrDemux
