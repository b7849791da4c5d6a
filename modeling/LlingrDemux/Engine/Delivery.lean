import LlingrDemux.Engine.Engine
import LlingrDemux.Pipeline.Tripped
import LlingrDemux.Shared.Subsequence

/-!
# What the engine delivers

End to end, from the poll of a record to the broker's committed position: what lies below the
position was processed, each key's records are processed in the order of their offsets, and a
drained engine commits everything it fetched.
-/

namespace LlingrDemux

open Shared Pipeline Offset
set_option autoImplicit false

variable {T : Type}

/-- `ProcessMessage` was called once on the item, and it or else `WriteDeadLetter` returned
without an error. -/
structure Pipeline.Handled (s : Demux T) (a : Ident) : Prop where
  once : s.log.invoked.count a = 1
  success : (a, true) ∈ s.log.outcomes

namespace Engine

section
variable {slices : SortFunc (WorkItem T)} {p : Int} {cfg : Config} {commitIngestChannelLen : Nat}
  {e : Engine T}

theorem Inv.inOrder (h : Inv slices p cfg e) (k : String) : InOrder e.demux k :=
  .of_lane (Placed.of_reachable h.demux).layout (Demux.lane_inv h.demux k)

/-- An item that was given to `CollectAndCommit` is handled. -/
theorem Inv.handled_of_collected (h : Inv slices p cfg e) {w : WorkItem T}
    (hw : w ∈ e.demux.log.collected) : Handled e.demux (ident w) := by
  have horder := h.inOrder w.message.key
  obtain ⟨passing, hpassing, _⟩ := horder.collected
  obtain ⟨handling, hhandling, _⟩ := horder.handled
  have hcollected : ident w ∈ onKey w.message.key (e.demux.log.collected.map ident) :=
    List.mem_filter.mpr ⟨List.mem_map_of_mem hw, decide_eq_true rfl⟩
  have hmem := hpassing ▸ List.mem_append_left passing hcollected
  obtain ⟨⟨a, good⟩, ha, rfl⟩ := List.mem_map.mp hmem
  obtain ⟨ha, rfl : good = true⟩ := List.mem_filter.mp ha
  have hinvoked : ident w ∈ onKey w.message.key e.demux.log.invoked :=
    hhandling ▸ List.mem_append_left handling (List.mem_map_of_mem (f := Prod.fst) ha)
  refine ⟨?_, (List.mem_filter.mp ha).1⟩
  rw [← List.count_filter (p := fun a => a.key = w.message.key) (decide_eq_true rfl)]
  exact List.count_eq_one_of_mem (horder.once h.dispatched_nodup).1 hinvoked

/-- What was completed was handled. -/
theorem Inv.handled_of_completed (h : Inv slices p cfg e) {f : Fetched T}
    (hf : f ∈ e.world.completed) : Handled e.demux (ident f.item) := by
  apply h.handled_of_collected
  have hitem : f.item ∈ e.world.completed.map Fetched.item := List.mem_map_of_mem hf
  rw [h.completed] at hitem
  rw [h.channel]
  exact List.mem_append_left _ (List.mem_filter.mp hitem).1

end

/-- At least once: a record below the committed position, in the log or fetched in the current
epoch, has been fetched and handled to the end, unless another owner committed past it. -/
theorem committed_handled (slices : SortFunc (WorkItem T)) (p : Int) (cfg : Config)
    (commitIngestChannelLen : Nat) (e : Engine T)
    (h : (engineSystem slices p cfg commitIngestChannelLen).Reachable e) (x : Int)
    (live : e.world.Live x) (below : x < e.world.committed) :
    (∃ f ∈ e.world.history, f.offset = x ∧ Handled e.demux (ident f.item)) ∨
      x < e.world.otherCommitted := by
  have hinv := inv_of_reachable h
  rcases (World.ledger_inv hinv.world).safe x live below with ⟨f, hf, hoffset⟩ | hother
  · left
    exact ⟨f, World.completed_fetched hinv.world f hf, hoffset, hinv.handled_of_completed hf⟩
  · exact .inr hother

theorem committed_handled_sample : ∃ e : Engine Unit,
    (engineSystem (SortFunc.insertion (WorkItem Unit)) 0 .small 1).Reachable e ∧
      e.world.committed = 1 ∧ e.world.otherCommitted = 0 ∧
      ∃ f ∈ e.world.history, f.offset = 0 ∧ Handled e.demux (ident f.item) := by
  have h := sampleIngested_reachable.step (.broker _ _
    (.tick sampleCompleted World.sampleTick sampleCompleted_iterates sampleCompleted_iterates) rfl
    (.inr id))
  refine ⟨_, h, by decide, rfl, ?_⟩
  have hlive : (sampleCompleted.tick (SortFunc.insertion _) 0 World.sampleTick).Live 0 :=
    .inl (by decide)
  rcases committed_handled _ 0 .small 1 _ h 0 hlive (by decide) with hf | hother
  · exact hf
  · exact absurd hother (by decide)

/-- Records fetched in one epoch, in the order of their offsets. -/
def Ahead (e : Engine T) (a b : Ident) : Prop :=
  ∀ f ∈ e.world.history, ∀ g ∈ e.world.history, ident f.item = a → ident g.item = b →
    f.epoch = g.epoch → f.offset < g.offset

section
variable {slices : SortFunc (WorkItem T)} {p : Int} {cfg : Config} {e : Engine T}

/-- What holds of the fetched records in their order holds of the polls in theirs. -/
theorem Inv.polled_pairwise (h : Inv slices p cfg e) {R : Fetched T → Fetched T → Prop}
    (fetched : e.world.history.Pairwise R) :
    e.polled.Pairwise fun a b => ∀ f ∈ e.world.history, ∀ g ∈ e.world.history,
      ident f.item = a → ident g.item = b → R f g := by
  have hunique : ∀ f ∈ e.world.history, ∀ g ∈ e.world.history, ident f.item = ident g.item → f = g :=
    fun f hf g hg he => h.eq_of_ptr hf hg (congrArg Ident.ptr he)
  have hfetched : (e.world.history.map fun f => ident f.item).Pairwise fun a b =>
      ∀ f ∈ e.world.history, ∀ g ∈ e.world.history, ident f.item = a → ident g.item = b → R f g := by
    refine List.pairwise_map.mpr (fetched.imp_of_mem ?_)
    intro f g hf hg hR f' hf' g' hg' hf'' hg''
    rw [hunique f' hf' f hf hf'', hunique g' hg' g hg hg'']
    exact hR
  apply (pairwise_of_sublist h.fetched h.pointers.of_map hfetched).imp
  intro a b hab f hf g hg hfa hgb
  refine hab ?_ ?_ f hf g hg hfa hgb
  · exact hfa ▸ List.mem_map_of_mem (f := fun f => ident f.item) hf
  · exact hgb ▸ List.mem_map_of_mem (f := fun f => ident f.item) hg

/-- So it does of each key's dispatches. -/
theorem Inv.dispatched_pairwise (h : Inv slices p cfg e) {R : Fetched T → Fetched T → Prop}
    (fetched : e.world.history.Pairwise R) (k : String) :
    (onKey k e.demux.log.dispatched).Pairwise fun a b => ∀ f ∈ e.world.history,
      ∀ g ∈ e.world.history, ident f.item = a → ident g.item = b → R f g :=
  (((h.polled_pairwise fetched).sublist h.dispatched).sublist (List.sublist_append_left _ _)).filter _

end

/-- The records of one key that an ownership epoch fetched are processed in the order of their
offsets, and none of them that was dispatched is overtaken by a later one. -/
theorem key_offset_order (slices : SortFunc (WorkItem T)) (p : Int) (cfg : Config)
    (commitIngestChannelLen : Nat) (e : Engine T)
    (h : (engineSystem slices p cfg commitIngestChannelLen).Reachable e) (k : String) :
    (onKey k e.demux.log.invoked).Pairwise e.Ahead ∧
      ∀ f ∈ e.world.history, ∀ g ∈ e.world.history, f.epoch = g.epoch → f.offset < g.offset →
        f.item.message.key = k → ident f.item ∈ e.demux.log.dispatched →
        ident g.item ∈ onKey k e.demux.log.invoked → ident f.item ∈ e.demux.log.invoked := by
  have hinv := inv_of_reachable h
  have hdispatched : (onKey k e.demux.log.dispatched).Pairwise e.Ahead :=
    hinv.dispatched_pairwise (World.fetched_increasing hinv.world) k
  have hinitial := InOrder.invoked_prefix (hinv.inOrder k)
  refine ⟨hdispatched.sublist hinitial.sublist, ?_⟩
  intro f hf g hg hepoch hlt hkey hsent hinvoked
  have hfirst : ident f.item ∈ onKey k e.demux.log.dispatched :=
    List.mem_filter.mpr ⟨hsent, decide_eq_true hkey⟩
  have hnot : ¬ e.Ahead (ident g.item) (ident f.item) := by
    intro hahead
    have hgt := hahead g hg f hf rfl rfl hepoch.symm
    omega
  exact (List.mem_filter.mp (mem_of_initial hinitial hdispatched hfirst hinvoked hnot)).1

theorem key_offset_order_sample : ∃ e : Engine Unit,
    (engineSystem (SortFunc.insertion (WorkItem Unit)) 0 .small 1).Reachable e ∧
      onKey "a" e.demux.log.invoked = [ident sampleItem, ident sampleSecond] ∧
      (onKey "a" e.demux.log.invoked).Pairwise e.Ahead :=
  ⟨_, sampleSecond_reachable, by decide,
    (key_offset_order _ 0 .small 1 _ sampleSecond_reachable "a").1⟩

section
variable {slices : SortFunc (WorkItem T)} {p : Int} {cfg : Config} {e : Engine T}

/-- With no worker in a map and a breaker that has not tripped, every dispatched item has been
given to `CollectAndCommit`. -/
theorem Inv.collected_of_drained (h : Inv slices p cfg e) (free : e.demux.dispatcher.Free)
    (maps : ∀ i < cfg.workerShardsCount, ∀ k, (e.demux.shards i).workers k = none)
    (healthy : e.demux.tripped = false) {a : Ident} (ha : a ∈ e.demux.log.dispatched) :
    a ∈ e.demux.log.collected.map ident := by
  have hdrained := Drained.of_maps h.demux free maps
  have hlive : ¬ e.demux.tripped = true := by simp [healthy]
  rcases List.mem_append.mp (hdrained.settled.mem_iff.mp ha) with ha | ha
  · rcases List.mem_append.mp ha with ha | ha
    · exact ha
    · exact absurd (hdrained.failed (List.ne_nil_of_mem ha)) hlive
  · exact absurd (Demux.done_tripped h.demux _ (hdrained.skipped a ha)) hlive

/-- With nothing in line to `processCommit` what was collected of the partition has been
completed. -/
theorem Inv.completed_of_collected (h : Inv slices p cfg e) (empty : e.line = []) {f : Fetched T}
    (hf : f ∈ e.world.history)
    (collected : ident f.item ∈ e.demux.log.collected.map ident) : f ∈ e.world.completed := by
  obtain ⟨w, hw, hident⟩ := List.mem_map.mp collected
  have hptr : w.ptr = f.item.ptr := congrArg Ident.ptr hident
  have htraced := h.carried w (.collected hw)
  rw [h.channel, empty, List.append_nil] at hw
  by_cases hp : w.partition = p
  · have hitem : w ∈ e.world.completed.map Fetched.item := by
      rw [h.completed]
      exact List.mem_filter.mpr ⟨hw, decide_eq_true hp⟩
    obtain ⟨g, hg, rfl⟩ := List.mem_map.mp hitem
    exact h.eq_of_ptr (World.completed_fetched h.world g hg) hf hptr ▸ hg
  · exact absurd hptr.symm (htraced.other hp f hf)

end

/-- A clean hand-over. The workers are drained, the breaker has not tripped, the ingest channel is
empty, the ingest goroutine has no item in hand and no call of `Process` of the epoch timed out:
then every record the epoch fetched has been completed, and as many successful ticks as the
tracker has a backlog commit all of them. -/
theorem drained_engine_commits (slices : SortFunc (WorkItem T)) (p : Int) (cfg : Config)
    (commitIngestChannelLen : Nat) (e : Engine T)
    (h : (engineSystem slices p cfg commitIngestChannelLen).Reachable e)
    (free : e.demux.dispatcher.Free)
    (maps : ∀ i < cfg.workerShardsCount, ∀ k, (e.demux.shards i).workers k = none)
    (healthy : e.demux.tripped = false) (empty : e.commitsIn = []) (hand : e.ingest.inHand = [])
    (sent : ∀ f ∈ e.world.history, f.epoch = e.world.epoch →
      ident f.item ∈ e.demux.log.dispatched)
    (owned : e.world.phase = .assigned) (times : e.world.ReadTimesIncrease) :
    (∀ f ∈ e.world.history, f.epoch = e.world.epoch → f ∈ e.world.completed) ∧
      ∀ n w, e.world.backlog p ≤ n → Steps (World.Commits slices p) n e.world w → w.CaughtUp := by
  have hinv := inv_of_reachable h
  have hdone : ∀ f ∈ e.world.history, f.epoch = e.world.epoch → f ∈ e.world.completed := by
    intro f hf hepoch
    have hline : e.line = [] := by rw [line, hand, empty, List.append_nil]
    apply hinv.completed_of_collected hline hf
    exact hinv.collected_of_drained free maps healthy (sent f hf hepoch)
  refine ⟨hdone, fun n w hn hticks => ?_⟩
  exact World.shared_commits_reach hinv.world times owned hdone hn hticks

theorem drained_engine_commits_sample : ∃ w : World Unit,
    Steps (World.Commits (SortFunc.insertion _) 0) 1 sampleCompleted w ∧ w.CaughtUp ∧
      w.committed = 1 := by
  have hticks : Steps (World.Commits (SortFunc.insertion _) 0) 1 sampleCompleted
      (sampleCompleted.tick (SortFunc.insertion _) 0 World.sampleTick) :=
    .head sampleCompleted_commits (.refl _)
  refine ⟨_, hticks, ?_, by decide⟩
  exact (drained_engine_commits (SortFunc.insertion _) 0 .small 1 _ sampleRetired_reachable trivial
    sampleRetired_maps rfl rfl rfl (by decide) rfl
    (by unfold Ledger.ReadTimesIncrease; decide)).2 1 _ (by decide) hticks

end Engine

end LlingrDemux
