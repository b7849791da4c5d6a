import LlingrDemux.Offset.Drain
import LlingrDemux.Offset.Preserved

/-!
# What a drain leaves behind

The items of a run stand in one line: those that went through `processCommit`, the one in
the ingest goroutine's hand, those in the channel. A drain that returns without an error
has committed behind the last of them if it neither clears the token too early nor passes
its barrier before the ingest goroutine has taken the mutex. Where it does either, it may
return while an item is still on its way.
-/

namespace LlingrDemux.Offset

open Shared
set_option autoImplicit false

variable {T : Type}

/-- The drain has not begun to wait, has given up or has returned an error. -/
def DrainPc.Neutral : DrainPc → Prop
  | idle | clearing | late | lateGuarded | returned (some _) => True
  | cleared | grace | barrier | waiting | final | finalGuarded | returned none => False

theorem IngestPc.inHand_of_free {pc : IngestPc T} (hlock : ¬ pc.InLock) (hhold : ¬ pc.Holding) :
    pc.inHand = [] := by
  cases pc with
  | idle => rfl
  | received w => exact absurd trivial hhold
  | ready w => exact absurd trivial hhold
  | locked w => exact absurd trivial hlock
  | batch messageCount => rfl
  | flushing => rfl
  | testing => rfl
  | offering => rfl
  | unlocking => rfl

namespace IngestMove
variable {pc pc' : IngestPc T} {queue queue' : List (WorkItem T)} {a : IngestAction T}

/-- The items keep their order: what goes through `processCommit` is the first in line. -/
theorem line (h : IngestMove pc queue a pc' queue') :
    pc.inHand ++ queue = a.processed ++ (pc'.inHand ++ queue') := by
  cases h <;> rfl

theorem queue_nil (h : IngestMove pc queue a pc' queue') (empty : queue = []) : queue' = [] := by
  cases h with
  | receive w rest => cases empty
  | next w rest messageCount now more => cases empty
  | testMore w rest => cases empty
  | _ => exact empty

/-- The token is offered after a test that found the channel empty. -/
theorem of_offering (h : IngestMove pc queue a .offering queue') :
    a.processed = [] ∧ queue' = [] := by
  cases h
  exact ⟨rfl, rfl⟩

theorem of_offer (h : IngestMove pc queue .offer pc' queue') : pc = .offering := by
  cases h
  rfl

end IngestMove

namespace Handshake

/-- Nothing is on its way to `processCommit`. -/
def Settled (s : Handshake T) : Prop := s.processed = s.enqueued

structure Inv (s : Handshake T) : Prop where
  line : s.enqueued = s.processed ++ s.ingest.inHand ++ s.commitsIn
  token : s.drain.Awaiting → s.drained = true ∨ s.ingest = .offering → s.Settled
  empty : s.drain = .grace ∨ s.drain = .barrier → s.commitsIn = []
  settled : s.drain = .final ∨ s.drain = .finalGuarded → s.Settled
  covered : s.drain = .returned none → s.covered = s.enqueued

section Line
variable {s s' : Handshake T}

theorem settled_of_line (h : s.enqueued = s.processed ++ s.ingest.inHand ++ s.commitsIn)
    (hhand : s.ingest.inHand = []) (hqueue : s.commitsIn = []) : s.Settled := by
  rw [hhand, hqueue, List.append_nil, List.append_nil] at h
  exact h.symm

/-- Where everything is processed, processing more changes nothing. -/
theorem Settled.mono (hs : s.Settled) (he : s'.enqueued = s.enqueued)
    (hp : s.processed <+: s'.processed)
    (hline : s'.enqueued = s'.processed ++ s'.ingest.inHand ++ s'.commitsIn) : s'.Settled := by
  have hle : s'.processed <+: s'.enqueued := by
    rw [hline, List.append_assoc]
    exact List.prefix_append _ _
  rw [Settled] at hs
  rw [hs, ← he] at hp
  exact List.IsPrefix.eq_of_length_le hle hp.length_le

/-- A step of another party than the drain. -/
theorem Inv.other (h : s.Inv) (hd : s'.drain = s.drain) (he : s'.enqueued = s.enqueued)
    (hc : s'.covered = s.covered) (hp : s.processed <+: s'.processed)
    (hline : s'.enqueued = s'.processed ++ s'.ingest.inHand ++ s'.commitsIn)
    (hqueue : s.commitsIn = [] → s'.commitsIn = [])
    (htoken : s'.drained = true ∨ s'.ingest = .offering →
      (s.drained = true ∨ s.ingest = .offering) ∨ s'.Settled) : s'.Inv := by
  refine ⟨hline, ?_, ?_, ?_, ?_⟩
  · intro hwait htok
    rw [hd] at hwait
    rcases htoken htok with hold | hnew
    · exact (h.token hwait hold).mono he hp hline
    · exact hnew
  · intro hpc
    rw [hd] at hpc
    exact hqueue (h.empty hpc)
  · intro hpc
    rw [hd] at hpc
    exact (h.settled hpc).mono he hp hline
  · intro hpc
    rw [hd] at hpc
    rw [hc, he]
    exact h.covered hpc

end Line

theorem Inv.of_neutral {s : Handshake T}
    (hline : s.enqueued = s.processed ++ s.ingest.inHand ++ s.commitsIn)
    (hd : s.drain.Neutral) : s.Inv := by
  refine ⟨hline, ?_, ?_, ?_, ?_⟩
  · intro hwait
    cases hpc : s.drain <;> rw [hpc] at hd hwait <;> first | exact hd.elim | exact hwait.elim
  · rintro (hpc | hpc) <;> rw [hpc] at hd <;> exact hd.elim
  · rintro (hpc | hpc) <;> rw [hpc] at hd <;> exact hd.elim
  · intro hpc
    rw [hpc] at hd
    exact hd.elim

variable {slices : SortFunc (WorkItem T)} {s s' : Handshake T}

theorem perform_enqueued (a : IngestAction T) : (s.perform slices a).enqueued = s.enqueued := by
  cases a <;> rfl

theorem perform_covered (a : IngestAction T) : (s.perform slices a).covered = s.covered := by
  cases a <;> rfl

theorem perform_drain (a : IngestAction T) : (s.perform slices a).drain = s.drain := by
  cases a <;> rfl

theorem perform_processed (a : IngestAction T) :
    (s.perform slices a).processed = s.processed ++ a.processed := by
  cases a with
  | processCommit w now => rfl
  | _ => exact (List.append_nil _).symm

theorem perform_drained {a : IngestAction T} (h : (s.perform slices a).drained = true) :
    s.drained = true ∨ a = .offer := by
  cases a with
  | offer => exact .inr rfl
  | _ => exact .inl h

/-- What the ingest goroutine does keeps the line, and it tests the channel with nothing in
hand. -/
theorem Inv.ingested (h : s.Inv) {a : IngestAction T} {pc : IngestPc T}
    {queue : List (WorkItem T)} (move : IngestMove s.ingest s.commitsIn a pc queue) :
    (s.ingested slices a pc queue).Inv := by
  have hline : s.enqueued = s.processed ++ a.processed ++ pc.inHand ++ queue := by
    rw [h.line, List.append_assoc, move.line]
    simp only [List.append_assoc]
  refine h.other (perform_drain a) (perform_enqueued a) (perform_covered a) ?_ ?_ move.queue_nil ?_
  · rw [Handshake.ingested, perform_processed]
    exact List.prefix_append _ _
  · rw [Handshake.ingested, perform_processed, perform_enqueued]
    exact hline
  · rintro (htoken | hoffering)
    · refine .inl ((perform_drained htoken).imp_right ?_)
      rintro rfl
      exact move.of_offer
    · obtain rfl : pc = .offering := hoffering
      obtain ⟨hnone, hqueue⟩ := move.of_offering
      refine .inr ?_
      rw [hnone, hqueue] at hline
      rw [Settled, Handshake.ingested, perform_processed, perform_enqueued, hnone, hline]
      simp [IngestPc.inHand]

/-- Behind the commit guard the final commit surfaces no error. -/
theorem surfaceFinalCommit_commitOffsets (slices : SortFunc (WorkItem T)) {k : Tick} (fits : s.Fits k) :
    surfaceFinalCommit (s.committer.commitOffsets slices k).error = none := by
  rw [Committer.commitOffsets_eq _ _ fits.guardAcquired]
  split
  · rfl
  · split <;> rfl

theorem Inv.drainStep (h : s.Inv) (hstep : DrainStep slices s s') (ho : s.Orderly s') : s'.Inv := by
  have hline := h.line
  cases hstep with
  | call pc => exact .of_neutral hline trivial
  | clear pc =>
    refine ⟨hline, ?_, nofun, nofun, nofun⟩
    -- a token offered from here on stands on a test that comes after, or on an empty channel
    rintro - (htok | hoff)
    · cases htok
    · have hqueue : s.commitsIn = [] := by
        by_contra hne
        exact ho.clear pc rfl ⟨hoff, hne⟩
      exact settled_of_line hline (by rw [hoff]; rfl) hqueue
  | lenEmpty pc empty =>
    refine ⟨hline, ?_, fun _ => empty, nofun, nofun⟩
    intro _ htok
    exact h.token (by rw [pc]; trivial) htok
  | lenMore pc more =>
    refine ⟨hline, ?_, nofun, nofun, nofun⟩
    intro _ htok
    exact h.token (by rw [pc]; trivial) htok
  | token pc full =>
    refine ⟨hline, nofun, nofun, ?_, nofun⟩
    intro _
    refine h.token ?_ (.inl full)
    rcases pc with pc | pc <;> rw [pc] <;> trivial
  | graceExpires pc => exact ⟨hline, nofun, fun _ => h.empty (.inl pc), nofun, nofun⟩
  | barrier pc free =>
    refine ⟨hline, nofun, nofun, ?_, nofun⟩
    intro _
    have hhand := IngestPc.inHand_of_free free (ho.barrier pc rfl)
    exact settled_of_line hline hhand (h.empty (.inr pc))
  | timerExpires pc => exact .of_neutral hline trivial
  | acquire pc free => exact ⟨hline, nofun, nofun, fun _ => h.settled (.inl pc), nofun⟩
  | acquireExpires pc => exact .of_neutral hline trivial
  | finalCommit k pc free fits =>
    refine ⟨hline, nofun, nofun, nofun, ?_⟩
    intro _
    exact h.settled (.inr pc)
  | lateAcquire pc free => exact .of_neutral hline trivial
  | lateExpires pc => exact .of_neutral hline trivial
  | lateCommit k pc free fits => exact .of_neutral hline trivial
  | again error pc => exact .of_neutral hline trivial

theorem Inv.step {commitIngestChannelLen : Nat} (h : s.Inv)
    (hstep : Step slices commitIngestChannelLen s s') (ho : s.Orderly s') : s'.Inv := by
  cases hstep with
  | collectAndCommit w before room =>
    refine .of_neutral ?_ (by rw [collectAndCommit, before]; trivial)
    simp [collectAndCommit, h.line]
  | ingest a pc queue move fits => exact h.ingested move
  | drain hstep => exact h.drainStep hstep ho
  | tickerAcquire free =>
    exact h.other rfl rfl rfl List.prefix_rfl h.line id .inl
  | tickerCommit k holds free fits =>
    exact h.other rfl rfl rfl List.prefix_rfl h.line id .inl

theorem inv_of_reachable {commitIngestChannelLen : Nat}
    (h : (orderlySystem slices commitIngestChannelLen).Reachable s) : s.Inv := by
  refine System.invariant ?_ ?_ s h
  · rintro s ⟨c, rfl⟩
    exact .of_neutral rfl trivial
  · rintro s t _ hinv ⟨hstep, ho⟩
    exact hinv.step hstep ho

/-- A drain whose every step is orderly and that returns without an error made its final
commit after every item enqueued had been processed and flushed. -/
theorem drain_covers_enqueued (slices : SortFunc (WorkItem T)) (commitIngestChannelLen : Nat)
    (s : Handshake T) (h : (orderlySystem slices commitIngestChannelLen).Reachable s)
    (hnil : s.drain = .returned none) : s.covered = s.enqueued :=
  (inv_of_reachable h).covered hnil

/-- Record `n` of partition `0`. -/
def drainItem (n : Nat) : WorkItem Unit where
  ptr := n
  message := { partition := 0, offset := n }
  first := n == 0

def drainTick : Tick where
  flushOrder := [0]
  commitOrder := [0]

/-- The committer after a batch of the first record, before and after its flush. -/
def oneProcessed : Committer Unit := ({} : Committer Unit).processCommit (drainItem 0) 0

def oneFlushed : Committer Unit := oneProcessed.flushGapBuffers (SortFunc.insertion _) [0] 0

theorem oneProcessed_keyed : oneProcessed.Keyed := by
  apply Committer.Keyed.processCommit
  intro p t ht
  cases ht

theorem oneProcessed_iterates : oneProcessed.Iterates [0] := by
  apply Committer.iterates_singleton
  · decide
  · intro q hq
    exact Committer.processCommit_partitionMap_other _ _ _ hq

theorem oneFlushed_iterates : oneFlushed.Iterates [0] := by
  apply Committer.iterates_singleton
  · decide
  · intro q hq
    refine (Committer.preserves_flushGapBuffers _ oneProcessed_keyed oneProcessed_iterates 0).absent
      q ?_
    exact Committer.processCommit_partitionMap_other _ _ _ hq

theorem fits_drainTick {s : Handshake Unit} (h : s.committer = oneFlushed) : s.Fits drainTick := by
  refine ⟨rfl, ?_, ?_⟩
  · rw [h]
    exact oneFlushed_iterates
  · rw [h]
    exact oneFlushed_iterates

theorem orderly_of_ne {s s' : Handshake T} (hclear : s'.drain ≠ .cleared)
    (hbarrier : s.drain ≠ .barrier) : s.Orderly s' :=
  ⟨fun _ h => absurd h hclear, fun h => absurd h hbarrier⟩

/-- The ingest goroutine has processed the first record, tested the channel and not yet
offered the token. -/
def offeringFirst : Handshake Unit where
  committer := oneFlushed
  ingest := .offering
  enqueued := [drainItem 0]
  processed := [drainItem 0]
  flushed := [drainItem 0]

theorem offeringFirst_reachable :
    (orderlySystem (SortFunc.insertion (WorkItem Unit)) 1).Reachable offeringFirst := by
  have h0 : (orderlySystem (SortFunc.insertion (WorkItem Unit)) 1).Reachable {} := .init ⟨{}, rfl⟩
  have h1 := h0.step ⟨.collectAndCommit _ (drainItem 0) rfl Nat.zero_lt_one, orderly_of_ne nofun nofun⟩
  have h2 := h1.step ⟨.ingest _ _ _ _ (.receive (drainItem 0) []) trivial, orderly_of_ne nofun nofun⟩
  have h3 := h2.step ⟨.ingest _ _ _ _ (.tick _ _) trivial, orderly_of_ne nofun nofun⟩
  have h4 := h3.step ⟨.ingest _ _ _ _ (.lock _ _) trivial, orderly_of_ne nofun nofun⟩
  have h5 := h4.step ⟨.ingest _ _ _ _ (.first _ _ 0) trivial, orderly_of_ne nofun nofun⟩
  have h6 := h5.step ⟨.ingest _ _ _ _ (.endBatch _ _ (.inl rfl)) trivial, orderly_of_ne nofun nofun⟩
  have h7 := h6.step ⟨.ingest _ _ _ _ (.flush _ [0] 0) oneProcessed_iterates,
    orderly_of_ne nofun nofun⟩
  have h8 := h7.step ⟨.ingest _ _ _ _ .testEmpty trivial, orderly_of_ne nofun nofun⟩
  exact h8

/-- The drain clears the token before it is offered, finds the channel empty and takes the
token in its grace period. -/
theorem drain_covers_enqueued_sample :
    ∃ s : Handshake Unit, s.drain = .returned none ∧ s.enqueued = [drainItem 0] ∧
      s.covered = s.enqueued := by
  have h1 := offeringFirst_reachable.step ⟨.drain (.call _ rfl), orderly_of_ne nofun nofun⟩
  have h2 := h1.step ⟨.drain (.clear _ rfl), fun _ _ h => h.2 rfl, nofun⟩
  have h3 := h2.step ⟨.drain (.lenEmpty _ rfl rfl), orderly_of_ne nofun nofun⟩
  have h4 := h3.step ⟨.ingest _ _ _ _ (.offer _) trivial, orderly_of_ne nofun nofun⟩
  have h5 := h4.step ⟨.drain (.token _ (.inl rfl) rfl), orderly_of_ne nofun nofun⟩
  have h6 := h5.step ⟨.ingest _ _ _ _ (.unlock _) trivial, orderly_of_ne nofun nofun⟩
  have h7 := h6.step ⟨.drain (.acquire _ rfl rfl), orderly_of_ne nofun nofun⟩
  have h8 := h7.step ⟨.drain (.finalCommit _ drainTick rfl id (fits_drainTick rfl)),
    orderly_of_ne nofun nofun⟩
  have hnil := congrArg DrainPc.returned (surfaceFinalCommit_commitOffsets
    (SortFunc.insertion _) (fits_drainTick (s := offeringFirst) rfl))
  exact ⟨_, hnil, rfl, drain_covers_enqueued _ 1 _ h8 hnil⟩

theorem reachable_of_orderly {commitIngestChannelLen : Nat}
    (h : (orderlySystem slices commitIngestChannelLen).Reachable s) :
    (handshakeSystem slices commitIngestChannelLen).Reachable s := by
  refine System.invariant (fun s hs => .init hs) ?_ s h
  intro s t _ hs hstep
  exact hs.step hstep.1

/-- Two runs in which the drain returns without an error and an item was on its way when it
committed. In the first the grace period ends and the barrier is passed while the ingest
goroutine has received the only item and not taken the mutex. In the second the ingest
goroutine has found the channel empty, the second item is enqueued, the drain clears the
token, and then takes the one that is offered for the empty channel. -/
theorem drain_leaves_item_behind :
    (∃ s, (handshakeSystem (SortFunc.insertion (WorkItem Unit)) 1).Reachable s ∧
      s.drain = .returned none ∧ s.enqueued = [drainItem 0] ∧ s.covered = []) ∧
    ∃ s, (handshakeSystem (SortFunc.insertion (WorkItem Unit)) 1).Reachable s ∧
      s.drain = .returned none ∧ s.enqueued = [drainItem 0, drainItem 1] ∧
        s.covered = [drainItem 0] := by
  constructor
  · have h0 : (handshakeSystem (SortFunc.insertion (WorkItem Unit)) 1).Reachable {} :=
      .init ⟨{}, rfl⟩
    have h1 := h0.step (.collectAndCommit _ (drainItem 0) rfl Nat.zero_lt_one)
    have h2 := h1.step (.ingest _ _ _ _ (.receive (drainItem 0) []) trivial)
    have h3 := h2.step (.drain (.call _ rfl))
    have h4 := h3.step (.drain (.clear _ rfl))
    have h5 := h4.step (.drain (.lenEmpty _ rfl rfl))
    have h6 := h5.step (.drain (.graceExpires _ rfl))
    have h7 := h6.step (.drain (.barrier _ rfl id))
    have h8 := h7.step (.drain (.acquire _ rfl rfl))
    have hnone : ({} : Committer Unit).Iterates [] := ⟨List.nodup_nil, by simp⟩
    exact ⟨_, h8.step (.drain (.finalCommit _ ⟨true, [], [], 0, fun _ => 0, true⟩ rfl id
      ⟨rfl, hnone, hnone⟩)), rfl, rfl, rfl⟩
  · have h1 := (reachable_of_orderly offeringFirst_reachable).step
      (.collectAndCommit _ (drainItem 1) rfl Nat.zero_lt_one)
    have h2 := h1.step (.drain (.call _ rfl))
    have h3 := h2.step (.drain (.clear _ rfl))
    have h4 := h3.step (.ingest _ _ _ _ (.offer _) trivial)
    have h5 := h4.step (.ingest _ _ _ _ (.unlock _) trivial)
    have h6 := h5.step (.drain (.lenMore _ rfl nofun))
    have h7 := h6.step (.drain (.token _ (.inr rfl) rfl))
    have h8 := h7.step (.drain (.acquire _ rfl rfl))
    have hnil := congrArg DrainPc.returned (surfaceFinalCommit_commitOffsets
      (SortFunc.insertion _) (fits_drainTick (s := offeringFirst) rfl))
    exact ⟨_, h8.step (.drain (.finalCommit _ drainTick rfl id (fits_drainTick rfl))), hnil, rfl, rfl⟩

end Handshake

end LlingrDemux.Offset
