import LlingrDemux.Offset.EpochStream
import LlingrDemux.Offset.InFlight

/-!
# Hand-overs of a healthy partition

A partition is handed over when its work items are drained and the final `CommitOffsets` returns
`nil`. Where every epoch ends in this way, no completion is late for its epoch, so each epoch
works through a stream of its own: its one final commit covers everything it fetched, and the
next epoch starts right behind. Ticks in between may fail, and the committer may serve other
partitions.
-/

namespace LlingrDemux.Offset

open Shared Committer
set_option autoImplicit false

variable {T : Type} {slices : SortFunc (WorkItem T)} {p : Int}

namespace World

/-- One step. Fetched work items come from the pool and are not marked; an epoch ends in a
hand-over. -/
inductive HealthyStep (slices : SortFunc (WorkItem T)) (p : Int) : World T → World T → Prop where
  | shared {w w' : World T} (step : SharedStep slices p w w')
      (kept : w.phase = .assigned → w'.phase = .assigned)
      (clean : ∀ f ∈ w'.history, f.item.Clean) : HealthyStep slices p w w'
  | handover {w v : World T} (owned : w.phase = .assigned) (drained : w.inFlight = [])
      (final : Commits slices p w v) : HealthyStep slices p w (v.markRevoked p)

end World

/-- The step system of a partition that is always handed over. -/
def healthySystem (slices : SortFunc (WorkItem T)) (p : Int) : System (World T) where
  init w := w = {}
  step := World.HealthyStep slices p

namespace World
variable {w w' v : World T} {x : WorkItem T}

theorem shared_of_healthy (h : (healthySystem slices p).Reachable w) :
    (sharedSystem slices p).Reachable w := by
  refine System.invariant (M := healthySystem slices p) (P := (sharedSystem slices p).Reachable)
    (fun _ hw => .init hw) ?_ w h
  intro w w' _ hw hstep
  cases hstep with
  | shared step kept clean => exact hw.step step
  | handover owned drained final =>
    have hphase : _ = Phase.assigned := owned
    obtain ⟨k, flushes, commits, _, rfl⟩ := final
    exact (hw.step (.own (.tick w k flushes commits))).step (.own (.markRevoked _ hphase))

/-! ## The epoch as a stream -/

/-- The work items of the current epoch. -/
def current (w : World T) : List (WorkItem T) :=
  (w.history.filter fun f => f.epoch = w.epoch).map Fetched.item

theorem mem_current {g : WorkItem T} :
    g ∈ w.current ↔ ∃ f ∈ w.history, f.epoch = w.epoch ∧ f.item = g := by
  simp [current, and_assoc]

theorem current_fetch (item : WorkItem T) (prev : Prev.PartitionOffsets) :
    (w.fetch item prev).current = w.current ++ [item] := by
  have hlast : [(⟨w.epoch, item⟩ : Fetched T)].filter (fun f => f.epoch = w.epoch) =
      [⟨w.epoch, item⟩] := List.filter_cons_of_pos (decide_eq_true rfl)
  calc (w.fetch item prev).current
    _ = ((w.history ++ [(⟨w.epoch, item⟩ : Fetched T)]).filter fun f => f.epoch = w.epoch).map
          Fetched.item := rfl
    _ = w.current ++ [item] := by
      rw [List.filter_append, hlast, List.map_append]
      rfl

/-- The epoch has fetched the first `n` records of the stream, and the tracker is exact for those
that were given to `processCommit`. -/
structure Follows (w : World T) (S : Stream T p) (n : Nat) (baseline : Int) (arrived : List Nat)
    (m : Nat) (t : OffsetsTracker T) : Prop where
  fetched : w.current = (List.range n).map S.item
  baseline_le : baseline ≤ w.openedAt
  start : w.openedAt ≤ S.offset 0
  completed : ∀ i, i ∈ arrived ↔ ∃ f ∈ w.completed, f.epoch = w.epoch ∧ f.offset = S.offset i
  tracker : w.committer.partitionMap p = some t
  exact_ : S.Exact baseline arrived m t

structure Healthy (p : Int) (w : World T) : Prop where
  clean : ∀ f ∈ w.history, f.item.Clean
  flying : ∀ f ∈ w.inFlight, f.epoch = w.epoch
  passed : ∀ f ∈ w.history, f.epoch ≠ w.epoch → f.offset < w.openedAt
  increasing : w.history.Pairwise fun f g => f.offset < g.offset
  closed : w.phase = .closed → w.inFlight = [] ∧ ∀ f ∈ w.history, f.offset < w.committed
  opening : w.phase = .opening → w.current = []
  opened : w.phase ≠ .closed → ∃ (S : Stream T p) (n : Nat) (baseline : Int) (arrived : List Nat)
    (m : Nat) (t : OffsetsTracker T), w.Follows S n baseline arrived m t

section
variable {S : Stream T p} {n m : Nat} {baseline : Int} {arrived : List Nat} {t : OffsetsTracker T}
  {f : Fetched T}

theorem Follows.base_le (h : w.Follows S n baseline arrived m t) : baseline ≤ S.offset 0 :=
  h.baseline_le.trans h.start

/-- A record of the epoch is one of the stream. -/
theorem Follows.index (h : w.Follows S n baseline arrived m t) (hf : f ∈ w.history)
    (epoch : f.epoch = w.epoch) : ∃ i < n, f.item = S.item i := by
  have hmem : f.item ∈ w.current := mem_current.mpr ⟨f, hf, epoch, rfl⟩
  rw [h.fetched] at hmem
  obtain ⟨i, hi, hitem⟩ := List.mem_map.mp hmem
  exact ⟨i, List.mem_range.mp hi, hitem.symm⟩

theorem Follows.record (h : w.Follows S n baseline arrived m t) {i : Nat} (hi : i < n) :
    ∃ f ∈ w.history, f.epoch = w.epoch ∧ f.item = S.item i := by
  apply mem_current.mp
  rw [h.fetched]
  exact List.mem_map_of_mem (List.mem_range.mpr hi)

theorem Follows.arrived_lt (h : w.Follows S n baseline arrived m t)
    (completed : ∀ f ∈ w.completed, f ∈ w.history) {i : Nat} (hi : i ∈ arrived) : i < n := by
  obtain ⟨f, hf, hepoch, hoffset⟩ := (h.completed i).mp hi
  obtain ⟨j, hj, hitem⟩ := h.index (completed f hf) hepoch
  rwa [← S.offset_inj ((congrArg WorkItem.offset hitem).symm.trans hoffset)]

/-- No offset is fetched twice. -/
theorem Healthy.offsets_nodup (h : w.Healthy p) : (w.history.map Fetched.offset).Nodup :=
  (List.pairwise_map.mpr h.increasing).imp fun hlt => Int.ne_of_lt hlt

/-- A step that neither fetches nor completes nor opens an epoch. -/
structure Frame (w w' : World T) : Prop where
  history : w'.history = w.history
  completed : w'.completed = w.completed
  inFlight : w'.inFlight = w.inFlight
  epoch : w'.epoch = w.epoch
  openedAt : w'.openedAt = w.openedAt
  committed : w.committed ≤ w'.committed
  phase : w'.phase = w.phase ∨ (w.phase = .opening ∧ w'.phase = .assigned)

theorem Healthy.frame (h : w.Healthy p) (same : Frame w w')
    (tracker : ∀ {S : Stream T p} {n baseline arrived m t}, w.Follows S n baseline arrived m t →
      w.phase ≠ .closed → ∃ m' t', w'.committer.partitionMap p = some t' ∧
        S.Exact baseline arrived m' t') : w'.Healthy p := by
  have hcurrent : w'.current = w.current := by rw [current, current, same.history, same.epoch]
  have hphase : ∀ {q : Phase}, q ≠ .assigned → w'.phase = q → w.phase = q := by
    intro q hq hw'
    rcases same.phase with heq | ⟨_, hassigned⟩
    · exact heq ▸ hw'
    · exact absurd (hw'.symm.trans hassigned) hq
  have hopen : w'.phase ≠ .closed → w.phase ≠ .closed := by
    intro hw' hw
    rcases same.phase with heq | ⟨hopening, _⟩
    · exact hw' (heq.trans hw)
    · rw [hw] at hopening
      cases hopening
  refine ⟨?_, ?_, ?_, ?_, fun hw' => ?_, fun hw' => ?_, fun hw' => ?_⟩
  · rw [same.history]
    exact h.clean
  · rw [same.inFlight, same.epoch]
    exact h.flying
  · rw [same.history, same.epoch, same.openedAt]
    exact h.passed
  · rw [same.history]
    exact h.increasing
  · obtain ⟨hnone, hbelow⟩ := h.closed (hphase (by decide) hw')
    rw [same.inFlight, same.history]
    exact ⟨hnone, fun f hf => (hbelow f hf).trans_le same.committed⟩
  · rw [hcurrent]
    exact h.opening (hphase (by decide) hw')
  · obtain ⟨S, n, baseline, arrived, m, t, hf⟩ := h.opened (hopen hw')
    obtain ⟨m', t', ht', hexact⟩ := tracker hf (hopen hw')
    refine ⟨S, n, baseline, arrived, m', t', hcurrent.trans hf.fetched, ?_, ?_, ?_, ht', hexact⟩
    · rw [same.openedAt]
      exact hf.baseline_le
    · rw [same.openedAt]
      exact hf.start
    · rw [same.completed, same.epoch]
      exact hf.completed

/-! ## The steps -/

/-- A new epoch, with the partition's tracker empty. -/
theorem Healthy.reset (h : w.Healthy p) (hinv : w.Inv p) {baseline : Int}
    (away : w.phase = .closed) (value : baseline = w.committed ∨ baseline < 0) :
    (w.reset p baseline).Healthy p := by
  obtain ⟨hnone, hbelow⟩ := h.closed away
  have hearlier : ∀ f ∈ w.history, f.epoch ≠ w.epoch + 1 := by
    intro f hf hepoch
    have hle := hinv.ledger.epoch_le f hf
    omega
  have hcurrent : (w.reset p baseline).current = [] := by
    apply List.eq_nil_iff_forall_not_mem.mpr
    intro g hg
    obtain ⟨f, hf, hepoch, _⟩ := mem_current.mp hg
    exact hearlier f hf hepoch
  refine ⟨h.clean, ?_, fun f hf _ => hbelow f hf, h.increasing, fun hphase => (nomatch hphase),
    fun _ => hcurrent, fun _ => ?_⟩
  · intro f hf
    exact absurd (hnone ▸ hf : f ∈ []) List.not_mem_nil
  · have hentry := resetCommittedOffsets_entry_same hinv.keyed (l := [(p, baseline)]) (by simp)
      List.mem_cons_self
    obtain ⟨S, hS⟩ := Stream.exists_first (T := T) (p := p) hinv.ledger.nonneg
    refine ⟨S, 0, baseline, [], 0, _, hcurrent, ?_, hS.ge, ?_, congrArg Prod.fst hentry, ?_⟩
    · show baseline ≤ w.committed
      rcases value with rfl | hneg
      · exact le_rfl
      · exact hneg.le.trans hinv.ledger.nonneg
    · intro i
      refine ⟨fun hi => absurd hi List.not_mem_nil, ?_⟩
      rintro ⟨f, hf, hepoch, _⟩
      exact absurd hepoch (hearlier f (hinv.ledger.completed_history f hf))
    · -- a tracker that was there carries the revoke mark
      rcases hinv.closed away with ⟨_, habsent⟩ | ⟨t, ht, hrevoked⟩
      · rw [habsent]
        exact Stream.Exact.opened S rfl rfl rfl rfl
      · rw [ht]
        apply Stream.Exact.opened S <;> simp [OffsetsTracker.resetCommittedOffset, hrevoked]

/-- The next record of the epoch continues its stream. -/
theorem Healthy.fetch (h : w.Healthy p) (hinv : w.Inv p) {item : WorkItem T}
    {prev : Prev.PartitionOffsets} (owned : w.phase = .assigned) (next : w.NextRecord item.offset)
    (partition : item.partition = p)
    (stamped : w.prev.getPrevious p item.offset = (prev, .ok (item.previousOffset, item.first)))
    (clean : item.Clean) : (w.fetch item prev).Healthy p := by
  have hposition : w.fetchPosition ≤ item.offset := next.2.1
  -- everything that was fetched lies below the record
  have hbelow : ∀ f ∈ w.history, f.offset < item.offset := by
    intro f hf
    rcases hinv.ledger.position with ⟨_, hstart, hnone⟩ | ⟨last, hlast, hepoch, _, hstart, hall⟩
    · have hpassed := h.passed f hf (hnone f hf)
      omega
    · by_cases he : f.epoch = w.epoch
      · have hle := hall f hf he
        omega
      · have hpassed := h.passed f hf he
        have hopened := hinv.ledger.current_opened last hlast hepoch
        omega
  have hopen : w.phase ≠ .closed := by rw [owned]; decide
  obtain ⟨S, n, baseline, arrived, m, t, hf⟩ := h.opened hopen
  have hstamp := Prev.PartitionOffsets.getPrevious_ok stamped
  have hnext : Stream.Next S.item n item := by
    refine ⟨hstamp.1, ?_, ?_⟩
    · rintro rfl
      rcases hstamp.2.2 with ⟨_, hprevious, hfirst⟩ | ⟨hsome, _, _⟩
      · exact ⟨hprevious, hfirst⟩
      · rcases hinv.ledger.position with ⟨hnone, _⟩ | ⟨last, hlast, hepoch, _⟩
        · rw [hnone] at hsome
          cases hsome
        · obtain ⟨i, hi, _⟩ := hf.index hlast hepoch
          exact absurd hi (Nat.not_lt_zero i)
    · rintro k rfl
      obtain ⟨g, hg, hepoch, hitem⟩ := hf.record (Nat.lt_succ_self k)
      rcases hinv.ledger.position with ⟨_, _, hnone⟩ | ⟨last, hlast, hlastEpoch, hprev, _, hall⟩
      · exact absurd hepoch (hnone g hg)
      · -- the last record of the stream is the one fetched last
        obtain ⟨i, hi, hlastItem⟩ := hf.index hlast hlastEpoch
        have hlastOffset : last.offset = S.offset i := congrArg WorkItem.offset hlastItem
        have hgOffset : g.offset = S.offset k := congrArg WorkItem.offset hitem
        have hle := hall g hg hepoch
        obtain rfl : i = k := by
          by_contra hne
          have hlt := S.offset_lt.mpr (show i < k by omega)
          omega
        rcases hstamp.2.2 with ⟨hnone, _, _⟩ | ⟨hsome, hlt, hfirst⟩
        · rw [hprev] at hnone
          cases hnone
        · rw [hprev, Option.some.injEq, hlastOffset] at hsome
          refine ⟨hsome.symm, ?_, hfirst⟩
          rw [← hsome] at hlt
          exact hlt
  obtain ⟨S', hbefore, hself⟩ := Stream.exists_continued (p := p) (fun _ => S.links) hnext
    (fun i _ => S.partition i) partition (fun i _ => S.clean i) clean
  have hcompleted := hinv.ledger.completed_history
  refine ⟨?_, ?_, ?_, ?_, fun hphase => ?_, fun hphase => ?_, fun _ => ?_⟩
  · intro f hf
    rcases List.mem_append.mp hf with hf | hf
    · exact h.clean f hf
    · exact List.mem_singleton.mp hf ▸ clean
  · intro f hf
    rcases List.mem_append.mp hf with hf | hf
    · exact h.flying f hf
    · exact List.mem_singleton.mp hf ▸ rfl
  · intro f hf hepoch
    rcases List.mem_append.mp hf with hf | hf
    · exact h.passed f hf hepoch
    · exact absurd (List.mem_singleton.mp hf ▸ rfl) hepoch
  · refine List.pairwise_append.mpr ⟨h.increasing, List.pairwise_singleton _ _, ?_⟩
    intro f hf g hg
    rw [List.mem_singleton.mp hg]
    exact hbelow f hf
  · exact absurd hphase hopen
  · exact nomatch owned.symm.trans hphase
  · refine ⟨S', n + 1, baseline, arrived, m, t, ?_, hf.baseline_le, ?_, ?_, hf.tracker, ?_⟩
    · rw [current_fetch, hf.fetched, List.range_succ, List.map_append, List.map_singleton, hself]
      congr 1
      exact List.map_congr_left fun i hi => (hbefore i (List.mem_range.mp hi)).symm
    · cases n with
      | zero =>
        show w.openedAt ≤ (S'.item 0).offset
        rw [hself]
        rcases hinv.ledger.position with ⟨_, hstart, _⟩ | ⟨last, hlast, hepoch, _⟩
        · exact hstart ▸ hposition
        · obtain ⟨i, hi, _⟩ := hf.index hlast hepoch
          exact absurd hi (Nat.not_lt_zero i)
      | succ n =>
        show w.openedAt ≤ (S'.item 0).offset
        rw [hbefore 0 (Nat.succ_pos n)]
        exact hf.start
    · -- the records that have arrived keep their places
      intro i
      rw [hf.completed i]
      refine exists_congr fun g => and_congr_right fun hg => and_congr_right fun hepoch => ?_
      obtain ⟨j, hj, hitem⟩ := hf.index (hcompleted g hg) hepoch
      have hS : g.offset = S.offset j := congrArg WorkItem.offset hitem
      have hS' : g.offset = S'.offset j := by rw [hS, Stream.offset, Stream.offset, hbefore j hj]
      constructor
      · intro he
        rw [← S.offset_inj (hS.symm.trans he)]
        exact hS'
      · intro he
        rw [← S'.offset_inj (hS'.symm.trans he)]
        exact hS
    · exact hf.exact_.congr fun i hi => hbefore i (hf.arrived_lt hcompleted hi)

/-- A completion is never late for its epoch. -/
theorem Healthy.complete (h : w.Healthy p) (hinv : w.Inv p)
    (perm : (w.inFlight ++ w.completed).Perm w.history) {before after : List (Fetched T)}
    (flying : w.inFlight = before ++ f :: after) (now : Int) :
    (w.complete before f after now).Healthy p := by
  have hfly : f ∈ w.inFlight := flying ▸ List.mem_append_right before List.mem_cons_self
  have hf : f ∈ w.history := hinv.flying f hfly
  have hepoch := h.flying f hfly
  have hopen : w.phase ≠ .closed := by
    intro hphase
    rw [(h.closed hphase).1] at hfly
    exact absurd hfly List.not_mem_nil
  have hrest : ∀ g ∈ before ++ after, g ∈ w.inFlight := by
    intro g hg
    rw [flying]
    rcases List.mem_append.mp hg with hg | hg
    · exact List.mem_append_left _ hg
    · exact List.mem_append_right _ (List.mem_cons_of_mem f hg)
  obtain ⟨S, n, baseline, arrived, m, t, hs⟩ := h.opened hopen
  obtain ⟨i, _, hitem⟩ := hs.index hf hepoch
  have hoffset : f.offset = S.offset i := congrArg WorkItem.offset hitem
  have hfresh : i ∉ arrived := by
    intro hi
    obtain ⟨g, hg, _, hgi⟩ := (hs.completed i).mp hi
    have hnodup : ((w.inFlight ++ w.completed).map Fetched.offset).Nodup :=
      (perm.map Fetched.offset).nodup_iff.mpr h.offsets_nodup
    rw [List.map_append] at hnodup
    exact (List.nodup_append.mp hnodup).2.2 _ (List.mem_map_of_mem hfly) _ (List.mem_map_of_mem hg)
      (hoffset.trans hgi.symm)
  refine ⟨h.clean, fun g hg => h.flying g (hrest g hg), h.passed, h.increasing,
    fun hphase => absurd hphase hopen, h.opening, fun _ => ?_⟩
  obtain ⟨m', hexact, _⟩ := hs.exact_.processCommit hs.base_le hfresh now
  refine ⟨S, n, baseline, arrived ++ [i], m', _, hs.fetched, hs.baseline_le, hs.start, ?_, ?_, hexact⟩
  · intro j
    show _ ↔ ∃ g ∈ w.completed ++ [f], g.epoch = w.epoch ∧ g.offset = S.offset j
    simp only [List.mem_append, List.mem_singleton, hs.completed j]
    constructor
    · rintro (⟨g, hg, hge, hgo⟩ | rfl)
      · exact ⟨g, .inl hg, hge, hgo⟩
      · exact ⟨f, .inr rfl, hepoch, hoffset⟩
    · rintro ⟨g, hg | rfl, hge, hgo⟩
      · exact .inl ⟨g, hg, hge, hgo⟩
      · exact .inr (S.offset_inj (hgo.symm.trans hoffset))
  · have hmap := processCommit_partitionMap_same w.committer f.item now
    rw [hinv.ledger.partition f hf, hs.tracker, hitem] at hmap
    rw [← hmap, ← hitem]
    rfl

theorem Healthy.flush (h : w.Healthy p) (hinv : w.Inv p) {order : List Int}
    (iterates : w.committer.Iterates order) (now : Int) : (w.flush slices order now).Healthy p := by
  refine h.frame ⟨rfl, rfl, rfl, rfl, rfl, le_rfl, .inl rfl⟩ fun hs _ => ?_
  have hmap := congrArg Prod.fst (flushGapBuffers_entry slices now hinv.keyed iterates p)
  simp only [entry, hs.tracker] at hmap
  obtain ⟨m', hexact, _⟩ := hs.exact_.flush slices hs.base_le now
  exact ⟨m', _, hmap, hexact⟩

theorem Healthy.tick (h : w.Healthy p) (hinv : w.Inv p) {k : Tick}
    (flushes : w.committer.Iterates k.flushOrder) (commits : w.committer.Iterates k.commitOrder) :
    (w.tick slices p k).Healthy p := by
  have hmono := hinv.committed_step (.tick w k flushes commits : Step slices p w _)
  refine h.frame ⟨rfl, rfl, rfl, rfl, rfl, hmono, .inl rfl⟩ fun {S n baseline arrived m t} hs hopen => ?_
  cases hguard : k.guardAcquired with
  | false =>
    rw [tick_of_guard_failed slices p w hguard]
    exact ⟨m, t, hs.tracker, hs.exact_⟩
  | true =>
    have hmap := (tick_spec slices p hinv.keyed hguard flushes commits).1
    rw [hs.tracker, Option.map_some, hinv.assigned] at hmap
    cases hphase : w.phase with
    | closed => exact absurd hphase hopen
    | opening =>
      -- nothing has been fetched yet
      have harrived : arrived = [] := by
        apply List.eq_nil_iff_forall_not_mem.mpr
        intro i hi
        have hcurrent := hs.fetched
        rw [h.opening hphase] at hcurrent
        have hlt := hs.arrived_lt hinv.ledger.completed_history hi
        have hlength := congrArg List.length hcurrent
        rw [List.length_nil, List.length_map, List.length_range] at hlength
        omega
      rw [hphase] at hmap
      have hexact := hs.exact_
      rw [harrived] at hexact ⊢
      obtain ⟨m', hexact'⟩ := hexact.tick_unassigned hs.base_le slices _
      exact ⟨m', _, hmap, hexact'⟩
    | assigned =>
      rw [hphase] at hmap
      obtain ⟨m', hexact, _⟩ := hs.exact_.tick slices (k.partition p) hs.base_le
      exact ⟨m', _, hmap, hexact⟩

/-! ## The final commit -/

/-- With nothing in flight, one call of `CommitOffsets` that returns `nil` leaves the tracker empty
and the broker's position right behind the last record. -/
theorem Healthy.final (h : w.Healthy p) (hinv : w.Inv p)
    (perm : (w.inFlight ++ w.completed).Perm w.history) (owned : w.phase = .assigned)
    (drained : w.inFlight = []) (final : Commits slices p w v) :
    (∀ f ∈ v.history, f.offset < v.committed) ∧
      (v.current ≠ [] → ∃ f ∈ v.history, v.committed = f.offset + 1) ∧
      ∃ t, v.committer.partitionMap p = some t ∧ t.ready = none ∧ t.gapBuffer = [] := by
  have hv : v.Inv p := hinv.step final.step
  obtain ⟨k, flushes, commits, herr, rfl⟩ := final
  have hguard := (commitOffsets_error_none slices k herr).1
  have hopen : w.phase ≠ .closed := by rw [owned]; decide
  obtain ⟨S, n, baseline, arrived, m, t, hs⟩ := h.opened hopen
  obtain ⟨m', hexact, hm', _, hready, _⟩ := hs.exact_.tick slices (k.partition p) hs.base_le
  have hassigned : w.committer.assigned p = true := by rw [hinv.assigned, owned]; rfl
  have hnone : (t.tick slices true (k.partition p)).1.ready = none := by
    apply hready
    cases hoffered : (t.tick slices true (k.partition p)).2 with
    | none => exact .inr rfl
    | some r =>
      left
      apply accepted_of_offered hinv.keyed flushes commits hguard herr hs.tracker
      rw [hassigned, hoffered]
      rfl
  have hmap := (tick_spec slices p hinv.keyed hguard flushes commits).1
  rw [hs.tracker, Option.map_some, hassigned] at hmap
  -- every record of the epoch has arrived
  have harrived : ∀ i < n, i ∈ arrived := by
    intro i hi
    obtain ⟨f, hf, hepoch, hitem⟩ := hs.record hi
    rw [drained, List.nil_append] at perm
    exact (hs.completed i).mpr ⟨f, perm.mem_iff.mpr hf, hepoch, congrArg WorkItem.offset hitem⟩
  have hlt : ∀ i ∈ arrived, i < n := fun i hi => hs.arrived_lt hinv.ledger.completed_history hi
  obtain rfl : m' = n := by
    by_contra hne
    rcases Nat.lt_or_gt_of_ne hne with hlow | hhigh
    · exact hm' (harrived m' hlow)
    · exact absurd (hlt n (hexact.upTo n hhigh)) (Nat.lt_irrefl n)
  have hempty : (t.tick slices true (k.partition p)).1.gapBuffer = [] := by
    apply List.eq_nil_iff_forall_not_mem.mpr
    intro g hg
    obtain ⟨i, hi, hle, _⟩ := hexact.holds.mem g hg
    exact absurd (hlt i hi) (Nat.not_lt.mpr hle)
  have hopened : w.openedAt ≤ (w.tick slices p k).committed := hv.ledger.opened
  suffices hcommitted : ∀ i, m' = i + 1 → (w.tick slices p k).committed = S.offset i + 1 by
    refine ⟨?_, ?_, _, hmap, hnone, hempty⟩
    · intro f hf
      by_cases hepoch : f.epoch = w.epoch
      · obtain ⟨i, hi, hitem⟩ := hs.index hf hepoch
        obtain ⟨j, rfl⟩ := Nat.exists_eq_add_one_of_ne_zero (Nat.ne_zero_of_lt hi)
        have hoffset : f.offset = S.offset i := congrArg WorkItem.offset hitem
        have hle : S.offset i ≤ S.offset j := by
          by_contra hgt
          have hji := S.offset_lt.mp (Int.not_le.mp hgt)
          omega
        rw [hcommitted j rfl]
        omega
      · exact (h.passed f hf hepoch).trans_le hopened
    · intro hcurrent
      cases m' with
      | zero => exact absurd hs.fetched hcurrent
      | succ i =>
        obtain ⟨f, hf, _, hitem⟩ := hs.record (Nat.lt_succ_self i)
        exact ⟨f, hf, (hcommitted i rfl).trans (congrArg (·.offset + 1) hitem).symm⟩
  rintro i rfl
  obtain ⟨t', ht', ho⟩ := hv.opened hopen
  rw [hmap] at ht'
  obtain rfl := Option.some.inj ht'
  rcases hexact.at_ with ⟨r, hr, _⟩ | ⟨_, hlast, _⟩
  · rw [hnone] at hr
    cases hr
  · rcases ho.last with ⟨hminus, _⟩ | ⟨_, hcommitted⟩
    · have hnonneg := S.offset_nonneg i
      omega
    · rw [hcommitted, hlast]

/-! ## Whole runs -/

theorem Healthy.init : ({} : World T).Healthy p where
  clean _ hf := absurd hf List.not_mem_nil
  flying _ hf := absurd hf List.not_mem_nil
  passed _ hf := absurd hf List.not_mem_nil
  increasing := List.Pairwise.nil
  closed _ := ⟨rfl, fun _ hf => absurd hf List.not_mem_nil⟩
  opening h := nomatch h
  opened h := absurd rfl h

theorem Healthy.step (h : w.Healthy p) (hinv : w.Inv p)
    (perm : (w.inFlight ++ w.completed).Perm w.history) (step : HealthyStep slices p w w') :
    w'.Healthy p := by
  have hkeep : ∀ {w' : World T}, w'.committer.partitionMap p = w.committer.partitionMap p →
      ∀ {S : Stream T p} {n baseline arrived m t}, w.Follows S n baseline arrived m t →
      w.phase ≠ .closed → ∃ m' t', w'.committer.partitionMap p = some t' ∧
        S.Exact baseline arrived m' t' :=
    fun hmap _ _ _ _ m t hs _ => ⟨m, t, hmap.trans hs.tracker, hs.exact_⟩
  cases step with
  | shared step kept clean =>
    cases step with
    | other call legal away =>
      refine h.frame ⟨rfl, rfl, rfl, rfl, rfl, le_rfl, .inl rfl⟩ (hkeep ?_)
      have hslice := run_slice hinv.keyed slices legal p
      rw [Slice.step_of_avoids away] at hslice
      exact congrArg Slice.tracker hslice
    | own step =>
      cases step with
      | append x nonneg above =>
        exact h.frame ⟨rfl, rfl, rfl, rfl, rfl, le_rfl, .inl rfl⟩ (hkeep rfl)
      | remove kept => exact h.frame ⟨rfl, rfl, rfl, rfl, rfl, le_rfl, .inl rfl⟩ (hkeep rfl)
      | otherOwner position away forward =>
        exact h.frame ⟨rfl, rfl, rfl, rfl, rfl, forward, .inl rfl⟩ (hkeep rfl)
      | reset baseline away value => exact h.reset hinv away value
      | markAssigned opening =>
        exact h.frame ⟨rfl, rfl, rfl, rfl, rfl, le_rfl, .inr ⟨opening, rfl⟩⟩ (hkeep rfl)
      | markRevoked owned => exact nomatch (kept owned).symm
      | fetch item prev owned next partition stamped fresh =>
        exact h.fetch hinv owned next partition stamped
          (clean ⟨w.epoch, item⟩ (List.mem_append_right _ List.mem_cons_self))
      | complete before f after now flying known => exact h.complete hinv perm flying now
      | flush order now iterates => exact h.flush hinv iterates now
      | tick k flushes commits => exact h.tick hinv flushes commits
  | @handover v owned drained final =>
    obtain ⟨hbelow, _⟩ := h.final hinv perm owned drained final
    have hhealthy : v.Healthy p := by
      obtain ⟨k, flushes, commits, _, rfl⟩ := final
      exact h.tick hinv flushes commits
    have hempty : v.inFlight = [] := by
      obtain ⟨k, _, _, _, rfl⟩ := final
      exact drained
    exact ⟨hhealthy.clean, hhealthy.flying, hhealthy.passed, hhealthy.increasing,
      fun _ => ⟨hempty, hbelow⟩, fun hphase => (nomatch hphase), fun hphase => absurd rfl hphase⟩

theorem healthy_of_reachable (h : (healthySystem slices p).Reachable w) : w.Healthy p := by
  refine System.invariant (M := healthySystem slices p) (P := fun w => w.Healthy p) ?_ ?_ w h
  · rintro w rfl
    exact .init
  · intro w w' hw hhealthy hstep
    have hshared := shared_of_healthy hw
    exact hhealthy.step (shared_inv hshared) (flying_completed_perm hshared) hstep

/-- A step with an item in flight as it comes back. -/
theorem HealthyStep.write (step : HealthyStep slices p w w') (h : w'.Writable x) (clean : x.Clean) :
    w.Writable x ∧ HealthyStep slices p (w.write x) (w'.write x) := by
  cases step with
  | shared step kept fresh =>
    obtain ⟨hw, hstep⟩ := step.write h
    refine ⟨hw, .shared hstep kept fun f hf => ?_⟩
    obtain ⟨g, hg, rfl⟩ := List.mem_map.mp hf
    show (afterWrite x g.item).Clean
    unfold afterWrite
    split
    · exact clean
    · exact fresh g hg
  | handover owned drained final =>
    obtain ⟨k, flushes, commits, herr, rfl⟩ := final
    refine ⟨⟨h.stamp, h.pending⟩, .handover (w := w.write x) owned ?_ ⟨k, flushes, commits, herr, rfl⟩⟩
    show w.inFlight.map _ = []
    rw [drained, List.map_nil]

theorem healthy_write (h : (healthySystem slices p).Reachable w) (hx : w.Writable x)
    (clean : x.Clean) : (healthySystem slices p).Reachable (w.write x) := by
  refine System.invariant (M := healthySystem slices p)
    (P := fun w => w.Writable x → (healthySystem slices p).Reachable (w.write x)) ?_ ?_ w h hx
  · rintro w rfl _
    exact .init rfl
  · intro w w' _ hw hstep hx'
    obtain ⟨hx, hstep'⟩ := hstep.write hx' clean
    exact (hw hx).step hstep'

end

/-- One final commit hands over everything: with nothing in flight, a `CommitOffsets` that returns
`nil` leaves the broker's position above every record ever fetched, and right behind the last one
if the epoch fetched any, with nothing left in the tracker. -/
theorem handover_exact (slices : SortFunc (WorkItem T)) (p : Int) (w v : World T)
    (h : (healthySystem slices p).Reachable w) (owned : w.phase = .assigned)
    (drained : w.inFlight = []) (final : Commits slices p w v) :
    (∀ f ∈ v.history, f.offset < v.committed) ∧
      (v.current ≠ [] → ∃ f ∈ v.history, v.committed = f.offset + 1) ∧
      ∃ t, v.committer.partitionMap p = some t ∧ t.ready = none ∧ t.gapBuffer = [] := by
  have hshared := shared_of_healthy h
  exact (healthy_of_reachable h).final (shared_inv hshared) (flying_completed_perm hshared) owned
    drained final

/-- What a step does to the epochs. -/
inductive Turn (w w' : World T) : Prop where
  | stays (phase : w'.phase = w.phase) (epoch : w'.epoch = w.epoch)
  | opens (phase : w.phase = .closed) (phase' : w'.phase = .opening) (epoch : w'.epoch = w.epoch + 1)
  | owns (phase : w.phase = .opening) (phase' : w'.phase = .assigned) (epoch : w'.epoch = w.epoch)
  | ends (phase : w.phase = .assigned) (phase' : w'.phase = .closed) (epoch : w'.epoch = w.epoch)

theorem SharedStep.turn (step : SharedStep slices p w w') : Turn w w' := by
  cases step with
  | other call legal away => exact .stays rfl rfl
  | own step =>
    cases step with
    | reset baseline away value => exact .opens away rfl rfl
    | markAssigned opening => exact .owns opening rfl rfl
    | markRevoked owned => exact .ends owned rfl rfl
    | _ => exact .stays rfl rfl

theorem SharedStep.history_subset (step : SharedStep slices p w w') : w.history ⊆ w'.history := by
  cases step with
  | other call legal away => exact List.Subset.refl _
  | own step =>
    cases step with
    | fetch item prev owned next partition stamped fresh => exact List.subset_append_left _ _
    | _ => exact List.Subset.refl _

/-- Before the partition has been revoked for the first time. -/
def First (w : World T) : Prop := (w.phase = .closed ∧ w.epoch = 0) ∨ (w.phase ≠ .closed ∧ w.epoch = 1)

/-- A first epoch follows on a state before it, and does not end. -/
theorem Turn.first (turn : Turn w w') (positive : w.phase ≠ .closed → 0 < w.epoch) (h : w'.First) :
    w.First ∧ (w.phase = .assigned → w'.phase = .assigned) := by
  cases turn with
  | stays phase epoch =>
    rw [First, phase, epoch] at h
    exact ⟨h, phase.trans⟩
  | opens phase phase' epoch =>
    rcases h with ⟨hclosed, _⟩ | ⟨_, hone⟩
    · rw [phase'] at hclosed
      cases hclosed
    · refine ⟨.inl ⟨phase, by omega⟩, fun hw => ?_⟩
      rw [phase] at hw
      cases hw
  | owns phase phase' epoch =>
    rcases h with ⟨hclosed, _⟩ | ⟨_, hone⟩
    · rw [phase'] at hclosed
      cases hclosed
    · refine ⟨.inr ⟨?_, epoch ▸ hone⟩, fun _ => phase'⟩
      rw [phase]
      decide
  | ends phase phase' epoch =>
    have hpositive := positive (by rw [phase]; decide)
    rcases h with ⟨_, hzero⟩ | ⟨hopen, _⟩
    · omega
    · exact absurd phase' hopen

theorem Turn.positive (turn : Turn w w') (h : w.phase ≠ .closed → 0 < w.epoch)
    (hw : w'.phase ≠ .closed) : 0 < w'.epoch := by
  cases turn with
  | stays phase epoch =>
    rw [epoch]
    exact h (phase ▸ hw)
  | opens phase phase' epoch => omega
  | owns phase phase' epoch =>
    rw [epoch]
    apply h
    rw [phase]
    decide
  | ends phase phase' epoch => exact absurd phase' hw

theorem epoch_pos (h : (sharedSystem slices p).Reachable w) : w.phase ≠ .closed → 0 < w.epoch := by
  refine System.invariant (M := sharedSystem slices p) (P := fun w => w.phase ≠ .closed → 0 < w.epoch)
    ?_ (fun w w' _ hw hstep => hstep.turn.positive hw) w h
  rintro w rfl hw
  exact absurd rfl hw

/-- Before its first revocation a partition is healthy. -/
theorem healthy_of_first (h : (sharedSystem slices p).Reachable w)
    (clean : ∀ f ∈ w.history, f.item.Clean) (first : w.First) :
    (healthySystem slices p).Reachable w := by
  refine System.invariant (M := sharedSystem slices p) (P := fun w =>
    (∀ f ∈ w.history, f.item.Clean) → w.First → (healthySystem slices p).Reachable w) ?_ ?_ w h clean
    first
  · rintro w rfl _ _
    exact .init rfl
  · intro w w' hw hreach hstep hclean hfirst
    obtain ⟨hfirst, hkept⟩ := hstep.turn.first (epoch_pos hw) hfirst
    have hold : ∀ f ∈ w.history, f.item.Clean := fun f hf => hclean f (hstep.history_subset hf)
    exact (hreach hold hfirst).step (.shared hstep hkept hclean)

/-- The two records that completed out of order. -/
theorem handover_exact_sample : sampleCompleted.committed = 0 ∧ sampleCommitted.committed = 4 ∧
    ∀ f ∈ sampleCommitted.history, f.offset < sampleCommitted.committed := by
  have hclean : ∀ f ∈ sampleCompleted.history, f.item.metrics.traits.orphaned = false := by decide
  have hreach : (healthySystem (SortFunc.insertion _) 0).Reachable sampleCompleted :=
    healthy_of_first (reachable_shared (sampleCompleted_reachable _)) hclean (.inr ⟨by decide, rfl⟩)
  exact ⟨by decide, by decide, (handover_exact _ 0 _ _ hreach rfl rfl
    ⟨sampleTick, sampleCompleted_iterates, sampleCompleted_iterates, by decide, rfl⟩).1⟩

end World

end LlingrDemux.Offset
