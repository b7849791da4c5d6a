import LlingrDemux.Offset.LedgerInvariant

/-!
# The tracker of an open epoch

While an epoch is open, no live record lies between the broker's position and the
tracker's baseline, and a `Ready` item proves every live record up to it done. The
second fact is closed under all advancement rules, because a stamp names an interval
without live records, whichever epoch it comes from.
-/

namespace LlingrDemux.Offset

open Shared OffsetsTracker
set_option autoImplicit false

variable {T : Type}

namespace Ledger

/-- The stamps of the work items that went through `processCommit`. -/
def Arrived (l : Ledger T) (s : WorkItem.Stamp) : Prop := ∃ f ∈ l.completed, f.stamp = s

/-- Every live record from the committed position up to `x` is done. -/
structure Ripe (l : Ledger T) (x : Int) : Prop where
  committed_le : l.committed ≤ x
  done : ∀ y, l.Live y → l.committed ≤ y → y ≤ x → l.Done y

structure Open (l : Ledger T) (t : OffsetsTracker T) : Prop where
  items : AllItems l.Arrived t
  baseline : ∀ x, l.Live x → l.committed ≤ x → t.committedPlusOne ≤ x
  top : t.committedPlusOne ≤ l.committed ∨ t.committedPlusOne ∈ l.appended
  anchored : l.committed ≤ t.committedPlusOne ∨
    (t.committedPlusOne < 0 ∧ t.lastCommittedOffset = -1 ∧ l.unknownBaseline = true)
  last : (t.lastCommittedOffset = -1 ∧ l.committed = l.openedAt) ∨
    (0 ≤ t.lastCommittedOffset ∧ l.committed = t.lastCommittedOffset + 1)
  ready : ∀ r, t.ready = some r → l.Ripe r.offset ∧ l.committed ≤ t.committedPlusOne

section
variable {p : Int} {l : Ledger T} {t : OffsetsTracker T}

theorem Arrived.history (h : l.Inv p) {s : WorkItem.Stamp} (hs : l.Arrived s) :
    ∃ f ∈ l.history, f.stamp = s := by
  obtain ⟨f, hf, hfs⟩ := hs
  exact ⟨f, h.completed_history f hf, hfs⟩

theorem Arrived.appended (h : l.Inv p) {s : WorkItem.Stamp} (hs : l.Arrived s) :
    s.offset ∈ l.appended := by
  obtain ⟨f, hf, rfl⟩ := hs.history h
  exact h.offset_appended f hf

theorem Arrived.nonneg (h : l.Inv p) {s : WorkItem.Stamp} (hs : l.Arrived s) : 0 ≤ s.offset :=
  h.appended_nonneg _ (hs.appended h)

theorem Arrived.done {s : WorkItem.Stamp} (hs : l.Arrived s) : l.Done s.offset := by
  obtain ⟨f, hf, rfl⟩ := hs
  exact .inl ⟨f, hf, rfl⟩

theorem Arrived.gap (h : l.Inv p) {s : WorkItem.Stamp} (hs : l.Arrived s) {x : Int}
    (hx : l.Live x) (hlt : s.previousOffset < x) : s.offset ≤ x := by
  obtain ⟨f, hf, rfl⟩ := hs.history h
  exact h.gap f hf x hx hlt

/-- Live records up to an arrival are its own or lie at or below its stamp. -/
theorem Ripe.of_arrived (h : l.Inv p) {s : WorkItem.Stamp} (hs : l.Arrived s)
    (hc : l.committed ≤ s.offset)
    (below : ∀ y, l.Live y → l.committed ≤ y → y ≤ s.previousOffset → l.Done y) :
    l.Ripe s.offset := by
  refine ⟨hc, ?_⟩
  intro y hy hcy hle
  by_cases hp : y ≤ s.previousOffset
  · exact below y hy hcy hp
  · have := hs.gap h hy (by omega)
    have heq : y = s.offset := by omega
    exact heq ▸ hs.done

/-- The advancement rules of the source only reach offsets that are ripe. -/
theorem Open.evidence (h : l.Inv p) (ho : l.Open t) :
    Evidence l.Arrived t fun x => l.Ripe x ∧ l.committed ≤ t.committedPlusOne where
  ready := ho.ready
  baseline := by
    intro g hg heq
    have hc : l.committed ≤ t.committedPlusOne := by
      rcases ho.anchored with hc | ⟨hneg, _, _⟩
      · exact hc
      · have := hg.nonneg h
        omega
    refine ⟨⟨by omega, ?_⟩, hc⟩
    intro y hy hcy hle
    have := ho.baseline y hy hcy
    have heq' : y = g.offset := by omega
    exact heq' ▸ hg.done
  anchor := by
    intro g hg hpos hle hbase
    have hlast : l.committed = t.lastCommittedOffset + 1 := by
      rcases ho.last with ⟨hn, _⟩ | ⟨_, he⟩
      · omega
      · exact he
    have hc : l.committed ≤ t.committedPlusOne := by
      rcases ho.anchored with hc | ⟨_, hn, _⟩
      · exact hc
      · omega
    refine ⟨Ripe.of_arrived h hg (by omega) ?_, hc⟩
    intro y _ hcy hy
    omega
  link := by
    rintro g hg ⟨hripe, hc⟩ hlt
    have := hripe.committed_le
    exact ⟨Ripe.of_arrived h hg (by omega) hripe.done, hc⟩

/-- A tracker whose new items have arrived and whose `Ready` is ripe stays open. -/
theorem Open.update (ho : l.Open t) {t' : OffsetsTracker T}
    (hcpo : t'.committedPlusOne = t.committedPlusOne)
    (hlast : t'.lastCommittedOffset = t.lastCommittedOffset)
    (items : AllItems l.Arrived t')
    (ready : ∀ r, t'.ready = some r → l.Ripe r.offset ∧ l.committed ≤ t.committedPlusOne) :
    l.Open t' where
  items := items
  baseline := by rw [hcpo]; exact ho.baseline
  top := by rw [hcpo]; exact ho.top
  anchored := by rw [hcpo, hlast]; exact ho.anchored
  last := by rw [hlast]; exact ho.last
  ready := by rw [hcpo]; exact ready

/-! ## Steps of the log and of the fetches -/

/-- The ledger changes that a tracker does not see. -/
theorem Open.mono (ho : l.Open t) {l' : Ledger T} (hc : l'.committed = l.committed)
    (hopen : l'.openedAt = l.openedAt) (hunknown : l'.unknownBaseline = l.unknownBaseline)
    (hother : l'.otherCommitted = l.otherCommitted)
    (happ : ∀ x ∈ l.appended, x ∈ l'.appended) (hdone : ∀ f ∈ l.completed, f ∈ l'.completed)
    (hlive : ∀ x, l'.Live x → l.Live x) : l'.Open t := by
  have harr : ∀ s, l.Arrived s → l'.Arrived s := by
    rintro s ⟨f, hf, hfs⟩
    exact ⟨f, hdone f hf, hfs⟩
  refine ⟨⟨fun r hr => harr _ (ho.items.ready r hr), fun g hg => harr _ (ho.items.buffer g hg)⟩,
    ?_, ?_, ?_, ?_, ?_⟩
  · intro x hx hcx
    exact ho.baseline x (hlive x hx) (hc ▸ hcx)
  · rw [hc]
    exact ho.top.imp_right (happ _)
  · rw [hc, hunknown]
    exact ho.anchored
  · rw [hc, hopen]
    exact ho.last
  · intro r hr
    obtain ⟨hripe, hle⟩ := ho.ready r hr
    rw [hc]
    refine ⟨⟨hc ▸ hripe.committed_le, ?_⟩, hle⟩
    intro y hy hcy hyr
    rcases hripe.done y (hlive y hy) (hc ▸ hcy) hyr with ⟨f, hf, he⟩ | hlt
    · exact .inl ⟨f, hdone f hf, he⟩
    · exact .inr (hother ▸ hlt)

theorem Open.append (h : l.Inv p) (ho : l.Open t) {x : Int} (above : ∀ y ∈ l.appended, y < x) :
    Open { l with log := x :: l.log, appended := x :: l.appended } t := by
  have hlive : ∀ y, Live { l with log := x :: l.log, appended := x :: l.appended } y →
      y = x ∨ l.Live y := by
    rintro y (hy | hy)
    · exact (List.mem_cons.mp hy).imp_right Or.inl
    · exact .inr (.inr hy)
  refine ⟨ho.items, ?_, ho.top.imp_right (List.mem_cons_of_mem x), ho.anchored, ho.last, ?_⟩
  · intro y hy hcy
    change l.committed ≤ y at hcy
    rcases hlive y hy with rfl | hy
    · rcases ho.top with htop | htop
      · exact htop.trans hcy
      · exact (above _ htop).le
    · exact ho.baseline y hy hcy
  · intro r hr
    obtain ⟨hripe, hle⟩ := ho.ready r hr
    refine ⟨⟨hripe.committed_le, ?_⟩, hle⟩
    intro y hy hcy hyr
    rcases hlive y hy with rfl | hy
    · -- the new record lies above the appended `Ready`
      have hr' : r.offset < y := above _ ((ho.items.ready r hr).appended h)
      omega
    · exact hripe.done y hy hcy hyr

/-! ## Operations of the committer -/

theorem Open.complete (h : l.Inv p) (ho : l.Open t) {f : Fetched T} (hf : f ∈ l.history)
    (known : l.unknownBaseline = true → f.item.first = true → f.epoch = l.epoch) (now : Int) :
    Open { l with completed := l.completed ++ [f] }
      (OffsetsTracker.processCommit (some t) f.item now).1 := by
  have h' := h.complete hf
  have ho' : Open { l with completed := l.completed ++ [f] } t :=
    ho.mono rfl rfl rfl rfl (fun _ hx => hx) (fun g hg => List.mem_append_left _ hg)
      (fun _ hx => hx)
  have harr : Arrived { l with completed := l.completed ++ [f] } f.item.stamp :=
    ⟨f, by simp, rfl⟩
  -- the baseline may rise to the offset of a `First` record
  have hraised : Open { l with completed := l.completed ++ [f] } (arrive (some t) f.item) := by
    obtain ⟨lo, hi, heq⟩ := arrive_some_eq t f.item
    by_cases hraise : f.item.first = true ∧ f.item.offset ≥ t.committedPlusOne
    · rw [if_pos hraise] at heq
      obtain ⟨hfirst, hge⟩ := hraise
      have hanch : l.committed ≤ f.item.offset := by
        rcases ho.anchored with hc | ⟨_, hlast, hunk⟩
        · exact hc.trans hge
        · have hcur := h.current_opened f hf (known hunk hfirst)
          rcases ho.last with ⟨_, hop⟩ | ⟨hpos, _⟩
          · exact hop ▸ hcur
          · omega
      rw [heq]
      exact {
        items := ⟨ho'.items.ready, ho'.items.buffer⟩
        baseline := fun x hx hc => h'.first f hf hfirst x hx hc
        top := .inr (h.offset_appended f hf)
        anchored := .inl hanch
        last := ho.last
        ready := fun r hr => ⟨(ho'.ready r hr).1, hanch⟩ }
    · rw [if_neg hraise] at heq
      rw [heq]
      exact ho'.update rfl rfl ⟨ho'.items.ready, ho'.items.buffer⟩ ho'.ready
  have hstamp : Arrived { l with completed := l.completed ++ [f] } (markFirst f.item).stamp := by
    rw [stamp_markFirst]
    exact harr
  exact hraised.update (by simp [OffsetsTracker.processCommit])
    (by simp [OffsetsTracker.processCommit])
    (checkAndAdvance_allItems hraised.items hstamp now)
    (checkAndAdvance_evidence (hraised.evidence h') hstamp now)

theorem Open.flush (h : l.Inv p) (ho : l.Open t) (slices : SortFunc (WorkItem T)) (now : Int) :
    l.Open (t.flush slices now).1 :=
  ho.update (by simp) (by simp) (flush_allItems slices ho.items now)
    (flush_evidence slices (ho.evidence h) ho.items now)

theorem Open.repair (h : l.Inv p) (ho : l.Open t) (now : Int) :
    l.Open (t.repairSuccessor now).1 :=
  ho.update (by simp) (by simp) (repairSuccessor_allItems ho.items now)
    (repairSuccessor_evidence (ho.evidence h) ho.items now)

theorem Open.discard (ho : l.Open t) : l.Open t.discardOrphanedTracker.1 := by
  have hitems := discardOrphanedTracker_allItems ho.items
  unfold discardOrphanedTracker at hitems ⊢
  split_ifs at hitems ⊢
  · exact ho
  · exact ho.update rfl rfl hitems (by simp)

theorem Open.collect (h : l.Inv p) (ho : l.Open t) (assigned : Bool) (now : Int) :
    l.Open (t.collectCommit assigned now).1 := by
  cases assigned with
  | false => exact ho.discard
  | true =>
    have hrep := ho.repair h now
    rcases collectCommit_cases t now with ⟨_, heq, _⟩ | ⟨w, _, _, heq, _⟩ | ⟨w, _, _, heq, _⟩
    · rwa [heq]
    · rw [heq]
      exact hrep.update rfl rfl ⟨by simp, hrep.items.buffer⟩ (by simp)
    · rwa [heq]

/-- The ledger after the broker accepted the record of `w`. -/
def accept (l : Ledger T) (w : WorkItem T) : Ledger T :=
  { l with committed := w.offset + 1, accepted := l.accepted ++ [(l.epoch, w.offset)] }

theorem Inv.accept (h : l.Inv p) {w : WorkItem T} (harr : l.Arrived w.stamp)
    (hripe : l.Ripe w.offset) : (l.accept w).Inv p := by
  have hc := hripe.committed_le
  have ho := h.other_le
  unfold Ledger.accept
  apply h.advance
  · omega
  · omega
  · intro x _ hall hlt
    have hw : w.offset < x := hall _ (harr.appended h)
    omega
  · intro x hx hlt
    by_cases hxc : x < l.committed
    · exact h.safe x hx hxc
    · exact hripe.done x hx (by omega) (by omega)
  · intro a ha
    rcases List.mem_append.mp ha with ha | ha
    · have := h.accepted_below a ha
      exact ⟨this.1, by omega⟩
    · rw [List.mem_singleton.mp ha]
      exact ⟨le_rfl, Int.lt_add_one_of_le le_rfl⟩
  · rw [List.pairwise_append]
    refine ⟨h.accepted_increasing, List.pairwise_singleton _ _, ?_⟩
    intro a ha b hb _
    rw [List.mem_singleton.mp hb]
    have := (h.accepted_below a ha).2
    change a.2 < w.offset
    omega

theorem Open.accept (ho : l.Open t) {w : WorkItem T} (hripe : l.Ripe w.offset)
    (hbase : t.committedPlusOne ≤ w.offset) (hnonneg : 0 ≤ w.offset) :
    (l.accept w).Open (t.acceptCommit w.offset).1 := by
  have hc := hripe.committed_le
  have hlast : t.lastCommittedOffset < w.offset := by
    rcases ho.last with ⟨hn, _⟩ | ⟨_, he⟩ <;> omega
  have hcpo : (t.acceptCommit w.offset).1.committedPlusOne = w.offset + 1 := by
    simp only [acceptCommit]
    rw [if_pos (by omega)]
  have hlast' : (t.acceptCommit w.offset).1.lastCommittedOffset = w.offset := by
    simp only [acceptCommit]
    rw [if_pos hlast]
  exact {
    items := acceptCommit_allItems ho.items w.offset
    baseline := fun x _ hx => hcpo ▸ hx
    top := .inl hcpo.le
    anchored := .inl hcpo.ge
    last := .inr ⟨by rw [hlast']; exact hnonneg, by rw [hlast']; rfl⟩
    ready := by simp [acceptCommit] }

/-- The tracker that a reset leaves after a revoke opens the next epoch. -/
theorem Open.reset (h : l.Inv p) (o : Option (OffsetsTracker T))
    (revoked : ∀ t, o = some t → t.assignment = .revoke) {baseline : Int}
    (value : baseline = l.committed ∨ baseline < 0) :
    Open { l with
      epoch := l.epoch + 1
      unknownBaseline := decide (baseline < 0)
      openedAt := l.committed
      fetchPosition := l.committed
      prev := l.prev.reset [p] } (resetCommittedOffset o baseline).1 := by
  have hfields : (resetCommittedOffset o baseline).1.committedPlusOne = baseline ∧
      (resetCommittedOffset o baseline).1.lastCommittedOffset = -1 ∧
      (resetCommittedOffset o baseline).1.ready = none ∧
      (resetCommittedOffset o baseline).1.gapBuffer = [] := by
    cases o with
    | none => simp [resetCommittedOffset]
    | some t => simp [resetCommittedOffset, revoked t rfl]
  obtain ⟨hcpo, hlast, hready, hbuffer⟩ := hfields
  have hnonneg := h.nonneg
  have hle : baseline ≤ l.committed := by rcases value with rfl | hneg <;> omega
  exact {
    items := ⟨by simp [hready], by simp [hbuffer]⟩
    baseline := fun x _ hx => by rw [hcpo]; exact hle.trans hx
    top := .inl (hcpo.le.trans hle)
    anchored := by
      rw [hcpo, hlast]
      rcases value with rfl | hneg
      · exact .inl le_rfl
      · exact .inr ⟨hneg, rfl, by simpa using hneg⟩
    last := .inl ⟨hlast, rfl⟩
    ready := by simp [hready] }

end

end Ledger

end LlingrDemux.Offset
