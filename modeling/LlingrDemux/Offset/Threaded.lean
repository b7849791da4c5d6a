import LlingrDemux.Offset.Backlog
import LlingrDemux.Offset.OpenTracker

/-!
# The chain of an epoch's records

Every completed record of the current epoch at or above the broker's position is
accounted for by the tracker, and the fetched records of an epoch form a chain of
predecessor stamps. So the lowest of them can always be promoted: by the baseline when
it is the epoch's first, else by its link to a record already committed.
-/

namespace LlingrDemux.Offset

open Shared OffsetsTracker Committer
set_option autoImplicit false

variable {T : Type}

namespace Ledger

/-- Work items fetched in a later epoch were read strictly later. -/
def ReadTimesIncrease (l : Ledger T) : Prop :=
  ∀ f ∈ l.history, ∀ f' ∈ l.history, f.epoch < f'.epoch → f.item.readTime < f'.item.readTime

/-- The fetched records of one epoch: one for each offset, linked by their stamps. -/
structure Threaded (l : Ledger T) : Prop where
  unique : ∀ f ∈ l.history, ∀ f' ∈ l.history, f.epoch = f'.epoch → f.offset = f'.offset → f = f'
  chain : ∀ f ∈ l.history, f.item.first = false →
    ∃ f' ∈ l.history, f'.epoch = f.epoch ∧ f'.offset = f.item.previousOffset

/-- What the tracker knows of the current epoch's completed records. -/
structure Tracked (l : Ledger T) (t : OffsetsTracker T) : Prop where
  accounted : ∀ f ∈ l.completed, f.epoch = l.epoch → l.committed ≤ f.offset → t.Accounts f.stamp
  firstRaised : ∀ f ∈ l.completed, f.epoch = l.epoch → f.item.first = true →
    l.committed ≤ f.offset → t.committedPlusOne = f.offset

section
variable {p : Int} {l : Ledger T} {t : OffsetsTracker T}

theorem Threaded.fetch (ht : l.Threaded) (h : l.Inv p) {item : WorkItem T}
    {prev : Prev.PartitionOffsets} (hpos : l.fetchPosition ≤ item.offset)
    (stamped : l.prev.getPrevious p item.offset = (prev, .ok (item.previousOffset, item.first))) :
    Threaded { l with
      fetchPosition := item.offset + 1
      prev := prev
      history := l.history ++ [⟨l.epoch, item⟩] } := by
  obtain ⟨_, _, hstamp⟩ := Prev.PartitionOffsets.getPrevious_ok stamped
  have hmem : ∀ f ∈ l.history ++ [⟨l.epoch, item⟩], f ∈ l.history ∨ f = ⟨l.epoch, item⟩ := by
    intro f hf
    simpa using hf
  -- the new record lies above every record of its epoch
  have habove : ∀ f ∈ l.history, f.epoch = l.epoch → f.offset < item.offset := by
    intro f hf he
    rcases h.position with ⟨_, _, hnone⟩ | ⟨last, _, _, _, hfp, hle⟩
    · exact absurd he (hnone f hf)
    · have := hle f hf he
      omega
  constructor
  · intro f hf f' hf' he ho
    rcases hmem f hf with hf | rfl
    · rcases hmem f' hf' with hf' | rfl
      · exact ht.unique f hf f' hf' he ho
      · have hlt := habove f hf he
        change f.offset = item.offset at ho
        omega
    · rcases hmem f' hf' with hf' | rfl
      · have hlt := habove f' hf' he.symm
        change item.offset = f'.offset at ho
        omega
      · rfl
  · intro f hf hfirst
    rcases hmem f hf with hf | rfl
    · obtain ⟨f', hf', he, ho⟩ := ht.chain f hf hfirst
      exact ⟨f', List.mem_append_left _ hf', he, ho⟩
    · rcases hstamp with ⟨_, _, hf1⟩ | ⟨hs, _, _⟩
      · change item.first = false at hfirst
        simp [hf1] at hfirst
      · rcases h.position with ⟨hn, _⟩ | ⟨last, hlast, he, hl, _, _⟩
        · simp [hn] at hs
        · refine ⟨last, List.mem_append_left _ hlast, he, ?_⟩
          rw [hs, Option.some.injEq] at hl
          exact hl.symm

/-- Among buffered twins a record of the current epoch was read last. -/
theorem Threaded.latest (ht : l.Threaded) (h : l.Inv p) (ho : l.Open t)
    (htimes : l.ReadTimesIncrease) {f : Fetched T} (hf : f ∈ l.history) (he : f.epoch = l.epoch) :
    t.Latest f.stamp := by
  intro g hg hoff htime
  obtain ⟨f', hf', hs⟩ := (ho.items.buffer g hg).history h
  have hle := h.epoch_le f' hf'
  have htime' : f'.item.readTime = g.readTime := congrArg WorkItem.Stamp.readTime hs
  have hoff' : f'.offset = g.offset := congrArg WorkItem.Stamp.offset hs
  by_cases heq : f'.epoch = l.epoch
  · have hff : f' = f := ht.unique f' hf' f hf (heq.trans he.symm) (hoff'.trans hoff)
    rw [← hs, hff]
  · have hlt := htimes f' hf' f hf (by omega)
    change f.item.readTime ≤ g.readTime at htime
    omega

theorem Tracked.complete (htr : l.Tracked t) (h : l.Inv p) (ho : l.Open t) {f : Fetched T}
    (hf : f ∈ l.history) (now : Int) :
    Tracked { l with completed := l.completed ++ [f] }
      (OffsetsTracker.processCommit (some t) f.item now).1 := by
  obtain ⟨lo, hi, harrive⟩ := arrive_some_eq t f.item
  have hmem : ∀ g ∈ l.completed ++ [f], g ∈ l.completed ∨ g = f := by
    intro g hg
    simpa using hg
  have hcpo : (OffsetsTracker.processCommit (some t) f.item now).1.committedPlusOne =
      if f.item.first ∧ f.item.offset ≥ t.committedPlusOne then f.item.offset
        else t.committedPlusOne := by
    rw [OffsetsTracker.processCommit, checkAndAdvance_committedPlusOne, harrive]
  have hbase : f.epoch = l.epoch → l.committed ≤ f.offset → t.committedPlusOne ≤ f.offset :=
    fun he hc => ho.baseline _ (.inr ⟨f, hf, he, rfl⟩) hc
  constructor
  · intro g hg he hc
    rcases hmem g hg with hg | rfl
    · apply checkAndAdvance_accounts
      rw [harrive]
      exact htr.accounted g hg he hc
    · have hle : (arrive (some t) g.item).committedPlusOne ≤ (markFirst g.item).offset := by
        have hb := hbase he hc
        rw [harrive, offset_markFirst]
        split_ifs
        · exact le_rfl
        · exact hb
      have hself : ((arrive (some t) g.item).checkAndAdvance (markFirst g.item) now).1.Accounts
          (markFirst g.item).stamp := checkAndAdvance_accounts_self hle
      rwa [stamp_markFirst] at hself
  · intro g hg he hfirst hc
    rw [hcpo]
    rcases hmem g hg with hg | rfl
    · have hg' := htr.firstRaised g hg he hfirst hc
      split_ifs with hraise
      · -- a later raise stays below the first record, which is live
        have hle := h.first f hf hraise.1 g.offset
          (.inr ⟨g, h.completed_history g hg, he, rfl⟩) hc
        have hge := hraise.2
        change f.offset ≥ t.committedPlusOne at hge
        change f.offset = g.offset
        omega
      · exact hg'
    · rw [if_pos ⟨hfirst, hbase he hc⟩]
      rfl

/-- Below every record left of the epoch there is one that is the epoch's first or is
linked to a committed record. -/
theorem Threaded.exists_front (ht : l.Threaded) (h : l.Inv p) {f : Fetched T} (hf : f ∈ l.history)
    (he : f.epoch = l.epoch) (hc : l.committed ≤ f.offset) :
    ∃ g ∈ l.history, g.epoch = l.epoch ∧ l.committed ≤ g.offset ∧
      (g.item.first = true ∨ ∃ f' ∈ l.history, f'.epoch = l.epoch ∧
        f'.offset = g.item.previousOffset ∧ f'.offset < l.committed) := by
  -- follow the predecessor links down; each step lowers the offset
  induction hn : (f.offset - l.committed).toNat using Nat.strong_induction_on generalizing f with
  | _ n ih =>
    cases hfirst : f.item.first with
    | true => exact ⟨f, hf, he, hc, .inl hfirst⟩
    | false =>
      obtain ⟨f', hf', he', ho'⟩ := ht.chain f hf hfirst
      by_cases hc' : l.committed ≤ f'.offset
      · have hlt := h.stamp_below f hf
        exact ih (f'.offset - l.committed).toNat (by omega) hf' (he'.trans he) hc' rfl
      · exact ⟨f, hf, he, hc, .inr ⟨f', hf', he'.trans he, ho', by omega⟩⟩

/-- While a record of the epoch is left, the tick's repair ends with a `Ready` item. -/
theorem Tracked.repaired_ready (htr : l.Tracked t) (h : l.Inv p) (ho : l.Open t)
    (ht : l.Threaded) (htimes : l.ReadTimesIncrease) (hpoised : t.Poised)
    (hdone : ∀ f ∈ l.history, f.epoch = l.epoch → f ∈ l.completed) {f : Fetched T}
    (hf : f ∈ l.history) (he : f.epoch = l.epoch) (hc : l.committed ≤ f.offset)
    (slices : SortFunc (WorkItem T)) (k : PartitionTick) :
    (t.repaired slices k).ready.isSome = true := by
  obtain ⟨f₀, hf₀, he₀, hc₀, hfront⟩ := ht.exists_front h hf he hc
  have hbase := ho.baseline f₀.offset (.inr ⟨f₀, hf₀, he₀, rfl⟩) hc₀
  have hacc : (t.flush slices k.flushTime).1.Accounts f₀.stamp :=
    flush_accounts slices k.flushTime (htr.accounted f₀ (hdone f₀ hf₀ he₀) he₀ hc₀)
      (ht.latest h ho htimes hf₀ he₀) hbase
  have hraised : f₀.item.first = true → t.committedPlusOne = f₀.offset :=
    fun hfirst => htr.firstRaised f₀ (hdone f₀ hf₀ he₀) he₀ hfirst hc₀
  unfold repaired
  rcases repairSuccessor_cases (t.flush slices k.flushTime).1 k.repairTime with
    ⟨heq, hnot⟩ | ⟨s, _, _, _, _, heq⟩
  · rw [heq]
    rcases hacc with ⟨r, hr, _⟩ | ⟨g, hg, hgs⟩
    · simp [hr]
    · by_contra hsome
      have hnone : (t.flush slices k.flushTime).1.ready = none := by simpa using hsome
      have hgo : g.offset = f₀.offset := congrArg WorkItem.Stamp.offset hgs
      have hgp : g.previousOffset = f₀.item.previousOffset :=
        congrArg WorkItem.Stamp.previousOffset hgs
      rcases ho.last with ⟨_, hopened⟩ | ⟨hpos, hlast⟩
      · -- nothing is committed yet, so the front is the first record, at the baseline
        have hfirst : f₀.item.first = true := by
          rcases hfront with hfirst | ⟨f', hf', he', _, hlt⟩
          · exact hfirst
          · have := h.current_opened f' hf' he'
            omega
        have hflag := flush_poised slices k.flushTime hpoised hnone g hg (by
          rw [flush_committedPlusOne, hraised hfirst, hgo])
        rw [flush_unflagged] at hflag
        cases hflag
      · refine hnot hnone (flush_unflagged slices k.flushTime) (by simpa using hpos) g hg ?_
        rw [flush_committedPlusOne, flush_lastCommittedOffset]
        refine ⟨by omega, ?_⟩
        rcases hfront with hfirst | ⟨f', hf', _, ho', hlt⟩
        · exact .inl (hgo.trans (hraised hfirst).symm)
        · have := h.offset_nonneg hf'
          exact .inr ⟨by omega, by omega⟩
  · rw [heq]
    rfl

/-- An unaccepted tick keeps what the tracker knows. -/
theorem Tracked.tick (htr : l.Tracked t) (h : l.Inv p) (ho : l.Open t) (ht : l.Threaded)
    (htimes : l.ReadTimesIncrease)
    (unique : ∀ a ∈ t.gapBuffer, ∀ b ∈ t.gapBuffer, a.ptr = b.ptr → a.stamp = b.stamp)
    (slices : SortFunc (WorkItem T)) (k : PartitionTick)
    (hnone : (t.tick slices true k).2 = none ∨ k.accepted = false) :
    l.Tracked (t.tick slices true k).1 := by
  constructor
  · intro f hf he hc
    have hhist := h.completed_history f hf
    rcases tick_accounts slices k (htr.accounted f hf he hc) (ht.latest h ho htimes hhist he)
      (ho.baseline f.offset (.inr ⟨f, hhist, he, rfl⟩) hc) unique with hacc | ⟨m, hm, hk, _⟩
    · exact hacc
    · rcases hnone with hnone | hrej
      · simp [hm] at hnone
      · simp [hk] at hrej
  · intro f hf he hfirst hc
    have hcpo : (t.tick slices true k).1.committedPlusOne = t.committedPlusOne := by
      rcases tick_assigned_cases slices t k with ⟨_, heq⟩ | ⟨m, flag, _, _, heq⟩ | ⟨m, _, _, heq⟩
      · simp [heq]
      · simp [heq]
      · rcases hnone with hnone | hrej
        · simp [heq] at hnone
        · simp [heq, hrej]
    rw [hcpo]
    exact htr.firstRaised f hf he hfirst hc

theorem Tracked.accept (htr : l.Tracked t) (h : l.Inv p) (ho : l.Open t) (ht : l.Threaded)
    (htimes : l.ReadTimesIncrease)
    (unique : ∀ a ∈ t.gapBuffer, ∀ b ∈ t.gapBuffer, a.ptr = b.ptr → a.stamp = b.stamp)
    (slices : SortFunc (WorkItem T)) (k : PartitionTick) {m : WorkItem T}
    (hm : (t.tick slices true k).2 = some m) (hle : l.committed ≤ m.offset) :
    (l.accept m).Tracked (t.tick slices true k).1 := by
  constructor
  · intro f hf he hc
    change m.offset + 1 ≤ f.offset at hc
    have hhist := h.completed_history f hf
    rcases tick_accounts slices k (htr.accounted f hf he (by omega))
      (ht.latest h ho htimes hhist he)
      (ho.baseline f.offset (.inr ⟨f, hhist, he, rfl⟩) (by omega)) unique with
        hacc | ⟨m', hm', _, hlt⟩
    · exact hacc
    · rw [hm, Option.some.injEq] at hm'
      subst m'
      change f.offset ≤ m.offset at hlt
      omega
  · intro f hf he hfirst hc
    change m.offset + 1 ≤ f.offset at hc
    have hcpo := htr.firstRaised f hf he hfirst (by omega)
    rcases tick_assigned_cases slices t k with ⟨_, heq⟩ | ⟨_, _, _, _, heq⟩ | ⟨m', _, hbase, heq⟩
    · simp [heq] at hm
    · simp [heq] at hm
    · rw [heq] at hm
      cases hm
      omega

end

end Ledger

end LlingrDemux.Offset
