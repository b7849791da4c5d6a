import LlingrDemux.Offset.Accounting
import LlingrDemux.Offset.Backlog
import LlingrDemux.Offset.DeferredFlag
import LlingrDemux.Offset.Independence
import Mathlib.Logic.Relation

/-!
# What one tick promotes from the gap buffer

The exact walk over the sorted buffer and the repair's scan over the unsorted one run
one after the other. Together they take the lowest provable item, followed by what the
walk can link to it, and they do so whatever order the buffer is in.
-/

namespace LlingrDemux.Offset

open Shared
set_option autoImplicit false

variable {T : Type}

namespace OffsetsTracker

/-- A buffered item whose stamp names the record of `a` as its predecessor. -/
def Follows (l : List (WorkItem T)) (a b : WorkItem T) : Prop :=
  b ∈ l ∧ b.previousOffset = a.offset ∧ a.offset < b.offset

section Links
variable {l l' : List (WorkItem T)} {a b : WorkItem T}

theorem Follows.mono (hsub : ∀ g ∈ l, g ∈ l') (h : Relation.ReflTransGen (Follows l) a b) :
    Relation.ReflTransGen (Follows l') a b :=
  Relation.ReflTransGen.mono (fun _ g (hg : Follows l _ g) => ⟨hsub g hg.1, hg.2⟩) a b h

theorem Follows.le (h : Relation.ReflTransGen (Follows l) a b) : a.offset ≤ b.offset := by
  induction h with
  | refl => exact le_rfl
  | tail _ hstep ih => exact ih.trans hstep.2.2.le

theorem Follows.mem (ha : a ∈ l) (h : Relation.ReflTransGen (Follows l) a b) : b ∈ l := by
  cases h with
  | refl => exact ha
  | tail _ hstep => exact hstep.1

theorem mem_cons_and_iff (P : WorkItem T → Prop) {x : WorkItem T} (hx : ¬ P x) (g : WorkItem T) :
    g ∈ l ∧ P g ↔ g ∈ x :: l ∧ P g := by
  rw [List.mem_cons]
  constructor
  · exact fun h => ⟨.inr h.1, h.2⟩
  · rintro ⟨rfl | hg, hP⟩
    · exact absurd hP hx
    · exact ⟨hg, hP⟩

end Links

/-! ## The walk -/

section Walk
variable {cpo last now : Int}

/-- With a `Ready` item below the whole buffer the walk follows the links and stops at the
first item that does not link. -/
theorem walk_some_links {l : List (WorkItem T)} (hl : l.Pairwise fun a b => a.offset < b.offset)
    {r a : WorkItem T} (hr : r.offset = a.offset) (habove : ∀ g ∈ l, a.offset < g.offset) :
    ∃ m b, (walk cpo last now (some r) l).ready = some m ∧ m.offset = b.offset ∧
      Relation.ReflTransGen (Follows l) a b ∧
      ∀ g, g ∈ (walk cpo last now (some r) l).rest ↔ g ∈ l ∧ b.offset < g.offset := by
  induction l generalizing r a with
  | nil => exact ⟨r, a, rfl, hr, .refl, by simp [walk]⟩
  | cons x xs ih =>
    obtain ⟨hx, hxs⟩ := List.pairwise_cons.mp hl
    have hax := habove x List.mem_cons_self
    simp only [walk, hr, not_le.mpr hax, if_false]
    split_ifs with hlink
    · obtain ⟨m, b, hm, hmb, hchain, hrest⟩ := ih hxs (a := x)
        (r := x.setWatermarkAdvanceTime now) rfl hx
      refine ⟨m, b, hm, hmb, .head ⟨List.mem_cons_self, hlink.symm, hax⟩
        (Follows.mono (fun g hg => List.mem_cons_of_mem x hg) hchain), ?_⟩
      exact fun g => (hrest g).trans
        (mem_cons_and_iff (b.offset < ·.offset) (not_lt.mpr (Follows.le hchain)) g)
    · exact ⟨r, a, rfl, hr, .refl, fun g => ⟨fun hg => ⟨hg, habove g hg⟩, And.left⟩⟩

/-- Without a `Ready` item the walk prunes what lies below the baseline and then promotes
the lowest item left, or nothing. -/
theorem walk_none_links (cpo last now : Int) {l : List (WorkItem T)}
    (hl : l.Pairwise fun a b => a.offset < b.offset) :
    ((walk cpo last now none l).ready = none ∧
      ∀ g, g ∈ (walk cpo last now none l).rest ↔ g ∈ l ∧ cpo ≤ g.offset) ∨
    ∃ m a b, (walk cpo last now none l).ready = some m ∧ a ∈ l ∧ cpo ≤ a.offset ∧
      (a.offset = cpo ∨ (0 ≤ last ∧ a.previousOffset = last)) ∧
      (∀ g ∈ l, cpo ≤ g.offset → a.offset ≤ g.offset) ∧ m.offset = b.offset ∧
      Relation.ReflTransGen (Follows l) a b ∧
      ∀ g, g ∈ (walk cpo last now none l).rest ↔ g ∈ l ∧ b.offset < g.offset := by
  induction l with
  | nil => exact .inl ⟨rfl, by simp [walk]⟩
  | cons x xs ih =>
    obtain ⟨hx, hxs⟩ := List.pairwise_cons.mp hl
    have hsub : ∀ g ∈ xs, g ∈ x :: xs := fun g hg => List.mem_cons_of_mem x hg
    simp only [walk]
    split_ifs with hlt hinit
    · rcases ih hxs with ⟨hnone, hrest⟩ | ⟨m, a, b, hm, ha, hge, hinit, hmin, hmb, hchain, hrest⟩
      · exact .inl ⟨hnone, fun g => (hrest g).trans
          (mem_cons_and_iff (cpo ≤ ·.offset) (not_le.mpr hlt) g)⟩
      · refine .inr ⟨m, a, b, hm, hsub a ha, hge, hinit, ?_, hmb, Follows.mono hsub hchain, ?_⟩
        · intro g hg hle
          rcases List.mem_cons.mp hg with rfl | hg
          · omega
          · exact hmin g hg hle
        · have hxb : ¬ b.offset < x.offset := by
            have := Follows.le hchain
            omega
          exact fun g => (hrest g).trans (mem_cons_and_iff (b.offset < ·.offset) hxb g)
    · obtain ⟨m, b, hm, hmb, hchain, hrest⟩ :=
        walk_some_links (r := x.setWatermarkAdvanceTime now) (a := x) hxs rfl hx
      refine .inr ⟨m, x, b, hm, List.mem_cons_self, not_lt.mp hlt, hinit, ?_, hmb,
        Follows.mono hsub hchain, ?_⟩
      · intro g hg _
        rcases List.mem_cons.mp hg with rfl | hg
        · exact le_rfl
        · exact (hx g hg).le
      · exact fun g => (hrest g).trans
          (mem_cons_and_iff (b.offset < ·.offset) (not_lt.mpr (Follows.le hchain)) g)
    · refine .inl ⟨rfl, fun g => ⟨fun hg => ⟨hg, ?_⟩, And.left⟩⟩
      rcases List.mem_cons.mp hg with rfl | hg
      · exact not_lt.mp hlt
      · have := hx g hg
        omega

end Walk

/-! ## Flush and repair -/

section Promote
variable {slices : SortFunc (WorkItem T)} {t : OffsetsTracker T}

/-- The lowest provable item of the buffer. -/
structure Lowest (t : OffsetsTracker T) (a : WorkItem T) : Prop where
  mem : a ∈ t.gapBuffer
  provable : Provable t.committedPlusOne t.lastCommittedOffset a
  le : ∀ g ∈ t.gapBuffer, Provable t.committedPlusOne t.lastCommittedOffset g →
    a.offset ≤ g.offset

theorem mem_sortGapBuffer_iff (slices : SortFunc (WorkItem T)) {buffer : List (WorkItem T)}
    (offsets : (buffer.map WorkItem.offset).Nodup) (g : WorkItem T) :
    g ∈ sortGapBuffer slices buffer ↔ g ∈ buffer := by
  refine ⟨mem_of_mem_sortGapBuffer slices buffer, ?_⟩
  intro hg
  obtain ⟨s, hs, hoffset, _⟩ := sortGapBuffer_keeps slices buffer hg
  rwa [← List.inj_on_of_nodup_map offsets (mem_of_mem_sortGapBuffer slices buffer hs) hg hoffset]

/-- The flush promotes nothing and leaves at least what is not below the baseline, or it
promotes the lowest provable item and what links to it. -/
theorem flush_promotes (slices : SortFunc (WorkItem T)) (idle : t.ready = none)
    (anchored : 0 ≤ t.lastCommittedOffset) (offsets : (t.gapBuffer.map WorkItem.offset).Nodup) (now : Int) :
    ((t.flush slices now).1.ready = none ∧
      (∀ g ∈ (t.flush slices now).1.gapBuffer, g ∈ t.gapBuffer) ∧
      ∀ g ∈ t.gapBuffer, t.committedPlusOne ≤ g.offset → g ∈ (t.flush slices now).1.gapBuffer) ∨
    ∃ m a b, (t.flush slices now).1.ready = some m ∧ t.Lowest a ∧ m.offset = b.offset ∧
      Relation.ReflTransGen (Follows t.gapBuffer) a b ∧
      ∀ g, g ∈ (t.flush slices now).1.gapBuffer ↔ g ∈ t.gapBuffer ∧ b.offset < g.offset := by
  unfold flush
  split_ifs with hflag hempty
  · exact .inl ⟨idle, fun g hg => hg, fun g hg _ => hg⟩
  · exact .inl ⟨idle, fun g hg => hg, fun g hg _ => hg⟩
  · have hmem := mem_sortGapBuffer_iff slices offsets
    rw [sortAndWalk, idle]
    rcases walk_none_links t.committedPlusOne t.lastCommittedOffset now
      (sortGapBuffer_strict slices t.gapBuffer) with
      ⟨hnone, hrest⟩ | ⟨m, a, b, hm, ha, hge, hinit, hmin, hmb, hchain, hrest⟩
    · refine .inl ⟨hnone, fun g hg => (hmem g).mp ((hrest g).mp hg).1, fun g hg hle => ?_⟩
      exact (hrest g).mpr ⟨(hmem g).mpr hg, hle⟩
    · refine .inr ⟨m, a, b, hm, ⟨(hmem a).mp ha, ⟨hge, ?_⟩, ?_⟩, hmb,
        Follows.mono (fun g hg => (hmem g).mp hg) hchain, ?_⟩
      · exact hinit.imp_right fun h => by omega
      · exact fun g hg hp => hmin g ((hmem g).mpr hg) hp.1
      · intro g
        rw [hrest g, hmem g]

/-- What the tick has in hand after flush and repair: nothing, when no item is provable, or
the end of the chain of links from the lowest provable item, with what lies above it. -/
theorem repaired_promotes (slices : SortFunc (WorkItem T)) (idle : t.ready = none)
    (anchored : 0 ≤ t.lastCommittedOffset) (offsets : (t.gapBuffer.map WorkItem.offset).Nodup)
    (objects : (t.gapBuffer.map WorkItem.ptr).Nodup) (k : PartitionTick) :
    ((t.repaired slices k).ready = none ∧
      ∀ g ∈ t.gapBuffer, ¬ Provable t.committedPlusOne t.lastCommittedOffset g) ∨
    ∃ m a b, (t.repaired slices k).ready = some m ∧ t.Lowest a ∧ m.offset = b.offset ∧
      Relation.ReflTransGen (Follows t.gapBuffer) a b ∧
      ((t.flush slices k.flushTime).1.ready = none → b = a) ∧
      ∀ g, g ∈ (t.repaired slices k).gapBuffer ↔ g ∈ t.gapBuffer ∧ b.offset < g.offset := by
  have hunflagged := flush_unflagged slices (t := t) k.flushTime
  rcases flush_promotes slices idle anchored offsets k.flushTime with
    ⟨hnone, hsub, hkept⟩ | ⟨m, a, b, hm, hlow, hmb, hchain, hrest⟩
  · rcases repairSuccessor_cases (t.flush slices k.flushTime).1 k.repairTime with
      ⟨heq, hno⟩ | ⟨s, hs, _, _, _, heq⟩
    · refine .inl ⟨by rw [repaired, heq]; exact hnone, ?_⟩
      intro g hg hp
      have hno' := hno hnone hunflagged (by simpa using anchored) g (hkept g hg hp.1)
      simp only [flush_committedPlusOne, flush_lastCommittedOffset] at hno'
      exact hno' hp
    · obtain ⟨hmem, hprov, hmin⟩ := findSuccessor_some hs
      simp only [flush_committedPlusOne, flush_lastCommittedOffset] at hprov hmin
      refine .inr ⟨s.setWatermarkAdvanceTime k.repairTime, s, s, by rw [repaired, heq],
        ⟨hsub s hmem, hprov, fun g hg hp => ?_⟩, rfl, .refl, fun _ => rfl, ?_⟩
      · exact hmin g (hkept g hg hp.1) hp
      · intro g
        rw [repaired, heq, List.mem_filter]
        simp only [Bool.and_eq_true, Bool.not_eq_true', beq_eq_false_iff_ne, decide_eq_false_iff_not]
        constructor
        · rintro ⟨hg, hptr, hge⟩
          refine ⟨hsub g hg, lt_of_le_of_ne (not_lt.mp hge) fun he => hptr ?_⟩
          rw [List.inj_on_of_nodup_map offsets (hsub s hmem) (hsub g hg) he]
        · rintro ⟨hg, hlt⟩
          refine ⟨hkept g hg (hprov.1.trans hlt.le), fun he => ?_, hlt.not_gt⟩
          rw [List.inj_on_of_nodup_map objects hg (hsub s hmem) he] at hlt
          exact lt_irrefl _ hlt
  · have hrep : t.repaired slices k = (t.flush slices k.flushTime).1 := by
      rw [repaired, repairSuccessor]
      simp [hm]
    rw [hrep]
    exact .inr ⟨m, a, b, hm, hlow, hmb, hchain, fun h => by simp [hm] at h, hrest⟩

theorem compacted_of_distinct (offsets : (t.gapBuffer.map WorkItem.offset).Nodup) :
    t.compacted slices = [] := by
  unfold compacted
  split_ifs
  · apply List.filter_eq_nil_iff.mpr
    intro g hg hall
    have := List.all_eq_true.mp hall g ((mem_sortGapBuffer_iff slices offsets g).mpr hg)
    simp at this
  · rfl

/-- A tick whose commit is accepted moves baseline and anchor to the end of the chain, keeps
what lies above it and retires what lies below. -/
theorem tick_promotes (slices : SortFunc (WorkItem T)) (idle : t.ready = none)
    (anchored : 0 ≤ t.lastCommittedOffset) (above : t.lastCommittedOffset < t.committedPlusOne)
    (offsets : (t.gapBuffer.map WorkItem.offset).Nodup)
    (objects : (t.gapBuffer.map WorkItem.ptr).Nodup) {k : PartitionTick} (accepted : k.accepted = true) :
    ((t.tick slices true k).2 = none ∧
      ∀ g ∈ t.gapBuffer, ¬ Provable t.committedPlusOne t.lastCommittedOffset g) ∨
    ∃ m a b, (t.tick slices true k).2 = some m ∧ t.Lowest a ∧ m.offset = b.offset ∧
      Relation.ReflTransGen (Follows t.gapBuffer) a b ∧
      ((t.flush slices k.flushTime).1.ready = none → b = a) ∧
      (t.tick slices true k).1.committedPlusOne = b.offset + 1 ∧
      (t.tick slices true k).1.lastCommittedOffset = b.offset ∧
      (∀ g, g ∈ (t.tick slices true k).1.gapBuffer ↔ g ∈ t.gapBuffer ∧ b.offset < g.offset) ∧
      ∀ g ∈ t.gapBuffer, g.offset < b.offset →
        ∃ w ∈ t.tickRetired slices true k, w.stamp = g.stamp := by
  rcases repaired_promotes slices idle anchored offsets objects k with
    ⟨hnone, hno⟩ | ⟨m, a, b, hm, hlow, hmb, hchain, hflush, hrest⟩
  · rcases tick_assigned_cases slices t k with ⟨_, heq⟩ | ⟨m, _, hm, _⟩ | ⟨m, hm, _⟩
    · exact .inl ⟨by rw [heq], hno⟩
    · simp [hnone] at hm
    · simp [hnone] at hm
  · have hbase : t.committedPlusOne ≤ b.offset := hlow.provable.1.trans (Follows.le hchain)
    have htick : t.tick slices true k = (((t.repaired slices k).acceptCommit m.offset).1, some m) := by
      rcases tick_assigned_cases slices t k with ⟨hnone, _⟩ | ⟨m', _, hm', hlt, _⟩ | ⟨m', hm', _, heq⟩
      · simp [hm] at hnone
      · rw [hm] at hm'
        cases hm'
        omega
      · rw [hm] at hm'
        cases hm'
        rw [heq, if_pos accepted]
    have hlast : (t.repaired slices k).lastCommittedOffset = t.lastCommittedOffset := by
      simp [repaired]
    have hkept : ∀ g, g ∈ (t.tick slices true k).1.gapBuffer ↔
        g ∈ t.gapBuffer ∧ b.offset < g.offset := by
      intro g
      rw [htick]
      exact hrest g
    refine .inr ⟨m, a, b, by rw [htick], hlow, hmb, hchain, hflush, ?_, ?_, hkept, ?_⟩
    · rw [htick]
      simp only [acceptCommit, repaired_committedPlusOne, hmb]
      omega
    · rw [htick]
      simp only [acceptCommit, hlast, hmb]
      omega
    · intro g hg hlt
      have hcount := tick_conserves (a := g.stamp) slices (t := t)
        (by simpa [held, idle] using objects) true k
      have hbefore : 0 < tally g.stamp t.held := tally_pos.mpr ⟨g, by simp [held, hg], rfl⟩
      have hafter : tally g.stamp (t.tick slices true k).1.held = 0 := by
        by_contra hpos
        obtain ⟨w, hw, hstamp⟩ := tally_pos.mp (Nat.pos_of_ne_zero hpos)
        have hready : (t.tick slices true k).1.ready = none := by
          rw [htick]
          rfl
        simp only [held, hready, Option.toList_none, List.nil_append] at hw
        have hgt := ((hkept w).mp hw).2
        have := WorkItem.offset_of_stamp hstamp
        omega
      rw [hafter, compacted_of_distinct offsets, tally_nil] at hcount
      exact tally_pos.mp (by omega)

/-- Without the flag and without a provable item the tick leaves the tracker alone. -/
theorem tick_unchanged (idle : t.ready = none) (unflagged : t.needsGapAdvance = false)
    (hno : ∀ g ∈ t.gapBuffer, ¬ Provable t.committedPlusOne t.lastCommittedOffset g) (k : PartitionTick) :
    t.tick slices true k = (t, none) := by
  have hflush : (t.flush slices k.flushTime).1 = t := by simp [flush, unflagged]
  have hrep : t.repaired slices k = t := by
    rw [repaired, hflush]
    rcases repairSuccessor_cases t k.repairTime with ⟨heq, _⟩ | ⟨s, hs, _⟩
    · rw [heq]
    · obtain ⟨hmem, hprov, _⟩ := findSuccessor_some hs
      exact absurd hprov (hno s hmem)
  rcases tick_assigned_cases slices t k with ⟨_, heq⟩ | ⟨m, _, hm, _⟩ | ⟨m, hm, _⟩
  · rw [heq, hrep]
  · simp [hrep, idle] at hm
  · simp [hrep, idle] at hm

end Promote

/-! ## The order of the buffer -/

/-- The same tracker with its buffer in another order. -/
def Reordered (t u : OffsetsTracker T) : Prop :=
  ∃ l, u = { t with gapBuffer := l } ∧ l.Perm t.gapBuffer

section Order
variable {t u : OffsetsTracker T}

theorem eq_nil_iff_of_perm {l l' : List (WorkItem T)} (h : l.Perm l') : l = [] ↔ l' = [] := by
  constructor
  · rintro rfl
    exact h.nil_eq.symm
  · rintro rfl
    exact h.eq_nil

theorem sortGapBuffer_perm (slices : SortFunc (WorkItem T)) {l l' : List (WorkItem T)}
    (h : l.Perm l') (offsets : (l'.map WorkItem.offset).Nodup) :
    sortGapBuffer slices l = sortGapBuffer slices l' := by
  have hnodup : ∀ r : List (WorkItem T), (sortGapBuffer slices r).Nodup := by
    intro r
    apply (sortGapBuffer_strict slices r).imp
    intro g x hlt he
    exact absurd (congrArg WorkItem.offset he) hlt.ne
  have hperm : (sortGapBuffer slices l).Perm (sortGapBuffer slices l') := by
    apply (List.perm_ext_iff_of_nodup (hnodup l) (hnodup l')).mpr
    intro g
    rw [mem_sortGapBuffer_iff slices ((h.map _).nodup_iff.mpr offsets),
      mem_sortGapBuffer_iff slices offsets]
    exact h.mem_iff
  apply hperm.eq_of_pairwise ?_ (sortGapBuffer_strict slices l) (sortGapBuffer_strict slices l')
  intro a b _ _ hab hba
  exact absurd hab hba.not_gt

theorem Reordered.flush (h : t.Reordered u) (offsets : (t.gapBuffer.map WorkItem.offset).Nodup)
    (slices : SortFunc (WorkItem T)) (now : Int) :
    (t.flush slices now).1.Reordered (u.flush slices now).1 := by
  obtain ⟨l, rfl, hl⟩ := h
  unfold OffsetsTracker.flush
  simp only [eq_nil_iff_of_perm hl]
  split_ifs
  · exact ⟨l, rfl, hl⟩
  · exact ⟨l, rfl, hl⟩
  · exact ⟨_, by simp only [sortAndWalk, sortGapBuffer_perm slices hl offsets], .refl _⟩

theorem Reordered.findSuccessor (h : t.Reordered u)
    (offsets : (t.gapBuffer.map WorkItem.offset).Nodup) : u.findSuccessor = t.findSuccessor := by
  obtain ⟨l, rfl, hl⟩ := h
  cases ht : t.findSuccessor with
  | none =>
    cases hu : OffsetsTracker.findSuccessor { t with gapBuffer := l } with
    | none => rfl
    | some s =>
      obtain ⟨hmem, hprov, _⟩ := findSuccessor_some hu
      exact absurd hprov (findSuccessor_none ht s (hl.mem_iff.mp hmem))
  | some s =>
    obtain ⟨hmem, hprov, hmin⟩ := findSuccessor_some ht
    cases hu : OffsetsTracker.findSuccessor { t with gapBuffer := l } with
    | none => exact absurd hprov (findSuccessor_none hu s (hl.mem_iff.mpr hmem))
    | some s' =>
      obtain ⟨hmem', hprov', hmin'⟩ := findSuccessor_some hu
      have hle := hmin s' (hl.mem_iff.mp hmem') hprov'
      have hge := hmin' s (hl.mem_iff.mpr hmem) hprov
      rw [List.inj_on_of_nodup_map offsets (hl.mem_iff.mp hmem') hmem (le_antisymm hge hle)]

theorem Reordered.repairSuccessor (h : t.Reordered u)
    (offsets : (t.gapBuffer.map WorkItem.offset).Nodup) (now : Int) :
    (t.repairSuccessor now).1.Reordered (u.repairSuccessor now).1 := by
  have hfind := h.findSuccessor offsets
  obtain ⟨l, rfl, hl⟩ := h
  simp only [OffsetsTracker.repairSuccessor, hfind, eq_nil_iff_of_perm hl]
  split_ifs
  · exact ⟨l, rfl, hl⟩
  · cases t.findSuccessor with
    | none => exact ⟨l, rfl, hl⟩
    | some s =>
      have hkept := hl.filter fun g => !(g.ptr == s.ptr) && !decide (g.offset < s.offset)
      exact ⟨_, by simp only [ne_eq, eq_nil_iff_of_perm hkept], hkept⟩

theorem Reordered.collectCommit (h : t.Reordered u)
    (offsets : (t.gapBuffer.map WorkItem.offset).Nodup) (now : Int) :
    (t.collectCommit true now).1.Reordered (u.collectCommit true now).1 ∧
      (u.collectCommit true now).2.2 = (t.collectCommit true now).2.2 := by
  obtain ⟨l, heq, hl⟩ := h.repairSuccessor offsets now
  simp only [OffsetsTracker.collectCommit, Bool.not_true, Bool.false_eq_true, if_false,
    repairSuccessor_guarded, heq]
  generalize t.repairSuccessor now = q at hl ⊢
  obtain ⟨⟨ready, assignment, low, high, buffer, flag, cpo, last⟩, retired⟩ := q
  cases ready with
  | none => exact ⟨⟨l, rfl, hl⟩, rfl⟩
  | some w =>
    simp only
    split_ifs
    · exact ⟨⟨l, by simp only [ne_eq, eq_nil_iff_of_perm hl], hl⟩, rfl⟩
    · exact ⟨⟨l, rfl, hl⟩, rfl⟩

theorem flush_offsets (offsets : (t.gapBuffer.map WorkItem.offset).Nodup)
    (slices : SortFunc (WorkItem T)) (now : Int) :
    ((t.flush slices now).1.gapBuffer.map WorkItem.offset).Nodup := by
  unfold OffsetsTracker.flush
  split_ifs
  · exact offsets
  · exact offsets
  · apply List.pairwise_map.mpr
    refine ((sortGapBuffer_strict slices t.gapBuffer).sublist
      (walk_rest_suffix _ _ _ _ _).sublist).imp ?_
    exact fun hlt => hlt.ne

theorem Reordered.tick (h : t.Reordered u) (offsets : (t.gapBuffer.map WorkItem.offset).Nodup)
    (slices : SortFunc (WorkItem T)) (k : PartitionTick) :
    (t.tick slices true k).1.Reordered (u.tick slices true k).1 ∧
      (u.tick slices true k).2 = (t.tick slices true k).2 := by
  obtain ⟨⟨l, heq, hl⟩, hoffered⟩ := (h.flush offsets slices k.flushTime).collectCommit
    (flush_offsets offsets slices k.flushTime) k.repairTime
  simp only [OffsetsTracker.tick, hoffered, heq]
  cases ((t.flush slices k.flushTime).1.collectCommit true k.repairTime).2.2 with
  | none => exact ⟨⟨l, rfl, hl⟩, rfl⟩
  | some w =>
    dsimp only
    split_ifs
    · exact ⟨⟨l, by simp only [acceptCommit, ne_eq, eq_nil_iff_of_perm hl], hl⟩, rfl⟩
    · exact ⟨⟨l, rfl, hl⟩, rfl⟩

end Order

end OffsetsTracker

/-! ## One call of the committer -/

/-- The committer with the buffer of partition `p` in the given order. -/
def Committer.withBuffer (c : Committer T) (p : Int) (l : List (WorkItem T)) : Committer T :=
  { c with
    partitionMap := Function.update c.partitionMap p
      ((c.partitionMap p).map fun t => { t with gapBuffer := l }) }

section Call
variable {slices : SortFunc (WorkItem T)} {c : Committer T} {p : Int} {t : OffsetsTracker T}
  {k : Tick}

theorem Committer.Iterates.withBuffer {order : List Int} (h : c.Iterates order)
    (l : List (WorkItem T)) : (c.withBuffer p l).Iterates order := by
  refine ⟨h.1, fun q => (h.2 q).trans ?_⟩
  by_cases hq : q = p
  · subst hq
    simp [Committer.withBuffer]
  · simp [Committer.withBuffer, Function.update_of_ne hq]

theorem Committer.Keyed.withBuffer (hk : c.Keyed) (tracked : c.partitionMap p = some t)
    {l : List (WorkItem T)} (hl : l.Perm t.gapBuffer) : (c.withBuffer p l).Keyed := by
  intro q u hu
  by_cases hq : q = p
  · subst hq
    simp only [Committer.withBuffer, tracked, Option.map_some, Function.update_self] at hu
    cases hu
    exact ⟨(hk q t tracked).ready, fun g hg => (hk q t tracked).buffer g (hl.mem_iff.mp hg)⟩
  · simp only [Committer.withBuffer, Function.update_of_ne hq] at hu
    exact hk q u hu

/-- What an accepted call does to one assigned partition. -/
theorem commitOffsets_accepted (slices : SortFunc (WorkItem T)) (hk : c.Keyed)
    (legal : (Call.commitOffsets k).Legal c)
    (guard : k.guardAcquired = true) (accepted : k.accepted = true)
    (tracked : c.partitionMap p = some t) (assigned : c.assigned p = true) :
    (Call.commitOffsets k).committed slices p c =
      ((t.tick slices true (k.partition p)).2.map WorkItem.offset).toList ∧
    (c.commitOffsets slices k).committer.partitionMap p =
      some (t.tick slices true (k.partition p)).1 ∧
    ((c.commitOffsets slices k).committer.collected.filter fun w => w.partition == p) =
      (c.collected.filter fun w => w.partition == p) ++
        t.tickRetired slices true (k.partition p) := by
  obtain ⟨hslice, hsent⟩ :=
    Committer.commitOffsets_slice slices k hk guard legal.1 legal.2 p
  have herror : (c.commitOffsets slices k).error = none := by
    rw [Committer.commitOffsets_eq slices k guard]
    split_ifs <;> simp_all
  rw [tracked, assigned] at hsent
  refine ⟨?_, ?_, ?_⟩
  · rw [Call.committed, if_pos herror, hsent, Option.bind_some, Option.toList_map]
  · have := congrArg Slice.tracker hslice
    simpa [Committer.slice, Slice.update, tracked, assigned] using this
  · have := congrArg Slice.collected hslice
    simpa [Committer.slice, Slice.update, tracked, assigned] using this

/-- A call accepted by the broker commits for the partition exactly when some buffered item
is provable. It then commits the end of a chain of links that starts at the lowest provable
item, retires the items below and keeps those above. The order of the buffer is irrelevant. -/
theorem buffered_promotion (hk : c.Keyed) (legal : (Call.commitOffsets k).Legal c)
    (guard : k.guardAcquired = true) (accepted : k.accepted = true)
    (tracked : c.partitionMap p = some t) (assigned : c.assigned p = true)
    (idle : t.ready = none) (anchored : 0 ≤ t.lastCommittedOffset)
    (above : t.lastCommittedOffset < t.committedPlusOne)
    (offsets : (t.gapBuffer.map WorkItem.offset).Nodup)
    (objects : (t.gapBuffer.map WorkItem.ptr).Nodup) :
    ((∃ x, x ∈ (Call.commitOffsets k).committed slices p c) ↔
      ∃ g ∈ t.gapBuffer, OffsetsTracker.Provable t.committedPlusOne t.lastCommittedOffset g) ∧
    (∀ x ∈ (Call.commitOffsets k).committed slices p c, ∃ t' retired lowest last,
      (c.commitOffsets slices k).committer.partitionMap p = some t' ∧
      ((c.commitOffsets slices k).committer.collected.filter fun w => w.partition == p) =
        (c.collected.filter fun w => w.partition == p) ++ retired ∧
      t'.committedPlusOne = x + 1 ∧ t'.lastCommittedOffset = x ∧
      t.Lowest lowest ∧ last ∈ t.gapBuffer ∧ last.offset = x ∧ lowest.offset ≤ x ∧
      Relation.ReflTransGen (OffsetsTracker.Follows t.gapBuffer) lowest last ∧
      ((t.flush slices k.flushTime).1.ready = none → last = lowest) ∧
      (∀ g ∈ t.gapBuffer, g.offset < x → ∃ w ∈ retired, w.stamp = g.stamp) ∧
      ∀ g, g ∈ t'.gapBuffer ↔ g ∈ t.gapBuffer ∧ x < g.offset) ∧
    (t.needsGapAdvance = false →
      (∀ g ∈ t.gapBuffer, ¬ OffsetsTracker.Provable t.committedPlusOne t.lastCommittedOffset g) →
      (c.commitOffsets slices k).committer.partitionMap p = some t) ∧
    ∀ l : List (WorkItem T), l.Perm t.gapBuffer →
      (Call.commitOffsets k).committed slices p (c.withBuffer p l) =
        (Call.commitOffsets k).committed slices p c ∧
      ∃ t' u', (c.commitOffsets slices k).committer.partitionMap p = some t' ∧
        ((c.withBuffer p l).commitOffsets slices k).committer.partitionMap p = some u' ∧
        u'.gapBuffer.Perm t'.gapBuffer := by
  obtain ⟨hcommitted, hmap, hcollected⟩ := commitOffsets_accepted slices hk legal guard
    accepted tracked assigned
  refine ⟨?_, ?_, ?_, ?_⟩
  · rw [hcommitted]
    rcases OffsetsTracker.tick_promotes slices idle anchored above offsets objects
      (k := k.partition p) accepted with ⟨hnone, hno⟩ | ⟨m, a, b, hm, hlow, _⟩
    · simpa [hnone] using hno
    · simp only [hm, Option.map_some, Option.toList_some, List.mem_singleton, exists_eq, true_iff]
      exact ⟨a, hlow.mem, hlow.provable⟩
  · intro x hx
    rw [hcommitted] at hx
    rcases OffsetsTracker.tick_promotes slices idle anchored above offsets objects
      (k := k.partition p) accepted with ⟨hnone, _⟩ |
        ⟨m, a, b, hm, hlow, hmb, hchain, hflush, hcpo, hlast, hrest, hretired⟩
    · simp [hnone] at hx
    · have hxb : x = b.offset := by simpa [hm, hmb] using hx
      subst hxb
      exact ⟨_, _, a, b, hmap, hcollected, hcpo, hlast, hlow,
        OffsetsTracker.Follows.mem hlow.mem hchain, rfl, OffsetsTracker.Follows.le hchain, hchain,
        hflush, hretired, hrest⟩
  · intro unflagged hno
    rw [hmap, OffsetsTracker.tick_unchanged idle unflagged hno]
  · intro l hl
    have hreordered : t.Reordered { t with gapBuffer := l } := ⟨l, rfl, hl⟩
    obtain ⟨⟨l', heq, hl'⟩, hoffered⟩ := hreordered.tick offsets slices (k.partition p)
    obtain ⟨hcommitted', hmap', _⟩ := commitOffsets_accepted slices (p := p)
      (t := { t with gapBuffer := l }) (hk.withBuffer tracked hl)
      ⟨legal.1.withBuffer l, legal.2.withBuffer l⟩ guard accepted
      (by simp [Committer.withBuffer, tracked]) assigned
    refine ⟨by rw [hcommitted', hcommitted, hoffered], _, _, hmap, hmap', ?_⟩
    rw [heq]
    exact hl'

end Call

/-- Record 4 is committed. Record 6 carries the stamp of a compacted predecessor and record 9
waits for record 8. -/
def compactedTracker : OffsetsTracker Unit where
  gapBuffer := [⟨0, { partition := 0, offset := 9 }, {}, 8, false, 0⟩,
    ⟨1, { partition := 0, offset := 6 }, {}, 3, false, 0⟩]
  needsGapAdvance := true
  committedPlusOne := 5
  lastCommittedOffset := 4

def compactedCommitter : Committer Unit where
  partitionMap := fun q => if q = 0 then some compactedTracker else none
  assigned := fun q => q == 0

/-- The tick commits record 6 and keeps record 9. -/
theorem buffered_promotion_compacted :
    (∃ x, x ∈ (Call.commitOffsets { flushOrder := [0], commitOrder := [0] }).committed
      (SortFunc.insertion (WorkItem Unit)) 0 compactedCommitter) ∧
    (Call.commitOffsets { flushOrder := [0], commitOrder := [0] }).committed
      (SortFunc.insertion (WorkItem Unit)) 0 compactedCommitter = [6] := by
  have hkeyed : compactedCommitter.Keyed := by
    intro q t ht
    by_cases hq : q = 0
    · subst hq
      cases ht
      exact ⟨by decide, by decide⟩
    · simp [compactedCommitter, hq] at ht
  have hiterates : compactedCommitter.Iterates [0] :=
    Committer.iterates_singleton rfl fun q hq => if_neg hq
  refine ⟨(buffered_promotion hkeyed ⟨hiterates, hiterates⟩ rfl rfl rfl rfl rfl (by decide)
    (by decide) (by decide) (by decide)).1.mpr ?_, by decide⟩
  exact ⟨⟨1, { partition := 0, offset := 6 }, {}, 3, false, 0⟩, by decide, by
    unfold OffsetsTracker.Provable
    decide⟩

end LlingrDemux.Offset
