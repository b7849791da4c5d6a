import LlingrDemux.Offset.Backlog
import LlingrDemux.Offset.Stream

/-!
# Exactness within one epoch

`At` says that the watermark stands after the first `m` records of the stream: they are
covered by `Ready` or committed. `Exact` adds that the gap buffer holds the completed
records from `m` on. An arrival keeps this and asks for the walk when record `m` waits
in the buffer, and the walk stops at the first record that has not completed.
-/

namespace LlingrDemux.Offset

open Shared OffsetsTracker
set_option autoImplicit false

variable {T : Type}

namespace Stream
variable {p : Int} (S : Stream T p)

/-- The watermark stands after the first `m` records. -/
def At (baseline : Int) (t : OffsetsTracker T) : Nat → Prop
  | 0 => t.ready = none ∧ t.lastCommittedOffset = -1 ∧ t.committedPlusOne = baseline
  | n + 1 =>
    (∃ r, t.ready = some r ∧ r.stamp = (S.item n).stamp ∧ t.committedPlusOne ≤ S.offset n ∧
      t.lastCommittedOffset < S.offset n) ∨
    (t.ready = none ∧ t.lastCommittedOffset = S.offset n ∧ t.committedPlusOne = S.offset n + 1)

/-- The list holds the completed records from `m` on, once each. -/
structure Holds (arrived : List Nat) (m : Nat) (l : List (WorkItem T)) : Prop where
  mem : ∀ g ∈ l, ∃ i ∈ arrived, m ≤ i ∧ g.stamp = (S.item i).stamp
  all : ∀ i ∈ arrived, m ≤ i → ∃ g ∈ l, g.stamp = (S.item i).stamp
  once : (l.map WorkItem.offset).Nodup
  clean : ∀ g ∈ l, g.Clean

structure Exact (baseline : Int) (arrived : List Nat) (m : Nat) (t : OffsetsTracker T) : Prop where
  upTo : ∀ i < m, i ∈ arrived
  zero : m = 0 → 0 ∉ arrived
  at_ : S.At baseline t m
  holds : S.Holds arrived m t.gapBuffer
  flag : 0 < m → m ∈ arrived → t.needsGapAdvance = true
  clean : ∀ r, t.ready = some r → r.Clean

variable {S} {baseline : Int} {arrived : List Nat} {m : Nat} {t : OffsetsTracker T}

theorem offset_of_stamp {g : WorkItem T} {i : Nat} (h : g.stamp = (S.item i).stamp) :
    g.offset = S.offset i := WorkItem.offset_of_stamp h

theorem previousOffset_of_stamp_succ {g : WorkItem T} {i : Nat}
    (h : g.stamp = (S.item (i + 1)).stamp) : g.previousOffset = S.offset i :=
  (WorkItem.previousOffset_of_stamp h).trans (S.stamp_succ i).1

/-- Beyond the first record the predecessor stamps tell the records apart. -/
theorem previousOffset_eq_iff {g : WorkItem T} {i n : Nat} (h : g.stamp = (S.item i).stamp)
    (hi : 0 < i) : g.previousOffset = S.offset n ↔ i = n + 1 := by
  obtain ⟨j, rfl⟩ : ∃ j, i = j + 1 := ⟨i - 1, by omega⟩
  rw [previousOffset_of_stamp_succ h]
  constructor
  · intro he
    rw [S.offset_inj he]
  · intro he
    have hjn : j = n := by omega
    rw [hjn]

/-- Two listed items of one record are the same item. -/
theorem Holds.eq_of_offset {l : List (WorkItem T)} (h : S.Holds arrived m l) {g g' : WorkItem T}
    (hg : g ∈ l) (hg' : g' ∈ l) (he : g.offset = g'.offset) : g = g' :=
  List.inj_on_of_nodup_map h.once hg hg' he

/-! ## The walk -/

section Walk
variable {g : WorkItem T} {gs : List (WorkItem T)} {ready : Option (WorkItem T)} {n i : Nat}

theorem Holds.tail (hl : S.Holds arrived m (g :: gs)) (hg : ∀ x ∈ gs, g.offset < x.offset)
    (hstamp : g.stamp = (S.item m).stamp) : S.Holds arrived (m + 1) gs := by
  have hoff := offset_of_stamp hstamp
  constructor
  · intro x hx
    obtain ⟨j, hj, _, hxs⟩ := hl.mem x (List.mem_cons_of_mem g hx)
    have hlt := hg x hx
    rw [hoff, offset_of_stamp hxs, S.offset_lt] at hlt
    exact ⟨j, hj, hlt, hxs⟩
  · intro j hj hmj
    obtain ⟨x, hx, hxs⟩ := hl.all j hj (by omega)
    rcases List.mem_cons.mp hx with rfl | hx
    · have := S.offset_inj (hoff.symm.trans (offset_of_stamp hxs))
      omega
    · exact ⟨x, hx, hxs⟩
  · exact (List.nodup_cons.mp hl.once).2
  · exact fun x hx => hl.clean x (List.mem_cons_of_mem g hx)

/-- The lowest buffered record is not `m`, so `m` has not completed. -/
theorem Holds.not_arrived (hl : S.Holds arrived m (g :: gs))
    (hg : ∀ x ∈ gs, g.offset < x.offset) (hstamp : g.stamp = (S.item i).stamp) (hmi : m < i) :
    m ∉ arrived := by
  have hoff := offset_of_stamp hstamp
  intro hm
  obtain ⟨x, hx, hxs⟩ := hl.all m hm le_rfl
  rcases List.mem_cons.mp hx with rfl | hx
  · have := S.offset_inj (hoff.symm.trans (offset_of_stamp hxs))
    omega
  · have hlt := hg x hx
    rw [hoff, offset_of_stamp hxs, S.offset_lt] at hlt
    omega

/-- Absorbing record `n + 1` moves the watermark past it. -/
theorem At.absorb (hat : S.At baseline { t with ready := ready } (n + 1)) {r : WorkItem T}
    (hr : r.stamp = (S.item (n + 1)).stamp) :
    S.At baseline { t with ready := some r } (n + 2) := by
  have hmono := (S.stamp_succ n).2.1
  refine .inl ⟨r, rfl, hr, ?_, ?_⟩
  · rcases hat with ⟨_, _, _, hc, _⟩ | ⟨_, _, hc⟩
    · exact hc.trans hmono.le
    · change t.committedPlusOne = _ at hc
      change t.committedPlusOne ≤ _
      omega
  · rcases hat with ⟨_, _, _, _, hc⟩ | ⟨_, hc, _⟩
    · exact hc.trans hmono
    · change t.lastCommittedOffset = _ at hc
      change t.lastCommittedOffset < _
      omega

theorem walk_absorb (hat : S.At baseline { t with ready := ready } (n + 1))
    (hstamp : g.stamp = (S.item (n + 1)).stamp) (now : Int) :
    walk t.committedPlusOne t.lastCommittedOffset now ready (g :: gs) =
      { walk t.committedPlusOne t.lastCommittedOffset now (some (g.setWatermarkAdvanceTime now)) gs
        with retired := ready.toList ++ (walk t.committedPlusOne t.lastCommittedOffset now
          (some (g.setWatermarkAdvanceTime now)) gs).retired } := by
  have hoff := offset_of_stamp hstamp
  have hprev := previousOffset_of_stamp_succ hstamp
  have hmono := (S.stamp_succ n).2.1
  rcases hat with ⟨r, hr, hrs, _, _⟩ | ⟨hr, hlast, hcpo⟩
  · change ready = some r at hr
    subst ready
    have hro := offset_of_stamp hrs
    rw [walk, if_neg (by omega), if_pos (by omega)]
    rfl
  · change ready = none at hr
    change t.lastCommittedOffset = _ at hlast
    change t.committedPlusOne = _ at hcpo
    subst ready
    have hnn := S.offset_nonneg n
    rw [walk, if_neg (by omega), if_pos (by omega)]
    rfl

theorem walk_stop (hbase : baseline ≤ S.offset 0)
    (hat : S.At baseline { t with ready := ready } m) (hstamp : g.stamp = (S.item i).stamp)
    (hmi : m < i) (now : Int) :
    walk t.committedPlusOne t.lastCommittedOffset now ready (g :: gs) = ⟨ready, [], g :: gs⟩ := by
  have hoff := offset_of_stamp hstamp
  cases m with
  | zero =>
    obtain ⟨hr, hlast, hcpo⟩ := hat
    change ready = none at hr
    change t.lastCommittedOffset = _ at hlast
    change t.committedPlusOne = _ at hcpo
    subst ready
    have hlt : S.offset 0 < S.offset i := S.offset_lt.mpr hmi
    rw [walk, if_neg (by omega), if_neg (by omega)]
  | succ n =>
    have hlt : S.offset n < S.offset i := S.offset_lt.mpr (by omega)
    have hprev : g.previousOffset ≠ S.offset n := by
      intro he
      have := (previousOffset_eq_iff hstamp (by omega)).mp he
      omega
    rcases hat with ⟨r, hr, hrs, _, _⟩ | ⟨hr, hlast, hcpo⟩
    · change ready = some r at hr
      subst ready
      have hro := offset_of_stamp hrs
      rw [walk, if_neg (by omega), if_neg (by omega)]
    · change ready = none at hr
      change t.lastCommittedOffset = _ at hlast
      change t.committedPlusOne = _ at hcpo
      subst ready
      have hnext : S.offset (n + 1) < S.offset i := S.offset_lt.mpr hmi
      have hmono := (S.stamp_succ n).2.1
      rw [walk, if_neg (by omega), if_neg (by omega)]

/-- The walk over the sorted buffer stops exactly at the first record that has not
completed, and marks nothing as orphaned. -/
theorem walk_exact (hbase : baseline ≤ S.offset 0) (now : Int) (l : List (WorkItem T))
    (hzero : m = 0 → 0 ∉ arrived) (hat : S.At baseline { t with ready := ready } m)
    (hclean : ∀ r, ready = some r → r.Clean)
    (hsorted : l.Pairwise fun a b => a.offset < b.offset) (hl : S.Holds arrived m l) :
    ∃ m', m ≤ m' ∧ (∀ i, m ≤ i → i < m' → i ∈ arrived) ∧ m' ∉ arrived ∧
      S.At baseline
        { t with ready := (walk t.committedPlusOne t.lastCommittedOffset now ready l).ready } m' ∧
      (∀ r, (walk t.committedPlusOne t.lastCommittedOffset now ready l).ready = some r → r.Clean) ∧
      S.Holds arrived m' (walk t.committedPlusOne t.lastCommittedOffset now ready l).rest ∧
      ∀ g ∈ (walk t.committedPlusOne t.lastCommittedOffset now ready l).retired, g.Clean := by
  induction l generalizing ready m with
  | nil =>
    refine ⟨m, le_rfl, fun i h1 h2 => by omega, ?_, hat, hclean, hl, by simp [walk]⟩
    intro hm
    obtain ⟨g, hg, _⟩ := hl.all m hm le_rfl
    simp at hg
  | cons g gs ih =>
    obtain ⟨hg, hgs⟩ := List.pairwise_cons.mp hsorted
    obtain ⟨i, hi, hmi, hstamp⟩ := hl.mem g List.mem_cons_self
    by_cases him : i = m
    · subst him
      have hpos : i ≠ 0 := fun h0 => hzero h0 (h0 ▸ hi)
      obtain ⟨n, rfl⟩ : ∃ n, i = n + 1 := ⟨i - 1, by omega⟩
      have hgclean : (g.setWatermarkAdvanceTime now).Clean := hl.clean g List.mem_cons_self
      obtain ⟨m', hle, hup, hnot, h1, h2, h3, h4⟩ :=
        ih (by omega) (hat.absorb (r := g.setWatermarkAdvanceTime now) hstamp)
          (by rintro r ⟨⟩; exact hgclean) hgs (hl.tail hg hstamp)
      rw [walk_absorb hat hstamp]
      refine ⟨m', by omega, ?_, hnot, h1, h2, h3, ?_⟩
      · intro j hj hjm
        by_cases hjn : j = n + 1
        · exact hjn ▸ hi
        · exact hup j (by omega) hjm
      · intro x hx
        rcases List.mem_append.mp hx with hx | hx
        · exact hclean x (Option.mem_toList.mp hx)
        · exact h4 x hx
    · have hlt : m < i := by omega
      rw [walk_stop hbase hat hstamp hlt]
      exact ⟨m, le_rfl, fun j h1 h2 => by omega, hl.not_arrived hg hstamp hlt, hat, hclean, hl,
        by simp⟩

end Walk

/-! ## Flush and repair -/

section Flush
variable (slices : SortFunc (WorkItem T))

theorem Holds.sort (h : S.Holds arrived m t.gapBuffer) :
    S.Holds arrived m (sortGapBuffer slices t.gapBuffer) where
  mem g hg := h.mem g (mem_of_mem_sortGapBuffer slices _ hg)
  all i hi hmi := by
    obtain ⟨g, hg, hgs⟩ := h.all i hi hmi
    obtain ⟨k, hk, hko, _⟩ := sortGapBuffer_keeps slices t.gapBuffer hg
    have hkg := h.eq_of_offset (mem_of_mem_sortGapBuffer slices _ hk) hg hko
    exact ⟨k, hk, hkg ▸ hgs⟩
  once := by
    apply List.Pairwise.map WorkItem.offset (fun a b (hab : a.offset < b.offset) => hab.ne)
    exact sortGapBuffer_strict slices t.gapBuffer
  clean g hg := h.clean g (mem_of_mem_sortGapBuffer slices _ hg)

/-- After a flush the watermark stands at the first record that has not completed. -/
theorem Exact.flush (h : S.Exact baseline arrived m t) (hbase : baseline ≤ S.offset 0)
    (now : Int) :
    ∃ m', S.Exact baseline arrived m' (t.flush slices now).1 ∧ m' ∉ arrived ∧
      ∀ g ∈ (t.flush slices now).2, g.Clean := by
  unfold OffsetsTracker.flush
  split_ifs with h1 h2
  · refine ⟨m, h, ?_, by simp⟩
    intro hm
    cases m with
    | zero => exact h.zero rfl hm
    | succ n =>
      have := h.flag (by omega) hm
      simp [this] at h1
  · refine ⟨m, ⟨h.upTo, h.zero, ?_, h.holds, ?_, h.clean⟩, ?_, by simp⟩
    · cases m with
      | zero => exact h.at_
      | succ n => exact h.at_
    · intro _ hm
      obtain ⟨g, hg, _⟩ := h.holds.all m hm le_rfl
      simp [h2] at hg
    · intro hm
      obtain ⟨g, hg, _⟩ := h.holds.all m hm le_rfl
      simp [h2] at hg
  · obtain ⟨m', hle, hup, hnot, hat, hclean, hholds, hretired⟩ :=
      walk_exact (t := t) hbase now _ h.zero h.at_ h.clean
        (sortGapBuffer_strict slices t.gapBuffer) (h.holds.sort slices)
    refine ⟨m', ⟨?_, ?_, ?_, hholds, fun _ hm => absurd hm hnot, hclean⟩, hnot, hretired⟩
    · intro i hi
      by_cases him : i < m
      · exact h.upTo i him
      · exact hup i (by omega) hi
    · rintro rfl
      exact hnot
    · cases m' with
      | zero => exact hat
      | succ n => exact hat

/-- At the first record that has not completed the repair finds nothing to promote. -/
theorem Exact.repair (h : S.Exact baseline arrived m t) (hm : m ∉ arrived) (now : Int) :
    t.repairSuccessor now = (t, []) := by
  rcases repairSuccessor_cases t now with ⟨heq, _⟩ | ⟨s, hs, hnone, hpos, _, _⟩
  · exact heq
  · exfalso
    obtain ⟨hmem, ⟨_, hprov⟩, _⟩ := findSuccessor_some hs
    obtain ⟨i, hi, hmi, hstamp⟩ := h.holds.mem s hmem
    have hlt : m < i := by
      rcases Nat.lt_or_eq_of_le hmi with hlt | rfl
      · exact hlt
      · exact absurd hi hm
    have hoff := offset_of_stamp hstamp
    have hat := h.at_
    cases m with
    | zero =>
      have hlast := hat.2.1
      omega
    | succ n =>
      rcases hat with ⟨r, hr, _⟩ | ⟨_, hlast, hcpo⟩
      · simp [hnone] at hr
      · obtain ⟨j, rfl⟩ : ∃ j, i = j + 1 := ⟨i - 1, by omega⟩
        have hprev := previousOffset_of_stamp_succ hstamp
        have hmono := (S.stamp_succ n).2.1
        have h1 : S.offset (n + 1) < S.offset (j + 1) := S.offset_lt.mpr hlt
        have h2 : S.offset n < S.offset j := S.offset_lt.mpr (by omega)
        omega

end Flush

/-! ## Arrivals -/

section Arrival
variable {i : Nat} {now : Int}

theorem Holds.skip (h : S.Holds arrived m t.gapBuffer) (hm : m ∉ arrived) :
    S.Holds (arrived ++ [m]) (m + 1) t.gapBuffer where
  mem g hg := by
    obtain ⟨i, hi, hmi, hgs⟩ := h.mem g hg
    have hne : i ≠ m := fun he => hm (he ▸ hi)
    exact ⟨i, List.mem_append_left _ hi, by omega, hgs⟩
  all i hi hmi := by
    rcases List.mem_append.mp hi with hi | hi
    · exact h.all i hi (by omega)
    · have := List.mem_singleton.mp hi
      omega
  once := h.once
  clean := h.clean

theorem Holds.push (h : S.Holds arrived m t.gapBuffer) (hi : i ∉ arrived) (hmi : m ≤ i)
    {w : WorkItem T} (hw : w.stamp = (S.item i).stamp) (hclean : w.Clean) :
    S.Holds (arrived ++ [i]) m (t.gapBuffer ++ [w.setCommitBuffered]) where
  mem g hg := by
    rcases List.mem_append.mp hg with hg | hg
    · obtain ⟨j, hj, hmj, hgs⟩ := h.mem g hg
      exact ⟨j, List.mem_append_left _ hj, hmj, hgs⟩
    · rw [List.mem_singleton.mp hg]
      exact ⟨i, by simp, hmi, hw⟩
  all j hj hmj := by
    rcases List.mem_append.mp hj with hj | hj
    · obtain ⟨g, hg, hgs⟩ := h.all j hj hmj
      exact ⟨g, List.mem_append_left _ hg, hgs⟩
    · rw [List.mem_singleton.mp hj]
      exact ⟨w.setCommitBuffered, by simp, hw⟩
  once := by
    rw [List.map_append, List.nodup_append]
    refine ⟨h.once, by simp, ?_⟩
    intro x hx y hy hxy
    obtain ⟨g, hg, rfl⟩ := List.mem_map.mp hx
    obtain ⟨j, hj, _, hgs⟩ := h.mem g hg
    have hyo : y = w.offset := List.mem_singleton.mp hy
    have hji : S.offset j = S.offset i := by
      rw [← offset_of_stamp hgs, ← offset_of_stamp hw, hxy, hyo]
    exact hi (S.offset_inj hji ▸ hj)
  clean g hg := by
    rcases List.mem_append.mp hg with hg | hg
    · exact h.clean g hg
    · rw [List.mem_singleton.mp hg]
      exact hclean

/-- The flag that the arrival of record `m` leaves asks for the walk when record `m + 1`
waits in the buffer. -/
theorem Holds.linked (h : S.Holds arrived m t.gapBuffer)
    (hnext : m + 1 ∈ arrived ++ [m]) {w : WorkItem T} (hw : w.offset = S.offset m) :
    t.gapBuffer.any (fun g => w.offset == g.previousOffset) = true := by
  rcases List.mem_append.mp hnext with hnext | hnext
  · obtain ⟨g, hg, hgs⟩ := h.all (m + 1) hnext (by omega)
    apply List.any_eq_true.mpr
    refine ⟨g, hg, ?_⟩
    rw [previousOffset_of_stamp_succ hgs, hw]
    exact beq_self_eq_true _
  · have := List.mem_singleton.mp hnext
    omega

theorem markFirst_clean {w : WorkItem T} (h : w.Clean) : (markFirst w).Clean := by
  unfold markFirst
  split
  · exact h
  · exact h

/-- An arrival that is not below the baseline or below `Ready` retires at most `Ready`. -/
theorem checkAndAdvance_retired {w : WorkItem T}
    (hnone : t.ready = none → t.committedPlusOne ≤ w.offset)
    (hsome : ∀ r, t.ready = some r → r.offset ≤ w.offset) :
    ∀ g ∈ (t.checkAndAdvance w now).2, t.ready = some g := by
  intro g hg
  unfold checkAndAdvance at hg
  cases hr : t.ready with
  | none =>
    have hle := hnone hr
    simp only [hr] at hg
    split_ifs at hg
    · simp at hg
    · omega
    · simp at hg
    · simp at hg
  | some r =>
    have hle := hsome r hr
    simp only [hr] at hg
    split_ifs at hg
    · omega
    · rw [List.mem_singleton.mp hg]
    · simp at hg

theorem arrive_zero (hbase : t.committedPlusOne ≤ S.offset 0) :
    (arrive (some t) (S.item 0)).committedPlusOne = S.offset 0 := by
  obtain ⟨lo, hi, heq⟩ := arrive_some_eq t (S.item 0)
  rw [heq]
  exact if_pos ⟨S.stamp_zero, hbase⟩

theorem arrive_pos (hpos : 0 < i) :
    (arrive (some t) (S.item i)).committedPlusOne = t.committedPlusOne := by
  obtain ⟨lo, hi, heq⟩ := arrive_some_eq t (S.item i)
  obtain ⟨j, rfl⟩ : ∃ j, i = j + 1 := ⟨i - 1, by omega⟩
  rw [heq]
  exact if_neg fun hraise => by simp [(S.stamp_succ j).2.2] at hraise

theorem Exact.le_of_not_arrived (h : S.Exact baseline arrived m t) (hi : i ∉ arrived) : m ≤ i := by
  by_contra hlt
  exact hi (h.upTo i (by omega))

/-- A record that has not completed before lies at or above the baseline and above `Ready`. -/
theorem Exact.above (h : S.Exact baseline arrived m t) (hbase : baseline ≤ S.offset 0)
    (hi : i ∉ arrived) :
    (t.ready = none → (arrive (some t) (S.item i)).committedPlusOne ≤ S.offset i) ∧
      ∀ r, t.ready = some r → r.offset < S.offset i := by
  have hmi := h.le_of_not_arrived hi
  have hat := h.at_
  cases m with
  | zero =>
    obtain ⟨hr, _, hcpo⟩ := hat
    refine ⟨fun _ => ?_, fun r hr' => by simp [hr] at hr'⟩
    rcases Nat.eq_zero_or_pos i with rfl | hpos
    · rw [arrive_zero (by omega)]
    · have hlt : S.offset 0 < S.offset i := S.offset_lt.mpr hpos
      rw [arrive_pos hpos]
      omega
  | succ n =>
    have hlt : S.offset n < S.offset i := S.offset_lt.mpr (by omega)
    rw [arrive_pos (by omega)]
    rcases hat with ⟨r, hr, hrs, _, _⟩ | ⟨hr, _, hcpo⟩
    · refine ⟨fun hn => by simp [hr] at hn, fun r' hr' => ?_⟩
      rw [hr, Option.some.injEq] at hr'
      subst r'
      rw [offset_of_stamp hrs]
      exact hlt
    · exact ⟨fun _ => by omega, fun r hr' => by simp [hr] at hr'⟩

/-- Only record `m` meets a rule that makes it `Ready`. -/
theorem Exact.eq_of_advances (h : S.Exact baseline arrived m t) (hbase : baseline ≤ S.offset 0)
    (hi : i ∉ arrived)
    (hadv : (t.ready = none ∧ (arrive (some t) (S.item i)).committedPlusOne = S.offset i) ∨
      ∃ r, t.ready = some r ∧ r.offset = (S.item i).previousOffset) : i = m := by
  have hmi := h.le_of_not_arrived hi
  have hat := h.at_
  cases m with
  | zero =>
    obtain ⟨hr, _, hcpo⟩ := hat
    rcases hadv with ⟨_, heq⟩ | ⟨r, hr', _⟩
    · by_contra hne
      have hlt : S.offset 0 < S.offset i := S.offset_lt.mpr (by omega)
      rw [arrive_pos (by omega)] at heq
      omega
    · simp [hr] at hr'
  | succ n =>
    rcases hat with ⟨r, hr, hrs, _, _⟩ | ⟨hr, _, hcpo⟩
    · rcases hadv with ⟨hn, _⟩ | ⟨r', hr', hlink⟩
      · simp [hr] at hn
      · rw [hr, Option.some.injEq] at hr'
        subst r'
        rw [offset_of_stamp hrs] at hlink
        exact (previousOffset_eq_iff rfl (by omega)).mp hlink.symm
    · rcases hadv with ⟨_, heq⟩ | ⟨r', hr', _⟩
      · rw [arrive_pos (by omega)] at heq
        by_contra hne
        have hlt : S.offset (n + 1) < S.offset i := S.offset_lt.mpr (by omega)
        have hmono := (S.stamp_succ n).2.1
        omega
      · simp [hr] at hr'

/-- Record `m` itself takes the watermark one record further. -/
theorem Exact.advance (h : S.Exact baseline arrived m t) (hbase : baseline ≤ S.offset 0)
    (hm : m ∉ arrived) {r : WorkItem T} (hr : r.stamp = (S.item m).stamp) (hclean : r.Clean)
    {t' : OffsetsTracker T} (hready : t'.ready = some r)
    (hcpo : t'.committedPlusOne = (arrive (some t) (S.item m)).committedPlusOne)
    (hlast : t'.lastCommittedOffset = t.lastCommittedOffset) (hbuffer : t'.gapBuffer = t.gapBuffer)
    (hflag : t.gapBuffer.any (fun g => r.offset == g.previousOffset) = true →
      t'.needsGapAdvance = true) : S.Exact baseline (arrived ++ [m]) (m + 1) t' where
  upTo := by
    intro i hi
    rcases Nat.lt_or_eq_of_le (Nat.lt_succ_iff.mp hi) with hlt | rfl
    · exact List.mem_append_left _ (h.upTo i hlt)
    · simp
  zero := by omega
  at_ := by
    refine .inl ⟨r, hready, hr, ?_, ?_⟩
    · rw [hcpo]
      have hat := h.at_
      cases m with
      | zero =>
        rw [arrive_zero (by rw [hat.2.2]; exact hbase)]
      | succ n =>
        have hmono := (S.stamp_succ n).2.1
        rw [arrive_pos (by omega)]
        rcases hat with ⟨_, _, _, hc, _⟩ | ⟨_, _, hc⟩ <;> omega
    · rw [hlast]
      have hat := h.at_
      cases m with
      | zero =>
        have hnn := S.offset_nonneg 0
        have := hat.2.1
        omega
      | succ n =>
        have hmono := (S.stamp_succ n).2.1
        rcases hat with ⟨_, _, _, _, hl⟩ | ⟨_, hl, _⟩ <;> omega
  holds := hbuffer ▸ h.holds.skip hm
  flag := fun _ hnext => hflag (h.holds.linked hnext (offset_of_stamp hr))
  clean := by
    intro r' hr'
    rw [hready, Option.some.injEq] at hr'
    exact hr' ▸ hclean

/-- An arrival that is buffered and leaves the baseline where it is. -/
theorem Exact.buffer (h : S.Exact baseline arrived m t) (hi : i ∉ arrived) (hpos : 0 < i)
    {w : WorkItem T} (hw : w.stamp = (S.item i).stamp) (hclean : w.Clean) {f : Bool}
    {t' : OffsetsTracker T} (hready : t'.ready = t.ready)
    (hlast : t'.lastCommittedOffset = t.lastCommittedOffset)
    (hcpo : t'.committedPlusOne = t.committedPlusOne)
    (hbuffer : t'.gapBuffer = t.gapBuffer ++ [w.setCommitBuffered])
    (hflag : t'.needsGapAdvance = (t.needsGapAdvance || f)) (hlinked : i = m → f = true) :
    S.Exact baseline (arrived ++ [i]) m t' where
  upTo j hj := List.mem_append_left _ (h.upTo j hj)
  zero := by
    intro hm0 hmem
    rcases List.mem_append.mp hmem with hmem | hmem
    · exact h.zero hm0 hmem
    · have := List.mem_singleton.mp hmem
      omega
  at_ := by
    have hat := h.at_
    cases m with
    | zero => exact ⟨hready.trans hat.1, hlast.trans hat.2.1, hcpo.trans hat.2.2⟩
    | succ n =>
      simp only [At, hready, hlast, hcpo]
      exact hat
  holds := by
    rw [hbuffer]
    exact h.holds.push hi (h.le_of_not_arrived hi) hw hclean
  flag := by
    intro hm hmem
    rw [hflag, Bool.or_eq_true]
    rcases List.mem_append.mp hmem with hmem | hmem
    · exact .inl (h.flag hm hmem)
    · exact .inr (hlinked (List.mem_singleton.mp hmem).symm)
  clean r hr := h.clean r (hready ▸ hr)

/-- Record `0` is not buffered: it sets the baseline that it then meets. -/
theorem Exact.pos_of_buffered (h : S.Exact baseline arrived m t) (hbase : baseline ≤ S.offset 0)
    (hi : i ∉ arrived)
    (hcase : (t.ready = none ∧ (arrive (some t) (S.item i)).committedPlusOne < S.offset i) ∨
      ∃ r, t.ready = some r) : 0 < i := by
  by_contra hzero
  have hi0 : i = 0 := by omega
  subst hi0
  have hm0 : m = 0 := Nat.le_zero.mp (h.le_of_not_arrived hi)
  subst hm0
  have hat := h.at_
  rcases hcase with ⟨_, hlt⟩ | ⟨r, hr⟩
  · rw [arrive_zero (by rw [hat.2.2]; exact hbase)] at hlt
    exact absurd hlt (lt_irrefl _)
  · rw [hat.1] at hr
    cases hr

/-- Record `m`, where it is buffered, is linked to the committed record. -/
theorem Exact.linked_of_buffered (h : S.Exact baseline arrived m t) (hpos : 0 < m) {f : Bool}
    (hcase : (t.ready = none ∧ f = decide (0 ≤ t.lastCommittedOffset ∧
        (S.item m).previousOffset = t.lastCommittedOffset)) ∨
      ∃ r, t.ready = some r ∧ r.offset ≠ (S.item m).previousOffset) : f = true := by
  obtain ⟨n, rfl⟩ : ∃ n, m = n + 1 := ⟨m - 1, by omega⟩
  have hprev : (S.item (n + 1)).previousOffset = S.offset n := (S.stamp_succ n).1
  rcases h.at_ with ⟨r, hr, hrs, _, _⟩ | ⟨hr, hl, _⟩
  · rcases hcase with ⟨hn, _⟩ | ⟨r', hr', hne⟩
    · rw [hr] at hn
      cases hn
    · rw [hr, Option.some.injEq] at hr'
      subst r'
      exact absurd (by rw [offset_of_stamp hrs, hprev]) hne
  · rcases hcase with ⟨_, hf⟩ | ⟨r', hr', _⟩
    · rw [hf, hprev, hl]
      exact decide_eq_true ⟨S.offset_nonneg n, rfl⟩
    · rw [hr] at hr'
      cases hr'

/-- What an arrival retires is the clean item that was `Ready`. -/
theorem Exact.processCommit_retired (h : S.Exact baseline arrived m t)
    (hbase : baseline ≤ S.offset 0) (hi : i ∉ arrived) (now : Int) :
    ∀ g ∈ (OffsetsTracker.processCommit (some t) (S.item i) now).2, g.Clean := by
  have hready : (arrive (some t) (S.item i)).ready = t.ready := by
    obtain ⟨_, _, harrive⟩ := arrive_some_eq t (S.item i)
    rw [harrive]
  have hoff : (markFirst (S.item i)).offset = S.offset i := offset_markFirst _
  obtain ⟨hnone, hsome⟩ := h.above hbase hi
  intro g hg
  apply h.clean g
  rw [← hready]
  refine checkAndAdvance_retired ?_ ?_ g hg
  · intro hn
    rw [hoff]
    exact hnone (hready ▸ hn)
  · intro r hr
    rw [hoff]
    exact (hsome r (hready ▸ hr)).le

/-- An arrival takes the watermark one record further or is buffered above it. -/
theorem Exact.processCommit (h : S.Exact baseline arrived m t) (hbase : baseline ≤ S.offset 0)
    (hi : i ∉ arrived) (now : Int) :
    ∃ m', S.Exact baseline (arrived ++ [i]) m'
        (OffsetsTracker.processCommit (some t) (S.item i) now).1 ∧
      ∀ g ∈ (OffsetsTracker.processCommit (some t) (S.item i) now).2, g.Clean := by
  obtain ⟨lo, hi', harrive⟩ := arrive_some_eq t (S.item i)
  have hready : (arrive (some t) (S.item i)).ready = t.ready := by rw [harrive]
  have hlast : (arrive (some t) (S.item i)).lastCommittedOffset = t.lastCommittedOffset := by
    rw [harrive]
  have hbuffer : (arrive (some t) (S.item i)).gapBuffer = t.gapBuffer := by rw [harrive]
  have hflag : (arrive (some t) (S.item i)).needsGapAdvance = t.needsGapAdvance := by rw [harrive]
  have hoff : (markFirst (S.item i)).offset = S.offset i := offset_markFirst _
  have hprev := previousOffset_markFirst (S.item i)
  have hstamp := stamp_markFirst (S.item i)
  have hclean : (markFirst (S.item i)).Clean := markFirst_clean (S.clean i)
  obtain ⟨hnone, hsome⟩ := h.above hbase hi
  have hretired := h.processCommit_retired hbase hi now
  have hcases := checkAndAdvance_cases (arrive (some t) (S.item i)) (markFirst (S.item i)) now
  rw [hoff, hprev, hready, hlast] at hcases
  rcases hcases with ⟨f, heq, hf, hcase⟩ | ⟨_, hcase⟩ | ⟨f, heq, hcase⟩
  · -- it becomes `Ready`, so it is record `m`
    have him : i = m := by
      apply h.eq_of_advances hbase hi
      rcases hcase with hcase | ⟨r, hr, _, hlink⟩
      · exact .inl hcase
      · have hlt := hsome r hr
        exact .inr ⟨r, hr, hlink.resolve_right (by omega)⟩
    subst him
    refine ⟨i + 1, ?_, hretired⟩
    rw [OffsetsTracker.processCommit, heq]
    refine h.advance (r := (markFirst (S.item i)).setWatermarkAdvanceTime now) hbase hi hstamp hclean
      rfl rfl rfl hbuffer ?_
    intro hany
    rw [hf, hbuffer, ← hoff]
    simp only [Bool.or_eq_true]
    exact .inr hany
  · -- it is never found orphaned
    exfalso
    rcases hcase with ⟨hn, hlt⟩ | ⟨r, hr, hlt⟩
    · have := hnone hn
      omega
    · have := hsome r hr
      omega
  · -- it is buffered, and the baseline stays
    have hpos : 0 < i := by
      apply h.pos_of_buffered hbase hi
      rcases hcase with ⟨hn, hlt, _⟩ | ⟨r, hr, _⟩
      · exact .inl ⟨hn, hlt⟩
      · exact .inr ⟨r, hr⟩
    refine ⟨m, ?_, hretired⟩
    rw [OffsetsTracker.processCommit, heq]
    refine h.buffer (f := f) hi hpos hstamp hclean rfl rfl (arrive_pos hpos) ?_ ?_ ?_
    · exact congrArg (· ++ [(markFirst (S.item i)).setCommitBuffered]) hbuffer
    · exact congrArg (· || f) hflag
    · rintro rfl
      apply h.linked_of_buffered hpos
      rcases hcase with ⟨hn, _, hf⟩ | ⟨r, hr, _, hne, _⟩
      · exact .inl ⟨hn, hf⟩
      · exact .inr ⟨r, hr, hne⟩

end Arrival

/-! ## Ticks -/

section Ticks
variable (slices : SortFunc (WorkItem T)) (k : PartitionTick)

theorem collectCommit_plain {now : Int} (hrep : t.repairSuccessor now = (t, []))
    (hbelow : ∀ r, t.ready = some r → t.committedPlusOne ≤ r.offset) :
    t.collectCommit true now = (t, [], t.ready) := by
  simp only [collectCommit, Bool.not_true, Bool.false_eq_true, if_false]
  rw [repairSuccessor_guarded, hrep]
  cases hr : t.ready with
  | none => rfl
  | some r =>
    have := hbelow r hr
    simp only
    rw [if_neg (by omega)]

/-- `Ready` covers a record at or above the baseline and above the committed one. -/
theorem Exact.ready_above (h : S.Exact baseline arrived m t) {r : WorkItem T}
    (hr : t.ready = some r) : ∃ n, m = n + 1 ∧ r.offset = S.offset n ∧
      t.committedPlusOne ≤ r.offset ∧ t.lastCommittedOffset < r.offset := by
  have hat := h.at_
  cases m with
  | zero => simp [hat.1] at hr
  | succ n =>
    rcases hat with ⟨r', hr', hrs, hc, hl⟩ | ⟨hn, _⟩
    · rw [hr, Option.some.injEq] at hr'
      subst r'
      have hro := offset_of_stamp hrs
      exact ⟨n, rfl, hro, by omega, by omega⟩
    · simp [hn] at hr

/-- A commit turns the covered record into the committed one. -/
theorem Exact.accept (h : S.Exact baseline arrived m t) (hm : m ∉ arrived) {r : WorkItem T}
    (hr : t.ready = some r) : S.Exact baseline arrived m (t.acceptCommit r.offset).1 := by
  obtain ⟨n, rfl, hro, hc, hl⟩ := h.ready_above hr
  refine ⟨h.upTo, by omega, .inr ⟨rfl, ?_, ?_⟩, h.holds, fun _ hmem => absurd hmem hm,
    by simp [acceptCommit]⟩
  · change (if r.offset > _ then r.offset else _) = S.offset n
    rw [if_pos hl, hro]
  · change (if r.offset + 1 > _ then r.offset + 1 else _) = S.offset n + 1
    rw [if_pos (by omega), hro]

/-- A tick moves no record: what it flushes is exact, and nothing is repaired or stale. -/
theorem Exact.tick (h : S.Exact baseline arrived m t) (hbase : baseline ≤ S.offset 0) :
    ∃ m', S.Exact baseline arrived m' (t.tick slices true k).1 ∧ m' ∉ arrived ∧
      (m' = 0 → (t.tick slices true k).2 = none) ∧
      (k.accepted = true ∨ (t.tick slices true k).2 = none →
        (t.tick slices true k).1.ready = none) ∧
      ∀ g ∈ t.tickRetired slices true k, g.Clean := by
  obtain ⟨m', hflush, hm', hretired⟩ := h.flush slices hbase k.flushTime
  refine ⟨m', ?_⟩
  have hplain := collectCommit_plain (hflush.repair hm' k.repairTime) fun r hr => by
    obtain ⟨_, _, _, hle, _⟩ := hflush.ready_above hr
    exact hle
  have hoff := congrArg (fun q => q.2.2) hplain
  cases hr : (t.flush slices k.flushTime).1.ready with
  | none =>
    rw [tick_of_none slices k t (hoff.trans hr), tickRetired_of_none slices k t (hoff.trans hr),
      hplain]
    exact ⟨hflush, hm', fun _ => rfl, fun _ => hr, by simpa using hretired⟩
  | some r =>
    obtain ⟨n, hn, _⟩ := hflush.ready_above hr
    rw [tick_of_some slices k t (hoff.trans hr), tickRetired_of_some slices k t (hoff.trans hr),
      hplain]
    cases hacc : k.accepted with
    | false => exact ⟨hflush, hm', by omega, by simp, by simpa using hretired⟩
    | true =>
      refine ⟨hflush.accept hm' hr, hm', by omega, fun _ => rfl, ?_⟩
      intro g hg
      rw [List.append_nil] at hg
      rcases List.mem_append.mp hg with hg | hg
      · exact hretired g hg
      · exact hflush.clean g (Option.mem_toList.mp hg)

end Ticks

end Stream

end LlingrDemux.Offset
