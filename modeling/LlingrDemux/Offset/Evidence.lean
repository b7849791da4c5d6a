import LlingrDemux.Offset.TrackerSpec

/-!
# The rules by which an item becomes `Ready`

`Evidence` lists the advancement rules of the source. A property of offsets closed
under them holds of the `Ready` item that any operation leaves, so no later proof
looks into the walk or the repair again.
-/

namespace LlingrDemux.Offset.OffsetsTracker

open Shared
set_option autoImplicit false

variable {T : Type}

/-- A property of offsets closed under the five advancement rules, for items with
stamps in `Q`: the present `Ready`, the baseline, the committed record as anchor
(exact linkage and repair alike) and the predecessor link. -/
structure Evidence (Q : WorkItem.Stamp → Prop) (t : OffsetsTracker T) (P : Int → Prop) : Prop where
  ready : ∀ r, t.ready = some r → P r.offset
  baseline : ∀ g, Q g → g.offset = t.committedPlusOne → P g.offset
  anchor : ∀ g, Q g → 0 ≤ t.lastCommittedOffset → g.previousOffset ≤ t.lastCommittedOffset →
    t.committedPlusOne ≤ g.offset → P g.offset
  link : ∀ g, Q g → P g.previousOffset → g.previousOffset < g.offset → P g.offset

section Rules
variable {Q : WorkItem.Stamp → Prop} {P : Int → Prop} {t : OffsetsTracker T} {w : WorkItem T}

theorem checkAndAdvance_evidence (h : Evidence Q t P) (hw : Q w.stamp) (now : Int) :
    ∀ r, (t.checkAndAdvance w now).1.ready = some r → P r.offset := by
  intro r hr
  rcases checkAndAdvance_cases t w now with ⟨f, heq, _, hcase⟩ | ⟨heq, _⟩ | ⟨f, heq, _⟩
  · rw [heq] at hr
    cases hr
    rcases hcase with ⟨_, hb⟩ | ⟨r₀, hr₀, hle, hlink⟩
    · exact h.baseline w.stamp hw hb.symm
    · by_cases he : r₀.offset = w.offset
      · exact he ▸ h.ready r₀ hr₀
      · have hp : w.previousOffset = r₀.offset := by tauto
        have hready := h.ready r₀ hr₀
        rw [← hp] at hready hle he
        exact h.link w.stamp hw hready (lt_of_le_of_ne hle he)
  · rw [heq] at hr
    exact h.ready r hr
  · rw [heq] at hr
    exact h.ready r hr

theorem walk_evidence (h : Evidence Q t P) (now : Int) (ready : Option (WorkItem T))
    (l : List (WorkItem T)) (hready : ∀ r, ready = some r → P r.offset)
    (hl : ∀ g ∈ l, Q g.stamp) :
    ∀ r, (walk t.committedPlusOne t.lastCommittedOffset now ready l).ready = some r →
      P r.offset := by
  fun_induction walk t.committedPlusOne t.lastCommittedOffset now ready l with
  | case1 ready => exact hready
  | case2 g gs hlt q ih => exact ih hready fun x hx => hl x (List.mem_cons_of_mem g hx)
  | case3 g gs hge hinit ih =>
    refine ih ?_ fun x hx => hl x (List.mem_cons_of_mem g hx)
    rintro r ⟨⟩
    have hg := hl g List.mem_cons_self
    rcases hinit with hb | ⟨hpos, hlink⟩
    · exact h.baseline g.stamp hg hb
    · exact h.anchor g.stamp hg hpos hlink.le (not_lt.mp hge)
  | case4 g gs => exact hready
  | case5 r g gs hle q ih => exact ih hready fun x hx => hl x (List.mem_cons_of_mem g hx)
  | case6 r g gs hlt hlink q ih =>
    refine ih ?_ fun x hx => hl x (List.mem_cons_of_mem g hx)
    rintro r' ⟨⟩
    have hg := hl g List.mem_cons_self
    have hr := hready r rfl
    rw [hlink] at hr hlt
    exact h.link g.stamp hg hr (not_le.mp hlt)
  | case7 r g gs => exact hready

theorem flush_evidence (slices : SortFunc (WorkItem T)) (h : Evidence Q t P) (ha : AllItems Q t)
    (now : Int) : ∀ r, (t.flush slices now).1.ready = some r → P r.offset := by
  unfold flush
  split_ifs
  · exact h.ready
  · exact h.ready
  · exact walk_evidence h now t.ready _ h.ready
      fun g hg => ha.buffer g (mem_of_mem_sortGapBuffer slices _ hg)

theorem repairSuccessor_evidence (h : Evidence Q t P) (ha : AllItems Q t) (now : Int) :
    ∀ r, (t.repairSuccessor now).1.ready = some r → P r.offset := by
  intro r hr
  rcases repairSuccessor_cases t now with ⟨heq, _⟩ | ⟨s, hs, _, hpos, _, heq⟩
  · rw [heq] at hr
    exact h.ready r hr
  · rw [heq] at hr
    cases hr
    obtain ⟨hmem, ⟨hge, hp⟩, _⟩ := findSuccessor_some hs
    have hq := ha.buffer s hmem
    rcases hp with hb | ⟨_, hle⟩
    · exact h.baseline s.stamp hq hb
    · exact h.anchor s.stamp hq hpos hle hge

end Rules

end LlingrDemux.Offset.OffsetsTracker
