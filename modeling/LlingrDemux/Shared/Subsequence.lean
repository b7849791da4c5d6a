import Mathlib.Data.List.Nodup

/-!
# Orders along a subsequence

A list without repetitions has the members of a subsequence in the subsequence's order.
-/

namespace LlingrDemux.Shared

set_option autoImplicit false

universe u
variable {α : Type u} {S : α → α → Prop} {l m : List α}

/-- What holds along a subsequence holds of its members wherever they stand in the list. -/
theorem pairwise_of_sublist (h : l.Sublist m) (nodup : m.Nodup) (ordered : l.Pairwise S) :
    m.Pairwise fun a b => a ∈ l → b ∈ l → S a b := by
  induction h with
  | slnil => exact List.Pairwise.nil
  | @cons l m c h ih =>
    obtain ⟨hc, hm⟩ := List.nodup_cons.mp nodup
    refine List.pairwise_cons.mpr ⟨fun b _ hcl => ?_, ih hm ordered⟩
    exact absurd (h.subset hcl) hc
  | @cons_cons l m c h ih =>
    obtain ⟨hc, hm⟩ := List.nodup_cons.mp nodup
    obtain ⟨hfirst, hrest⟩ := List.pairwise_cons.mp ordered
    -- a later member is none of the first ones
    have hlater : ∀ b ∈ m, b ∈ c :: l → b ∈ l := by
      intro b hb hbl
      rcases List.mem_cons.mp hbl with rfl | hbl
      · exact absurd hb hc
      · exact hbl
    refine List.pairwise_cons.mpr ⟨fun b hb _ hbl => hfirst b (hlater b hb hbl), ?_⟩
    apply (ih hm hrest).imp_of_mem
    intro a b ha hb hab hal hbl
    exact hab (hlater a ha hal) (hlater b hb hbl)

/-- In an ordered list, nothing outside an initial part comes before a member of it. -/
theorem mem_of_initial {a b : α} (h : l <+: m) (ordered : m.Pairwise S) (ha : a ∈ m) (hb : b ∈ l)
    (hab : ¬ S b a) : a ∈ l := by
  obtain ⟨rest, rfl⟩ := h
  rcases List.mem_append.mp ha with ha | ha
  · exact ha
  · exact absurd ((List.pairwise_append.mp ordered).2.2 b hb a ha) hab

end LlingrDemux.Shared
