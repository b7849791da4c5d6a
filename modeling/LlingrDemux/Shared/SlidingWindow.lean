import Mathlib.Data.Nat.ModEq
import Mathlib.Logic.Function.Basic

/-!
# Sliding windows in a ring

A ring of `n` buckets holds what was accumulated in each of the last `n` epochs; moving to a
later epoch clears the buckets in between. `Shows` relates a ring to a function of the
epochs, without a bound on how far it looks back. What comes late is put into the epoch
that is current when it comes: `attributed`.
-/

namespace LlingrDemux.Shared

set_option autoImplicit false

/-- The bucket at `currentIndex` is that of `lastEpoch`. -/
structure Ring (n : Nat) (β : Type*) where
  buckets : Fin n → β
  currentIndex : Fin n
  lastEpoch : Int

namespace Ring
variable {n : Nat} {β ρ : Type*}

def slot (index : Fin n) (i : Nat) : Fin n := ⟨(index + i) % n, Nat.mod_lt _ index.pos⟩

def advance (empty : β) (r : Ring n β) (nowEpoch : Int) : Ring n β :=
  let gap := min (nowEpoch - r.lastEpoch).toNat n
  { buckets := (List.range' 1 gap).foldl
      (fun b i => Function.update b (slot r.currentIndex i) empty) r.buckets
    currentIndex := slot r.currentIndex gap
    lastEpoch := nowEpoch }

/-- Change the current bucket, after moving to the epoch if it is a later one. -/
def put (empty : β) (f : β → β) (nowEpoch : Int) (r : Ring n β) : Ring n β :=
  let q := if nowEpoch > r.lastEpoch then r.advance empty nowEpoch else r
  { q with buckets := Function.update q.buckets q.currentIndex (f (q.buckets q.currentIndex)) }

/-- The buckets, oldest first. -/
def window (r : Ring n β) : List β :=
  (List.range n).map fun i => r.buckets (slot r.currentIndex (1 + i))

section Slot
variable (index : Fin n)

theorem slot_slot (g m : Nat) : slot (slot index g) m = slot index (g + m) := by
  apply Fin.ext
  simp only [slot, Nat.mod_add_mod, Nat.add_assoc]

theorem slot_add_length (m : Nat) : slot index (m + n) = slot index m := by
  apply Fin.ext
  simp only [slot, ← Nat.add_assoc, Nat.add_mod_right]

theorem slot_length : slot index n = index := by
  apply Fin.ext
  simp only [slot, Nat.add_mod_right, Nat.mod_eq_of_lt index.isLt]

/-- `n` consecutive places are distinct. -/
theorem slot_inj {a b : Nat} (ha : 1 ≤ a ∧ a ≤ n) (hb : 1 ≤ b ∧ b ≤ n)
    (h : slot index a = slot index b) : a = b := by
  have hmod : a ≡ b [MOD n] := Nat.ModEq.add_left_cancel' index.val (Fin.val_eq_of_eq h)
  rcases Nat.lt_or_ge a b with hlt | hge
  · have := Nat.le_of_dvd (by omega) ((Nat.modEq_iff_dvd' hlt.le).mp hmod)
    omega
  · rcases Nat.eq_or_lt_of_le hge with heq | hlt
    · exact heq.symm
    · have := Nat.le_of_dvd (by omega) ((Nat.modEq_iff_dvd' hlt.le).mp hmod.symm)
      omega

end Slot

section Update
variable {ι : Type*} [DecidableEq ι] (place : Nat → ι) (v : β)

theorem foldl_update_other {is : List Nat} {j : ι} (h : ∀ i ∈ is, place i ≠ j) (b : ι → β) :
    is.foldl (fun b i => Function.update b (place i) v) b j = b j := by
  induction is generalizing b with
  | nil => rfl
  | cons i is ih =>
    obtain ⟨hi, his⟩ := List.forall_mem_cons.mp h
    rw [List.foldl_cons, ih his, Function.update_of_ne hi.symm]

theorem foldl_update_mem {is : List Nat} {j : ι} (b : ι → β)
    (h : (∃ i ∈ is, place i = j) ∨ b j = v) :
    is.foldl (fun b i => Function.update b (place i) v) b j = v := by
  induction is generalizing b with
  | nil => simpa using h
  | cons k is ih =>
    rw [List.foldl_cons]
    apply ih
    by_cases hk : place k = j
    · right
      rw [hk, Function.update_self]
    · rw [Function.update_of_ne (Ne.symm hk)]
      refine h.imp_left ?_
      rintro ⟨i, hi, heq⟩
      rcases List.mem_cons.mp hi with rfl | hi
      · exact absurd heq hk
      · exact ⟨i, hi, heq⟩

end Update

/-- The ring holds the last `n` epochs of `f`, and nothing has happened later. -/
structure Shows (r : Ring n β) (empty : β) (f : Int → β) : Prop where
  later : ∀ e, r.lastEpoch < e → f e = empty
  past : ∀ m, 1 ≤ m → m ≤ n → r.buckets (slot r.currentIndex m) = f (r.lastEpoch + m - n)

namespace Shows
variable {r : Ring n β} {empty : β} {f : Int → β}

theorem initial (empty : β) (index : Fin n) (epoch : Int) :
    Shows ⟨fun _ => empty, index, epoch⟩ empty fun _ => empty :=
  ⟨fun _ _ => rfl, fun _ _ _ => rfl⟩

theorem current (h : r.Shows empty f) : r.buckets r.currentIndex = f r.lastEpoch := by
  have hn := r.currentIndex.pos
  have := h.past n hn le_rfl
  rwa [slot_length, Int.add_sub_cancel] at this

/-- Moving to a later epoch forgets the oldest ones. -/
theorem advance (h : r.Shows empty f) {nowEpoch : Int} (hlt : r.lastEpoch < nowEpoch) :
    (r.advance empty nowEpoch).Shows empty f := by
  refine ⟨fun e he => h.later e (hlt.trans he), fun m hm hmn => ?_⟩
  simp only [Ring.advance]
  generalize hgap : min (nowEpoch - r.lastEpoch).toNat n = gap
  have hcases : gap = n ∨ (gap : Int) = nowEpoch - r.lastEpoch := by omega
  rw [slot_slot]
  by_cases hwrap : gap + m ≤ n
  · -- a bucket that stays, under a smaller number
    rw [foldl_update_other]
    · rw [h.past (gap + m) (by omega) hwrap]
      congr 1
      omega
    · intro i hi heq
      have hi' := List.mem_range'_1.mp hi
      have := slot_inj r.currentIndex ⟨hi'.1, by omega⟩ ⟨by omega, hwrap⟩ heq
      omega
  · -- a bucket of an epoch behind the last one
    rw [foldl_update_mem, h.later _ (by omega)]
    refine .inl ⟨gap + m - n, List.mem_range'_1.mpr ⟨by omega, by omega⟩, ?_⟩
    rw [← slot_add_length, Nat.sub_add_cancel (by omega)]

theorem modify (h : r.Shows empty f) (g : β → β) :
    Shows { r with buckets :=
      Function.update r.buckets r.currentIndex (g (r.buckets r.currentIndex)) } empty
      (Function.update f r.lastEpoch (g (f r.lastEpoch))) := by
  refine ⟨fun e he => ?_, fun m hm hmn => ?_⟩
  · rw [Function.update_of_ne (ne_of_gt he)]
    exact h.later e he
  · by_cases hlast : m = n
    · subst hlast
      simp only [slot_length, Int.add_sub_cancel, Function.update_self, h.current]
    · have hslot : slot r.currentIndex m ≠ r.currentIndex := by
        intro heq
        have hlength := heq.trans (slot_length r.currentIndex).symm
        exact hlast (slot_inj r.currentIndex ⟨hm, hmn⟩ ⟨by omega, le_rfl⟩ hlength)
      dsimp only
      rw [Function.update_of_ne hslot, Function.update_of_ne (by omega)]
      exact h.past m hm hmn

/-- A change is made in the current epoch, also when it is meant for an earlier one. -/
theorem put (h : r.Shows empty f) (g : β → β) (nowEpoch : Int) :
    (r.put empty g nowEpoch).Shows empty
      (Function.update f (max r.lastEpoch nowEpoch) (g (f (max r.lastEpoch nowEpoch)))) := by
  simp only [Ring.put]
  split_ifs with hlater
  · rw [max_eq_right hlater.le]
    exact (h.advance hlater).modify g
  · rw [max_eq_left (not_lt.mp hlater)]
    exact h.modify g

end Shows

/-! ## What is put into which epoch -/

/-- The elements for which `epoch` is current once they have come. -/
def attributed (epochOf : ρ → Int) (epoch : Int) : Int → List ρ → List ρ
  | _, [] => []
  | last, x :: xs =>
    (if max last (epochOf x) = epoch then [x] else []) ++
      attributed epochOf epoch (max last (epochOf x)) xs

variable (epochOf : ρ → Int)

theorem attributed_sublist (epoch last : Int) (xs : List ρ) :
    (attributed epochOf epoch last xs).Sublist xs := by
  induction xs generalizing last with
  | nil => exact List.Sublist.slnil
  | cons x xs ih =>
    rw [attributed]
    split_ifs
    · exact (ih _).cons_cons x
    · exact (ih _).cons x

theorem attributed_map {τ : Type*} (g : τ → ρ) (epoch last : Int) (xs : List τ) :
    attributed epochOf epoch last (xs.map g) =
      (attributed (fun x => epochOf (g x)) epoch last xs).map g := by
  induction xs generalizing last with
  | nil => rfl
  | cons x xs ih =>
    rw [List.map_cons, attributed, attributed, ih, List.map_append]
    split_ifs <;> rfl

/-- The elements in the order they came, each with the epoch it is put into. -/
def history : Int → List ρ → List (Int × ρ)
  | _, [] => []
  | last, x :: xs =>
    (max last (epochOf x), x) :: history (max last (epochOf x)) xs

theorem attributed_eq_history (epoch last : Int) (xs : List ρ) :
    attributed epochOf epoch last xs =
      ((history epochOf last xs).filter fun q => q.1 = epoch).map Prod.snd := by
  induction xs generalizing last with
  | nil => rfl
  | cons x xs ih =>
    rw [attributed, history, List.filter_cons, ih]
    by_cases he : max last (epochOf x) = epoch
    · simp [he]
    · simp [he]

theorem history_map_snd (last : Int) (xs : List ρ) :
    (history epochOf last xs).map Prod.snd = xs := by
  induction xs generalizing last with
  | nil => rfl
  | cons x xs ih => rw [history, List.map_cons, ih]

theorem history_le (last : Int) (xs : List ρ) :
    ∀ q ∈ history epochOf last xs, q.1 ≤ xs.foldl (fun e x => max e (epochOf x)) last := by
  have hmono : ∀ (xs : List ρ) (e : Int), e ≤ xs.foldl (fun e x => max e (epochOf x)) e := by
    intro xs
    induction xs with
    | nil => exact fun e => le_rfl
    | cons x xs ih => exact fun e => (le_max_left e (epochOf x)).trans (ih _)
  induction xs generalizing last with
  | nil => simp [history]
  | cons x xs ih =>
    intro q hq
    rcases List.mem_cons.mp hq with rfl | hq
    · exact hmono xs _
    · exact ih _ q hq

/-- Elements that come in the order of their epochs are put into their own. -/
theorem history_of_ordered {last : Int} {xs : List ρ} (hlast : ∀ x ∈ xs, last ≤ epochOf x)
    (hordered : xs.Pairwise fun x y => epochOf x ≤ epochOf y) :
    history epochOf last xs = xs.map fun x => (epochOf x, x) := by
  induction xs generalizing last with
  | nil => rfl
  | cons x xs ih =>
    obtain ⟨hfirst, hrest⟩ := List.pairwise_cons.mp hordered
    rw [history, max_eq_right (hlast x List.mem_cons_self), ih hfirst hrest, List.map_cons]

theorem foldl_max_of_ordered {last : Int} {xs : List ρ} (hlast : ∀ x ∈ xs, last ≤ epochOf x)
    (hordered : xs.Pairwise fun x y => epochOf x ≤ epochOf y) {y : ρ} (hy : xs.getLast? = some y) :
    xs.foldl (fun e x => max e (epochOf x)) last = epochOf y := by
  induction xs generalizing last with
  | nil => simp at hy
  | cons x xs ih =>
    obtain ⟨hfirst, hrest⟩ := List.pairwise_cons.mp hordered
    rw [List.foldl_cons, max_eq_right (hlast x List.mem_cons_self)]
    by_cases hxs : xs = []
    · subst hxs
      simp only [List.getLast?_singleton, Option.some.injEq] at hy
      rw [hy, List.foldl_nil]
    · rw [List.getLast?_cons_of_ne_nil hxs] at hy
      exact ih hfirst hrest hy

/-- Consecutive epochs taken one after the other are an interval of the history. -/
theorem flatMap_epochs_perm (h : List (Int × ρ)) (base : Int) (n : Nat) :
    ((List.range n).flatMap fun i : Nat => h.filter fun q => q.1 = base + i).Perm
      (h.filter fun q => base ≤ q.1 ∧ q.1 < base + n) := by
  induction n with
  | zero =>
    rw [List.filter_eq_nil_iff.mpr]
    · exact List.Perm.refl _
    · intro q _
      simp only [decide_eq_true_eq]
      omega
  | succ n ih =>
    rw [List.range_succ, List.flatMap_append, List.flatMap_singleton]
    -- the interval splits into the epochs before the last one and that one
    have hsplit := List.filter_append_perm (fun q : Int × ρ => decide (q.1 < base + n))
      (h.filter fun q => base ≤ q.1 ∧ q.1 < base + (n + 1 : Nat))
    refine (ih.append_right _).trans (List.Perm.trans (List.Perm.of_eq ?_) hsplit)
    rw [List.filter_filter, List.filter_filter]
    congr 1
    · apply List.filter_congr
      intro q _
      simp only [← Bool.decide_and, decide_eq_decide]
      omega
    · apply List.filter_congr
      intro q _
      simp only [← decide_not, ← Bool.decide_and, decide_eq_decide]
      omega

theorem foldl_put_lastEpoch (empty : β) (add : β → ρ → β) (xs : List ρ) (r : Ring n β) :
    (xs.foldl (fun r x => r.put empty (add · x) (epochOf x)) r).lastEpoch =
      xs.foldl (fun e x => max e (epochOf x)) r.lastEpoch := by
  induction xs generalizing r with
  | nil => rfl
  | cons x xs ih =>
    rw [List.foldl_cons, List.foldl_cons, ih]
    congr 1
    simp only [put]
    split_ifs with hlater
    · exact (max_eq_right hlater.le).symm
    · exact (max_eq_left (not_lt.mp hlater)).symm

/-- A ring that elements were put into shows, for every epoch, those attributed to it. -/
theorem Shows.foldl {empty : β} (add : β → ρ → β) (xs : List ρ) {r : Ring n β} {f : Int → β}
    (h : r.Shows empty f) :
    (xs.foldl (fun r x => r.put empty (add · x) (epochOf x)) r).Shows empty fun e =>
      (attributed epochOf e r.lastEpoch xs).foldl add (f e) := by
  induction xs generalizing r f with
  | nil => exact h
  | cons x xs ih =>
    have hrest := ih (h.put (add · x) (epochOf x))
    have hlast := foldl_put_lastEpoch epochOf empty add [x] r
    simp only [List.foldl_cons, List.foldl_nil] at hlast
    rw [hlast] at hrest
    rw [List.foldl_cons]
    convert hrest using 2 with e
    rw [attributed, List.foldl_append]
    split_ifs with he
    · subst he
      simp
    · rw [Function.update_of_ne (Ne.symm he)]
      rfl

theorem Shows.window_getElem {r : Ring n β} {empty : β} {f : Int → β} (h : r.Shows empty f)
    {i : Nat} (hi : i < n) : r.window[i]? = some (f (r.lastEpoch + (i + 1) - n)) := by
  rw [window, List.getElem?_map, List.getElem?_range hi, Option.map_some, h.past _ (by omega)
    (by omega)]
  congr 3
  omega

end Ring

end LlingrDemux.Shared
