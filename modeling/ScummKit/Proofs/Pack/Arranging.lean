import Mathlib.Data.List.Nodup
import ScummKit.Pack.Arrange

/-!
# Values in the order of a list

Arranged values stand by their places, and those of one place as they stood before (`pairwise_arrange`). What
the list does not name has the place of the number of values. So a value that is named at that place or behind
it can come after one that is not named.
-/

namespace ScummKit.Pack

open List

variable {α : Type} [DecidableEq α] {order values : List α} {a : α}

/-- A value comes before another: it has the smaller place, or it stood in front at the same place. -/
def Before (order values : List α) (a b : α) : Prop :=
  placeIn order values.length a < placeIn order values.length b ∨
  placeIn order values.length a = placeIn order values.length b ∧ values.idxOf a < values.idxOf b

theorem perm_arrange (order values : List α) : (arrange order values).Perm values := mergeSort_perm ..

theorem pairwise_arrange (h : values.Nodup) : (arrange order values).Pairwise (Before order values) := by
  have hplace : ∀ p ∈ values.zipIdx, values.idxOf p.1 = p.2 := by
    intro p hp
    obtain ⟨hi, hvalue⟩ := List.getElem?_eq_some_iff.1 (mk_mem_zipIdx_iff_getElem?.1 hp)
    rw [← hvalue, h.idxOf_getElem]
  have hapart := (perm_arrange order values).nodup_iff.2 h
  -- a stable sort is a sort of the values together with where they stood
  rw [arrange, ← mergeSort_zipIdx] at hapart ⊢
  refine pairwise_map.2 (((pairwise_mergeSort (zipIdxLE_trans ?_) (zipIdxLE_total ?_) _).and (pairwise_map.1 hapart)).imp_of_mem ?_)
  · simp only [decide_eq_true_eq]
    exact fun _ _ _ => Nat.le_trans
  · simp only [Bool.or_eq_true, decide_eq_true_eq]
    exact fun _ _ => Nat.le_total ..
  · rintro ⟨a, i⟩ ⟨b, j⟩ hp hq ⟨hle, hne⟩
    have ha : values.idxOf a = i := hplace _ (mem_mergeSort.1 hp)
    have hb : values.idxOf b = j := hplace _ (mem_mergeSort.1 hq)
    have hij : i ≠ j := fun heq => hne ((idxOf_inj (fst_mem_of_mem_zipIdx (mem_mergeSort.1 hp))).1 (by rw [ha, hb, heq]))
    simp only [zipIdxLE, decide_eq_true_eq] at hle
    change Before order values a b
    rw [Before]
    split at hle
    · split at hle <;> simp only [decide_eq_true_eq] at hle <;> omega
    · cases hle

/-- Values that a list names come first, by their first place in it, and then the others as they stood. -/
def NamedFirst (order values arranged : List α) : Prop :=
  ∃ named, named.Perm (values.filter (· ∈ order)) ∧ named.Pairwise (order.idxOf · < order.idxOf ·) ∧
    arranged = named ++ values.filter (· ∉ order)

theorem placeIn_of_mem (h : a ∈ order) (n : Nat) : placeIn order n a = order.idxOf a := if_pos (contains_iff_mem.2 h)

theorem placeIn_of_not_mem (h : a ∉ order) (n : Nat) : placeIn order n a = n := if_neg (mt contains_iff_mem.1 h)

theorem pairwise_others (h : values.Nodup) : (values.filter (· ∉ order)).Pairwise (Before order values) := by
  have hvalues : values.Pairwise (values.idxOf · < values.idxOf ·) :=
    pairwise_iff_getElem.2 fun i j _ _ hij => by rwa [h.idxOf_getElem, h.idxOf_getElem]
  refine (hvalues.sublist filter_sublist).imp_of_mem fun ha hb hlt => Or.inr ⟨?_, hlt⟩
  rw [placeIn_of_not_mem (of_decide_eq_true (mem_filter.1 ha).2), placeIn_of_not_mem (of_decide_eq_true (mem_filter.1 hb).2)]

/-- Values come out in another order, and named ones come first exactly if none of them is named too late: behind as many
others as there are values, or right behind as many and having stood behind a value without a name. -/
theorem arrange_named_first (order values : List α) (h : values.Nodup) : (arrange order values).Perm values ∧
    (NamedFirst order values (arrange order values) ↔ ∀ a ∈ values, ∀ b ∈ values, a ∈ order → b ∉ order →
    order.idxOf a < values.length ∨ order.idxOf a = values.length ∧ values.idxOf a < values.idxOf b) := by
  have hperm := perm_arrange order values
  have hpairs : (arrange order values).Pairwise (Before order values) := pairwise_arrange h
  have hbefore {a b : α} (ha : a ∈ order) (hb : b ∉ order) : Before order values a b ↔
      order.idxOf a < values.length ∨ order.idxOf a = values.length ∧ values.idxOf a < values.idxOf b := by
    rw [Before, placeIn_of_mem ha, placeIn_of_not_mem hb]
  refine ⟨hperm, fun ⟨named, hnamed, _, heq⟩ a ha b hb hin hout => ?_, fun hearly => ?_⟩
  · rw [heq, pairwise_append] at hpairs
    refine (hbefore hin hout).1 (hpairs.2.2 a (hnamed.mem_iff.2 ?_) b ?_) <;> simp [*]
  · have hnamed := hpairs.filter (· ∈ order)
    refine ⟨_, hperm.filter _, hnamed.imp_of_mem fun {a b} ha hb hab => ?_, ?_⟩
    · have hin := of_decide_eq_true (mem_filter.1 ha).2
      rw [Before, placeIn_of_mem hin, placeIn_of_mem (of_decide_eq_true (mem_filter.1 hb).2)] at hab
      refine hab.resolve_right fun heq => ?_
      rw [(idxOf_inj hin).1 heq.1] at heq
      omega
    · refine Perm.eq_of_pairwise (fun a b _ _ hab hba => ?_) hpairs
        (pairwise_append.2 ⟨hnamed, pairwise_others h, fun a ha b hb => ?_⟩) ?_
      · unfold Before at hab hba
        omega
      · have hin := mem_filter.1 ha
        have hout := mem_filter.1 hb
        have hfirst := of_decide_eq_true hin.2
        have hlast := of_decide_eq_true hout.2
        exact (hbefore hfirst hlast).2 (hearly a (hperm.mem_iff.1 hin.1) b hout.1 hfirst hlast)
      · refine hperm.trans (((hperm.filter _).append_right _).trans ?_).symm
        simpa using filter_append_perm (· ∈ order) values

/-- The last of four names comes too late for one of two values. -/
theorem arrange_named_first_late : [9, 1].Nodup ∧ ¬ NamedFirst [5, 6, 7, 1] [9, 1] (arrange [5, 6, 7, 1] [9, 1]) :=
  ⟨by decide, fun h => absurd ((arrange_named_first [5, 6, 7, 1] [9, 1] (by decide)).2.1 h 1 (by decide) 9 (by decide)) (by decide)⟩

end ScummKit.Pack
