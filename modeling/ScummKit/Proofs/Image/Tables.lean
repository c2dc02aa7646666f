import ScummKit.Image.Subimage
import ScummKit.Proofs.Image.Cursor
import ScummKit.Proofs.Words

/-!
# Tables of offsets

The stripes of a picture stand one after the other behind a table of their offsets. As long as the
offsets fit the table, the stretches between them are the stripes again (`stretches_packed`).
-/

namespace ScummKit

open List

/-! ### Stretches -/

theorem Position.cut_middle (a b c : List α) : Position.cut (a ++ (b ++ c)) a.length (a.length + b.length : Nat) = b := by
  have hstart : Position.bound (a ++ (b ++ c)).length a.length = a.length := by
    rw [Position.bound, length_append]
    omega
  have hstop : Position.bound (a ++ (b ++ c)).length (a.length + b.length : Nat) = (a ++ b).length := by
    rw [Position.bound, length_append, length_append, length_append]
    omega
  rw [Position.cut, hstart, hstop, ← append_assoc, take_left, drop_left]

theorem cut_at {data : List α} (a b : List α) {start stop : Int} (hdata : a ++ b <+: data)
    (hstart : (a.length : Int) = start) (hstop : start + b.length = stop) : Position.cut data start stop = b := by
  obtain ⟨rest, rfl⟩ := hdata
  subst hstart hstop
  rw [append_assoc]
  exact Position.cut_middle a b rest

namespace Subimage

def starts (offset : Int) : List (List Int) → List Int
  | [] => []
  | stripe :: rest => offset :: starts (offset + stripe.length) rest

section Layout

variable {stripes : List (List Int)} {offset v : Int} {width i : Nat}

theorem length_starts : (starts offset stripes).length = stripes.length := by
  induction stripes generalizing offset with
  | nil => rfl
  | cons stripe stripes ih => rw [starts, length_cons, length_cons, ih]

theorem mem_starts (h : v ∈ starts offset stripes) : offset ≤ v ∧ v ≤ offset + stripes.flatten.length := by
  induction stripes generalizing offset with
  | nil => cases h
  | cons stripe stripes ih =>
    rw [flatten_cons, length_append]
    rcases mem_cons.1 h with rfl | h
    · omega
    · have := ih h
      omega

theorem getElem?_starts (hi : i < stripes.length) :
    (starts offset stripes)[i]? = some (offset + (stripes.take i).flatten.length) := by
  induction stripes generalizing offset i with
  | nil => cases hi
  | cons stripe stripes ih =>
    cases i with
    | zero => rw [starts, getElem?_cons_zero, take_zero, flatten_nil, length_nil, Int.natCast_zero, Int.add_zero]
    | succ i =>
      rw [starts, getElem?_cons_succ, ih (Nat.lt_of_succ_lt_succ hi), take_succ_cons, flatten_cons,
        length_append, Int.natCast_add, Int.add_assoc]

theorem starts_sub (base : Int) : (starts offset stripes).map (· - base) = starts (offset - base) stripes := by
  induction stripes generalizing offset with
  | nil => rfl
  | cons stripe stripes ih =>
    rw [starts, map_cons, ih, starts, show offset - base + stripe.length = offset + stripe.length - base by omega]

theorem offsetBytes_eq (hwidth : width ≤ Word.maxWidth) :
    offsetBytes width offset stripes = .ok ((starts offset stripes).flatMap (Word.toLE width)) := by
  induction stripes generalizing offset with
  | nil => rfl
  | cons stripe stripes ih =>
    rw [offsetBytes, Word.encodeLE_int hwidth, ih]
    rfl

theorem stretches_starts (before : List Int) : stretches (before ++ stripes.flatten)
    (starts before.length stripes ++ [((before ++ stripes.flatten).length : Int)]) = stripes := by
  induction stripes generalizing before with
  | nil => rfl
  | cons stripe stripes ih =>
    have hlength : ((before ++ stripe).length : Int) = before.length + stripe.length := by
      rw [length_append, Int.natCast_add]
    have hnext := ih (before ++ stripe)
    rw [hlength, append_assoc] at hnext
    have hcut : Position.cut (before ++ (stripe ++ stripes.flatten)) before.length
        ((before.length) + stripe.length) = stripe := by
      have := Position.cut_middle before stripe stripes.flatten
      rwa [Int.natCast_add] at this
    rw [flatten_cons]
    cases stripes with
    | nil =>
      have hend : ((before ++ (stripe ++ List.flatten [])).length : Int) = before.length + stripe.length := by
        simp
      rw [hend]
      simp only [starts, cons_append, nil_append, stretches, hcut]
    | cons stripe' stripes =>
      simp only [starts, cons_append, stretches, hcut]
      rw [starts, cons_append] at hnext
      rw [hnext]

theorem cut_table {xs : List Int} (body : List Int) (hi : xs[i]? = some v) :
    Position.cut (xs.flatMap (Word.toLE width) ++ body) ((i : Int) * (width : Int))
    ((i : Int) * (width : Int) + width) = Word.toLE width v := by
  obtain ⟨hlt, hv⟩ := List.getElem?_eq_some_iff.1 hi
  have hsplit : xs = xs.take i ++ v :: xs.drop (i + 1) := by
    rw [← hv, List.getElem_cons_drop, List.take_append_drop]
  have hbefore : ((xs.take i).flatMap (Word.toLE width)).length = i * width := by
    rw [length_flatMap, map_congr_left fun x _ => Word.length_toLE width x, map_const',
      sum_replicate_nat, length_take, Nat.min_eq_left (Nat.le_of_lt hlt)]
  have hcut := Position.cut_middle ((xs.take i).flatMap (Word.toLE width)) (Word.toLE width v)
    ((xs.drop (i + 1)).flatMap (Word.toLE width) ++ body)
  rw [hbefore, Word.length_toLE] at hcut
  rw [hsplit, flatMap_append, flatMap_cons, append_assoc, append_assoc]
  exact hcut

theorem map_range_getD {β : Type} (xs : List Int) (f : Int → β) :
    (List.range xs.length).map (fun i => f (xs[i]?.getD 0)) = xs.map f := by
  refine ext_getElem (by simp) fun i hi _ => ?_
  rw [length_map, length_range] at hi
  simp [hi]

end Layout

section Packing

variable {stripes : List (List Int)} {width : Nat} {base : Int}

def packed (stripes : List (List Int)) (width : Nat) (base : Int) : List Int :=
  (starts (base + width * stripes.length) stripes).flatMap (Word.toLE width) ++ stripes.flatten

theorem length_table : ((starts (base + width * stripes.length) stripes).flatMap (Word.toLE width)).length
    = width * stripes.length := by
  rw [length_flatMap, map_congr_left fun x _ => Word.length_toLE width x, map_const',
    sum_replicate_nat, length_starts, Nat.mul_comm]

theorem pack_eq (hwidth : width ≤ Word.maxWidth) : pack stripes width base = .ok (packed stripes width base) := by
  rw [pack, offsetBytes_eq hwidth]
  rfl

theorem areBytes_packed (h : ∀ stripe ∈ stripes, AreBytes stripe) : AreBytes (packed stripes width base) := by
  apply AreBytes.append
  · intro b hb
    obtain ⟨v, -, hv⟩ := mem_flatMap.1 hb
    exact Word.areBytes_toLE width v b hv
  · intro b hb
    obtain ⟨stripe, hstripe, hb⟩ := mem_flatten.1 hb
    exact h stripe hstripe b hb

theorem stretches_packed (hwidth : width ≤ Word.maxWidth) (hbase : 0 ≤ base)
    (hfits : base + (packed stripes width base).length < (Nat.pow 256 width : Nat)) {columns : Int}
    (hcolumns : stripeCount columns = stripes.length) :
    ∃ table, offsets (packed stripes width base) columns width base = .ok table ∧
    stretches (packed stripes width base) table = stripes := by
  have hlength : (packed stripes width base).length = width * stripes.length + stripes.flatten.length := by
    rw [packed, length_append, length_table]
  have hread : ∀ i ∈ List.range stripes.length,
      (do return (← Word.decodeLE (Position.cut (packed stripes width base) (i * width)
          (i * width + width)) width) - base)
        = .ok ((starts (base + width * stripes.length) stripes)[i]?.getD 0 - base) := by
    intro i hi
    have hi := mem_range.1 hi
    have hget : (starts (base + width * stripes.length) stripes)[i]? = some _ :=
      getElem?_eq_getElem (by rw [length_starts]; exact hi)
    have hmem := mem_starts (mem_of_getElem? hget)
    rw [packed, cut_table stripes.flatten hget, Word.decodeLE_toLE hwidth (by omega) (by omega), hget]
    rfl
  refine ⟨_, ?_, stretches_starts ((starts (base + width * stripes.length) stripes).flatMap (Word.toLE width))⟩
  have hstarts : (List.range stripes.length).map (fun i => (starts (base + width * stripes.length) stripes)[i]?.getD 0 - base)
      = starts (width * stripes.length : Nat) stripes := by
    have hmap := map_range_getD (starts (base + width * stripes.length) stripes) (· - base)
    rw [length_starts] at hmap
    rw [hmap, starts_sub, Int.natCast_mul, show base + width * stripes.length - base = width * stripes.length by omega]
  rw [offsets, hcolumns, mapM_ok hread, hstarts, length_table]
  rfl

end Packing

end Subimage

end ScummKit
