import Mathlib
import ScummKit.Costume.Basic
import ScummKit.Proofs.Image.Tables

/-!
# Slots and offsets of costumes

The parts of a costume follow each other without their lengths, and slots reach them through tables of
offsets. A table that is written for parts of some lengths is read back as the places of the parts
(`decodeOffsets_table`), the end of a part is the next larger offset (`nextOffset_part`), and slots that
number parts in the order of first use find the same numbers and the same parts again
(`foldlM_numbered`, `Found.Knows.slot`).
-/

namespace ScummKit.Costume

open List

variable {xs : List Int} {lengths : List Nat} {map : List Int} {m n : Nat} {v : Int}

/-! ### Ascending offsets -/

section Ascending

variable {offset x low : Int} {table sorted : List Int} (last : Int)

theorem mem_insertOffset : x ∈ insertOffset offset xs ↔ x = offset ∨ x ∈ xs := by
  induction xs with
  | nil => simp [insertOffset]
  | cons o rest ih =>
    rw [insertOffset]
    split
    · rename_i heq
      rw [heq, mem_cons]
      tauto
    · split
      · rw [mem_cons]
      · rw [mem_cons, mem_cons]
        tauto

theorem pairwise_insertOffset (h : xs.Pairwise (· < ·)) : (insertOffset offset xs).Pairwise (· < ·) := by
  induction xs with
  | nil => exact pairwise_singleton _ _
  | cons o rest ih =>
    obtain ⟨hhead, htail⟩ := pairwise_cons.1 h
    rw [insertOffset]
    split
    · exact h
    · split
      · rename_i hlt
        refine pairwise_cons.2 ⟨fun y hy => ?_, h⟩
        rcases mem_cons.1 hy with rfl | hy
        · exact hlt
        · exact Int.lt_trans hlt (hhead y hy)
      · refine pairwise_cons.2 ⟨fun y hy => ?_, ih htail⟩
        rcases mem_insertOffset.1 hy with rfl | hy
        · omega
        · exact hhead y hy

theorem foldl_insertOffset (h : sorted.Pairwise (· < ·)) :
    (xs.foldl (fun sorted o => insertOffset o sorted) sorted).Pairwise (· < ·) ∧
    ∀ y, y ∈ xs.foldl (fun sorted o => insertOffset o sorted) sorted ↔ y ∈ sorted ∨ y ∈ xs := by
  induction xs generalizing sorted with
  | nil => exact ⟨h, fun y => by simp⟩
  | cons o rest ih =>
    have hinsert : (insertOffset o sorted).Pairwise (· < ·) := pairwise_insertOffset h
    obtain ⟨hsorted, hmem⟩ := ih hinsert
    refine ⟨hsorted, fun y => ?_⟩
    rw [foldl_cons, hmem, mem_insertOffset, mem_cons]
    tauto

theorem pairwise_orderedOffsets : (orderedOffsets table).Pairwise (· < ·) := (foldl_insertOffset List.Pairwise.nil).1

theorem mem_orderedOffsets : x ∈ orderedOffsets table ↔ x ∈ table ∧ 2 < x := by
  rw [orderedOffsets, (foldl_insertOffset List.Pairwise.nil).2, mem_filter, isOffset]
  simp

theorem nextOffset_eq_find (h : xs.Pairwise (· < ·)) (hoffset : offset ∈ xs) :
    nextOffset offset last xs = (xs.find? (offset < ·)).getD last := by
  induction xs with
  | nil => cases hoffset
  | cons o rest ih =>
    obtain ⟨hhead, htail⟩ := pairwise_cons.1 h
    cases rest with
    | nil => simp [nextOffset, mem_singleton.1 hoffset]
    | cons o' rest =>
      rw [nextOffset]
      split
      · rename_i heq
        simp [← heq, hhead o' mem_cons_self]
      · rename_i hne
        have hbehind := (mem_cons.1 hoffset).resolve_left (Ne.symm hne)
        have := hhead offset hbehind
        rw [ih htail hbehind, find?_cons_of_neg (a := o) (by simp; omega)]

theorem nextOffset_eq {next : Int} (hoffset : offset ∈ table) (htwo : 2 < offset)
    (hnext : next ∈ table) (hlt : offset < next) (hleast : ∀ y ∈ table, offset < y → next ≤ y) :
    nextOffset offset last (orderedOffsets table) = next := by
  have hsorted : (orderedOffsets table).Pairwise (· < ·) := pairwise_orderedOffsets
  rw [nextOffset_eq_find last hsorted (mem_orderedOffsets.2 ⟨hoffset, htwo⟩)]
  obtain ⟨before, after, hsplit⟩ := append_of_mem (mem_orderedOffsets.2 ⟨hnext, Int.lt_trans htwo hlt⟩)
  rw [find?_eq_some_iff_append.2 ⟨by simpa using hlt, before, after, hsplit, fun y hy => ?_⟩, Option.getD_some]
  rw [hsplit] at hsorted
  have hless := (pairwise_append.1 hsorted).2.2 y hy next mem_cons_self
  have hmem : y ∈ orderedOffsets table := hsplit ▸ mem_append_left _ hy
  have := hleast y (mem_orderedOffsets.1 hmem).1
  simp
  omega

theorem nextOffset_last (hoffset : offset ∈ table) (htwo : 2 < offset)
    (hlargest : ∀ y ∈ table, y ≤ offset) : nextOffset offset last (orderedOffsets table) = last := by
  rw [nextOffset_eq_find last pairwise_orderedOffsets (mem_orderedOffsets.2 ⟨hoffset, htwo⟩), find?_eq_none.2, Option.getD_none]
  exact fun y hy => by simpa using hlargest y (mem_orderedOffsets.1 hy).1

theorem foldl_lowest (hsorted : ∀ y ∈ sorted, 2 < y) (hxs : ∀ y ∈ xs, 2 < y) :
    xs.foldl (fun low o => if low = -1 ∨ o < low then o else low) (sorted.headD (-1))
    = (xs.foldl (fun sorted o => insertOffset o sorted) sorted).headD (-1) := by
  induction xs generalizing sorted with
  | nil => rfl
  | cons o rest ih =>
    obtain ⟨ho, hrest⟩ := forall_mem_cons.1 hxs
    have hinsert : ∀ y ∈ insertOffset o sorted, 2 < y := by
      intro y hy
      rcases mem_insertOffset.1 hy with rfl | hy
      · exact ho
      · exact hsorted y hy
    rw [foldl_cons, foldl_cons, ← ih hinsert hrest]
    cases sorted with
    | nil => rfl
    | cons least sorted =>
      have := hsorted least mem_cons_self
      rw [insertOffset, headD_cons]
      split
      · rw [if_neg (by omega), if_pos (by omega), headD_cons]
      · split
        · rfl
        · rw [if_neg (by omega), headD_cons]

theorem lowestOffset_eq_headD (table : List Int) : lowestOffset table = (orderedOffsets table).headD (-1) :=
  foldl_lowest (forall_mem_nil _) fun _ hy => of_decide_eq_true (mem_filter.1 hy).2

theorem le_lowestOffset {bound : Int} (hin : ∃ y ∈ table, 2 < y) (hbound : ∀ y ∈ table, 2 < y → bound ≤ y) :
    bound ≤ lowestOffset table := by
  obtain ⟨y, hy⟩ := hin
  obtain ⟨least, rest, hordered⟩ := exists_cons_of_ne_nil (ne_nil_of_mem (mem_orderedOffsets.2 hy))
  have hleast : least ∈ orderedOffsets table := hordered ▸ mem_cons_self
  rw [lowestOffset_eq_headD, hordered]
  exact hbound least (mem_orderedOffsets.1 hleast).1 (mem_orderedOffsets.1 hleast).2

theorem lowestOffset_eq (hin : low ∈ table) (hlow : 2 < low) (hleast : ∀ y ∈ table, 2 < y → low ≤ y) :
    lowestOffset table = low := by
  refine Int.le_antisymm ?_ (le_lowestOffset ⟨low, hin, hlow⟩ hleast)
  obtain ⟨least, rest, hordered⟩ := exists_cons_of_ne_nil (ne_nil_of_mem (mem_orderedOffsets.2 ⟨hin, hlow⟩))
  have hsorted : (orderedOffsets table).Pairwise (· < ·) := pairwise_orderedOffsets
  rw [hordered] at hsorted
  rw [lowestOffset_eq_headD, hordered]
  rcases mem_cons.1 (hordered ▸ mem_orderedOffsets.2 ⟨hin, hlow⟩) with rfl | hrest
  · exact Int.le_refl _
  · exact Int.le_of_lt ((pairwise_cons.1 hsorted).1 low hrest)

end Ascending

/-! ### Parts that follow each other -/

/-- Where a part begins among parts of some lengths that follow each other from a place on. -/
def partStart (start : Int) (lengths : List Nat) (k : Nat) : Int := start + ((lengths.take k).sum : Nat)

section Places

variable (start : Int) (lengths : List Nat) {j k : Nat}

theorem partStart_zero : partStart start lengths 0 = start := by
  rw [partStart, take_zero, sum_nil]
  omega

theorem partStart_length : partStart start lengths lengths.length = start + (lengths.sum : Nat) := by
  rw [partStart, take_length]

theorem partStart_le (hjk : j ≤ k) : partStart start lengths j ≤ partStart start lengths k := by
  obtain ⟨n, rfl⟩ := Nat.exists_eq_add_of_le hjk
  rw [partStart, partStart, take_add, sum_append]
  omega

theorem le_partStart (k : Nat) : start ≤ partStart start lengths k := by
  have hle := partStart_le start lengths (Nat.zero_le k)
  rwa [partStart_zero] at hle

theorem partStart_le_end (k : Nat) : partStart start lengths k ≤ start + (lengths.sum : Nat) := by
  rcases Nat.le_total k lengths.length with hk | hk
  · have hle := partStart_le start lengths hk
    rwa [partStart_length] at hle
  · exact Int.le_of_eq (by rw [partStart, take_of_length_le hk])

variable {lengths}

theorem partStart_succ (hk : k < lengths.length) :
    partStart start lengths (k + 1) = partStart start lengths k + (lengths[k] : Nat) := by
  rw [partStart, partStart, take_succ_eq_append_getElem hk, sum_append, sum_singleton]
  omega

theorem partStart_lt (hpos : ∀ n ∈ lengths, 0 < n) (hjk : j < k) (hj : j < lengths.length) :
    partStart start lengths j < partStart start lengths k := by
  have hstep := partStart_succ start hj
  have hlength := hpos _ (getElem_mem hj)
  have hle := partStart_le start lengths (Nat.succ_le_of_lt hjk)
  rw [Nat.succ_eq_add_one] at hle
  omega

theorem partStart_inj (hpos : ∀ n ∈ lengths, 0 < n) (hj : j < lengths.length) (hk : k < lengths.length)
    (h : partStart start lengths j = partStart start lengths k) : j = k := by
  rcases Nat.lt_trichotomy j k with hlt | heq | hgt
  · have := partStart_lt start hpos hlt hj
    omega
  · exact heq
  · have := partStart_lt start hpos hgt hk
    omega

end Places

theorem cut_part (before after : List Int) {part : List Int} {parts : List (List Int)} {k : Nat}
    (hk : parts[k]? = some part) {stop : Int} (hstop : partStart before.length (parts.map List.length) (k + 1) ≤ stop) :
    ∃ rest, Position.cut (before ++ (parts.flatten ++ after))
    (partStart before.length (parts.map List.length) k) stop = part ++ rest ∧
    (stop = partStart before.length (parts.map List.length) (k + 1) → rest = []) := by
  obtain ⟨hlt, hpart⟩ := List.getElem?_eq_some_iff.1 hk
  have hlt' : k < (parts.map List.length).length := by rwa [List.length_map]
  have hsplit : parts = parts.take k ++ part :: parts.drop (k + 1) := by
    rw [← hpart, List.getElem_cons_drop, List.take_append_drop]
  have hfront : ((before ++ (parts.take k).flatten).length) = partStart before.length (parts.map List.length) k := by
    rw [partStart, length_append, length_flatten, map_take]
    omega
  have hdata : before ++ (parts.flatten ++ after)
      = (before ++ (parts.take k).flatten) ++ (part ++ ((parts.drop (k + 1)).flatten ++ after)) := by
    have hflatten : parts.flatten = (parts.take k).flatten ++ (part ++ (parts.drop (k + 1)).flatten) := by
      rw [← flatten_cons, ← flatten_append, ← hsplit]
    rw [hflatten, append_assoc, append_assoc, append_assoc]
  have hend : partStart before.length (parts.map List.length) (k + 1)
      = partStart before.length (parts.map List.length) k + part.length := by
    rw [partStart_succ _ hlt', getElem_map, hpart]
  generalize before ++ (parts.take k).flatten = front at hfront hdata
  generalize (parts.drop (k + 1)).flatten ++ after = tail at hdata
  rw [hend] at hstop ⊢
  rw [← hfront] at hstop ⊢
  have hstart : Position.bound (front ++ (part ++ tail)).length front.length = front.length := by
    rw [Position.bound, length_append]
    omega
  have hcut : ∃ n, Position.bound (front ++ (part ++ tail)).length stop = front.length + (part.length + n) ∧
      (stop = (front.length) + part.length → n = 0) := by
    have hbound : Position.bound (front ++ (part ++ tail)).length stop = min stop.toNat (front ++ (part ++ tail)).length := by
      rw [Position.bound, if_neg (by omega)]
    refine ⟨Position.bound (front ++ (part ++ tail)).length stop - front.length - part.length, ?_, ?_⟩
    · rw [hbound, length_append, length_append]
      omega
    · omega
  obtain ⟨n, hn, hzero⟩ := hcut
  refine ⟨tail.take n, ?_, fun heq => by rw [hzero heq, take_zero]⟩
  rw [hdata, Position.cut, hstart, hn, take_length_add_append, take_length_add_append, drop_left]

/-! ### Tables -/

def offsetOf (lengths : List Nat) (start null v : Int) : Int := if v = -1 then null else partStart start lengths v.toNat

/-- The tables of offsets of an index map, as they are written. -/
def tableBytes (lengths : List Nat) (start base null : Int) (map : List Int) : List Int :=
  (map.map (offsetOf lengths (start - base) null)).flatMap (Word.toLE 2)

def nullOffset (lengths : List Nat) (start : Int) (nullAtEnd : Bool) : Int :=
  if nullAtEnd then start + (lengths.sum : Nat) else 0

theorem encodeOffsets_eq {start : Int} (base : Int) (nullAtEnd : Bool) (hmap : ∀ v ∈ map, v = -1 ∨ 0 ≤ v ∧ v < lengths.length) :
    encodeOffsets lengths (start - base) (map.map Json.int) nullAtEnd
    = .ok (tableBytes lengths start base (nullOffset lengths (start - base) nullAtEnd) map) := by
  generalize hnull : nullOffset lengths (start - base) nullAtEnd = null
  have hentry : ∀ v ∈ map, entryBytes lengths (start - base) null (Json.int v)
      = .ok (Word.toLE 2 (offsetOf lengths (start - base) null v)) := by
    intro v hv
    rcases hmap v hv with rfl | ⟨h0, hlt⟩
    · rfl
    · have hempty : isNull (.int v) = false := decide_eq_false (by omega)
      rw [entryBytes, hempty, offsetOf, if_neg (by decide), if_neg (by omega)]
      simp only [Json.integer, Bind.bind, Except.bind, if_neg (show ¬lengths.length < v by omega)]
      rfl
  rw [tableBytes, flatMap_map]
  change (do return (← (map.map Json.int).mapM (entryBytes lengths (start - base) (nullOffset lengths (start - base) nullAtEnd))).flatten) = _
  rw [hnull, mapM_map_ok hentry]
  rfl

theorem decodeOffsets_table (base : Int) (hxs : ∀ v ∈ xs, 0 ≤ v ∧ v < 65536) :
    decodeOffsets (xs.flatMap (Word.toLE 2)) xs.length base = .ok (xs.map (· + base)) := by
  have hread : ∀ i ∈ List.range xs.length,
      (do return (← Word.decodeLE (Position.cut (xs.flatMap (Word.toLE 2)) (2 * i) (2 * i + 2)) 2)
          + base) = .ok (xs[i]?.getD 0 + base) := by
    intro i hi
    obtain ⟨v, hget⟩ : ∃ v, xs[i]? = some v := ⟨_, getElem?_eq_getElem (mem_range.1 hi)⟩
    have hrange := hxs v (mem_of_getElem? hget)
    have hcut : Position.cut (xs.flatMap (Word.toLE 2)) (2 * i) (2 * i + 2) = Word.toLE 2 v := by
      have htable : Position.cut (xs.flatMap (Word.toLE 2) ++ []) (i * (2 : Nat))
          (i * (2 : Nat) + 2) = Word.toLE 2 v := Subimage.cut_table [] hget
      rwa [append_nil, Int.mul_comm] at htable
    have hdecode : Word.decodeLE (Word.toLE 2 v) 2 = .ok v :=
      Word.decodeLE_toLE (by decide) hrange.1 hrange.2
    rw [hcut, hdecode, hget]
    rfl
  rw [decodeOffsets, Int.toNat_natCast, mapM_ok hread, Subimage.map_range_getD xs (· + base)]

theorem decodeOffsets_tableBytes {lengths : List Nat} {start base null : Int} (map : List Int)
    (hstart : base ≤ start) (hend : start + (lengths.sum : Nat) < 65536 + base) (hnull : 0 ≤ null ∧ null < 65536) :
    decodeOffsets (tableBytes lengths start base null map) map.length base
    = .ok (map.map (offsetOf lengths start (null + base))) := by
  have hbounds : ∀ v ∈ map.map (offsetOf lengths (start - base) null), 0 ≤ v ∧ v < 65536 := by
    intro v hv
    obtain ⟨w, -, rfl⟩ := mem_map.1 hv
    rw [offsetOf]
    split
    · exact hnull
    · have hlow := le_partStart (start - base) lengths w.toNat
      have hhigh := partStart_le_end (start - base) lengths w.toNat
      omega
  have hdecode := decodeOffsets_table base hbounds
  rw [length_map, map_map] at hdecode
  rw [tableBytes, hdecode]
  congr 1
  refine map_congr_left fun v _ => ?_
  rw [Function.comp_apply, offsetOf, offsetOf]
  split
  · rfl
  · rw [partStart, partStart]
    omega

/-! ### Numbers in the order of first use -/

/-- The number of parts that slots number in the order of first use, if they do. Some parts may have
numbers already. -/
def numberedTo : Nat → List Int → Option Nat
  | n, [] => some n
  | n, v :: rest =>
    if v = -1 ∨ 0 ≤ v ∧ v < n then numberedTo n rest
    else if v = n then numberedTo (n + 1) rest
    else none

/-- How a slot counts: it is empty, or has the number of a part that was met before, or that of the next one. -/
inductive Counts : Nat → Int → Nat → Prop
  | null {m : Nat} : Counts m (-1) m
  | seen {m k : Nat} (h : k < m) : Counts m k m
  | new {m : Nat} : Counts m m (m + 1)

theorem counts_of_numberedTo {rest : List Int} (h : numberedTo m (v :: rest) = some n) :
    ∃ m', Counts m v m' ∧ numberedTo m' rest = some n := by
  rw [numberedTo] at h
  split at h
  · rename_i hold
    rcases hold with rfl | ⟨h0, hlt⟩
    · exact ⟨m, .null, h⟩
    · obtain ⟨k, rfl⟩ := Int.eq_ofNat_of_zero_le h0
      exact ⟨m, .seen (Int.ofNat_lt.1 hlt), h⟩
  · split at h
    · rename_i hnew
      exact ⟨m + 1, hnew ▸ .new, h⟩
    · cases h

section

variable (h : numberedTo m map = some n)

include h

theorem le_of_numberedTo : m ≤ n := by
  induction map generalizing m with
  | nil => exact Nat.le_of_eq (Option.some.inj h)
  | cons v rest ih =>
    obtain ⟨m', hv, h⟩ := counts_of_numberedTo h
    have := ih h
    cases hv <;> omega

theorem mem_of_numberedTo (hv : v ∈ map) : v = -1 ∨ 0 ≤ v ∧ v < n := by
  induction map generalizing m with
  | nil => cases hv
  | cons w rest ih =>
    obtain ⟨m', hw, hrest⟩ := counts_of_numberedTo h
    rcases mem_cons.1 hv with rfl | hv
    · have := le_of_numberedTo hrest
      cases hw <;> omega
    · exact ih hrest hv

theorem exists_slot_of_numberedTo {k : Nat} (hm : m ≤ k) (hn : k < n) : (k : Int) ∈ map := by
  induction map generalizing m with
  | nil =>
    have := Option.some.inj h
    omega
  | cons w rest ih =>
    obtain ⟨m', hw, h⟩ := counts_of_numberedTo h
    by_cases hk : m' ≤ k
    · exact mem_cons_of_mem _ (ih h hk)
    · cases hw with
      | new =>
        obtain rfl : k = m := by omega
        exact mem_cons_self
      | _ => omega

end

/-- Slots that number parts in the order of first use are read one by one, each with the number it had. -/
theorem foldlM_numbered {σ : Type} {step : σ → γ → Except Fault σ} {value : γ → Int} {P : Nat → σ → Prop} {g : σ → List Int}
    {slots : List γ} (hstep : ∀ x ∈ slots, ∀ s m m', Counts m (value x) m' → m' ≤ n → P m s →
    ∃ s', step s x = .ok s' ∧ P m' s' ∧ g s' = g s ++ [value x])
    {s : σ} (h : P m s) (hnumbers : numberedTo m (slots.map value) = some n) :
    ∃ s', slots.foldlM step s = .ok s' ∧ P n s' ∧ g s' = g s ++ slots.map value := by
  induction slots generalizing s m with
  | nil =>
    cases hnumbers
    exact ⟨s, rfl, h, (append_nil _).symm⟩
  | cons x rest ih =>
    obtain ⟨m', hx, hnumbers⟩ := counts_of_numberedTo hnumbers
    obtain ⟨s', hs', hP, hg⟩ := hstep x mem_cons_self s m m' hx (le_of_numberedTo hnumbers) h
    obtain ⟨s'', hs'', hP', hg'⟩ := ih (fun y hy => hstep y (mem_cons_of_mem _ hy)) hP hnumbers
    refine ⟨s'', ?_, hP', ?_⟩
    · rw [foldlM_cons, hs']
      exact hs''
    · rw [hg', hg, map_cons, append_assoc, singleton_append]

theorem numberedTo_append {more : List Int} :
    numberedTo m (map ++ more) = (numberedTo m map).bind fun k => numberedTo k more := by
  induction map generalizing m with
  | nil => rfl
  | cons v rest ih =>
    rw [cons_append, numberedTo, numberedTo]
    split
    · exact ih
    · split
      · exact ih
      · rfl

/-- Slots that each have a part or none, and of which each part has one. -/
structure Covers (map : List Int) (n : Nat) : Prop where
  slot : ∀ v ∈ map, v = -1 ∨ 0 ≤ v ∧ v < n
  part : ∀ k < n, (k : Int) ∈ map

theorem covers_of_numberedTo (h : numberedTo 0 map = some n) : Covers map n :=
  ⟨fun _ => mem_of_numberedTo h, fun k => exists_slot_of_numberedTo h (Nat.zero_le k)⟩

section Ends

variable {start null last : Int} {k : Nat}

theorem offsetOf_natCast (lengths : List Nat) (start null : Int) (k : Nat) :
    offsetOf lengths start null k = partStart start lengths k := by rw [offsetOf, if_neg (by omega), Int.toNat_natCast]

theorem mem_offsets (hmap : Covers map lengths.length) {y : Int} (hy : y ∈ map.map (offsetOf lengths start null)) :
    -1 ∈ map ∧ y = null ∨ ∃ j < lengths.length, y = partStart start lengths j := by
  obtain ⟨v, hv, rfl⟩ := mem_map.1 hy
  rcases hmap.slot v hv with rfl | ⟨h0, hlt⟩
  · exact Or.inl ⟨hv, rfl⟩
  · obtain ⟨j, rfl⟩ := Int.eq_ofNat_of_zero_le h0
    exact Or.inr ⟨j, by omega, offsetOf_natCast _ _ _ j⟩

theorem partStart_mem_offsets (start null : Int) (hmap : Covers map lengths.length) (hk : k < lengths.length) :
    partStart start lengths k ∈ map.map (offsetOf lengths start null) :=
  mem_map.2 ⟨k, hmap.part k hk, offsetOf_natCast _ _ _ k⟩

/-- Behind the largest offset is what is said to be the end. -/
theorem nextOffset_end {offset : Int} (last : Int) (hmap : Covers map lengths.length)
    (hoffset : offset ∈ map.map (offsetOf lengths start null)) (htwo : 2 < offset) (hnull : -1 ∈ map → null ≤ offset)
    (hparts : ∀ j < lengths.length, partStart start lengths j ≤ offset) :
    nextOffset offset last (orderedOffsets (map.map (offsetOf lengths start null))) = last := by
  refine nextOffset_last last hoffset htwo fun y hy => ?_
  rcases mem_offsets hmap hy with ⟨hslot, rfl⟩ | ⟨j, hj, rfl⟩
  · exact hnull hslot
  · exact hparts j hj

/-- A part ends where the next one begins. The last one ends where slots without a part point to, or where
it is said to end. -/
theorem nextOffset_part (hmap : Covers map lengths.length) (hpos : ∀ n ∈ lengths, 0 < n)
    (hstart : 2 < start) (hnull : null ≤ 2 ∨ null = partStart start lengths lengths.length) (hk : k < lengths.length)
    (hlast : k + 1 < lengths.length ∨ -1 ∈ map ∧ null = partStart start lengths lengths.length ∨
    last = partStart start lengths lengths.length) :
    nextOffset (partStart start lengths k) last (orderedOffsets (map.map (offsetOf lengths start null)))
    = partStart start lengths (k + 1) := by
  have htwo := Int.lt_of_lt_of_le hstart (le_partStart start lengths k)
  have hmem := partStart_mem_offsets start null hmap hk
  have hstep := partStart_lt start hpos (Nat.lt_add_one k) hk
  have hsucc : partStart start lengths (k + 1) ≤ partStart start lengths lengths.length :=
    partStart_le start lengths hk
  -- what is larger than one part begins no earlier than the next
  have hleast : ∀ y ∈ map.map (offsetOf lengths start null), partStart start lengths k < y → partStart start lengths (k + 1) ≤ y := by
    intro y hy hlt
    rcases mem_offsets hmap hy with ⟨-, rfl⟩ | ⟨j, hj, rfl⟩
    · omega
    · refine partStart_le start lengths (Nat.succ_le_of_lt (Nat.lt_of_not_le fun hjk => ?_))
      have hle := partStart_le start lengths hjk
      omega
  by_cases hin : k + 1 < lengths.length
  · exact nextOffset_eq last hmem htwo (partStart_mem_offsets start null hmap hin) hstep hleast
  · rw [show k + 1 = lengths.length by omega] at hstep hleast ⊢
    by_cases hempty : -1 ∈ map ∧ null = partStart start lengths lengths.length
    · exact nextOffset_eq last hmem htwo (mem_map.2 ⟨-1, hempty.1, hempty.2⟩) hstep hleast
    · rw [← (hlast.resolve_left hin).resolve_left hempty]
      refine nextOffset_end last hmap hmem htwo (fun hslot => ?_) fun j hj => partStart_le start lengths (by omega)
      exact Int.le_trans (hnull.resolve_right fun heq => hempty ⟨hslot, heq⟩) (Int.le_of_lt htwo)

end Ends

/-- The ordered offsets are the distinct ones above two, in ascending order, and the lowest offset is the first of
them. A table written for parts that are not empty is read as the places where they begin, and if each part is
in it then a part ends at the next larger offset, or where all parts end. -/
theorem offsets_ordered :
    (∀ table, (orderedOffsets table).Pairwise (· < ·) ∧ (∀ x, x ∈ orderedOffsets table ↔ x ∈ table ∧ 2 < x) ∧
    lowestOffset table = (orderedOffsets table).headD (-1)) ∧
    ∀ (lengths : List Nat) (start : Int) (map : List Int) (nullAtEnd : Bool), (∀ n ∈ lengths, 0 < n) → 2 < start →
    start + (lengths.sum : Nat) < 65536 → (∀ v ∈ map, v = -1 ∨ 0 ≤ v ∧ v < lengths.length) →
    ∃ data table, encodeOffsets lengths start (map.map Json.int) nullAtEnd = .ok data ∧
    decodeOffsets data map.length 0 = .ok table ∧ table.length = map.length ∧
    ∀ i k : Nat, map[i]? = some (k : Int) → table[i]? = some (partStart start lengths k) ∧
    ((∀ j < lengths.length, (j : Int) ∈ map) →
    ((orderedOffsets table).find? (partStart start lengths k < ·)).getD (start + (lengths.sum : Nat))
    = partStart start lengths (k + 1)) := by
  refine ⟨fun table => ⟨pairwise_orderedOffsets, fun _ => mem_orderedOffsets, lowestOffset_eq_headD table⟩, ?_⟩
  intro lengths start map nullAtEnd hpos hstart hend hmap
  have hencode := @encodeOffsets_eq lengths map start 0 nullAtEnd hmap
  generalize hnull : nullOffset lengths (start - 0) nullAtEnd = null at hencode
  have hends : null = 0 ∨ null = partStart start lengths lengths.length := by
    rw [← hnull, nullOffset, partStart_length, Int.sub_zero]
    split
    · exact .inr rfl
    · exact .inl rfl
  have hlast := partStart_length start lengths
  have hdecode := @decodeOffsets_tableBytes lengths start 0 null map (by omega) (by omega) (by omega)
  rw [Int.sub_zero] at hencode
  rw [Int.add_zero] at hdecode
  refine ⟨_, _, hencode, hdecode, length_map _, fun i k hk => ⟨?_, fun hparts => ?_⟩⟩
  · rw [getElem?_map, hk, Option.map_some, offsetOf_natCast]
  · have hslot := mem_of_getElem? hk
    have hlt : k < lengths.length := by
      have := hmap k hslot
      omega
    have hnext := @nextOffset_part lengths map start null (start + (lengths.sum : Nat)) k ⟨hmap, hparts⟩ hpos hstart
      (by omega) hlt (.inr (.inr hlast.symm))
    have hmem := partStart_mem_offsets start null ⟨hmap, hparts⟩ hlt
    have hlow := le_partStart start lengths k
    rw [← hnext, nextOffset_eq_find _ pairwise_orderedOffsets (mem_orderedOffsets.2 ⟨hmem, by omega⟩)]

theorem offsets_ordered_pair : ∃ data table, encodeOffsets [2, 3] 10 ([1, -1, 0, 1].map Json.int) true = .ok data ∧
    decodeOffsets data 4 0 = .ok table ∧ table.length = 4 ∧
    ∀ i k : Nat, [1, -1, (0 : Int), 1][i]? = some (k : Int) → table[i]? = some (partStart 10 [2, 3] k) ∧
    ((∀ j : Nat, j < 2 → (j : Int) ∈ [1, -1, (0 : Int), 1]) →
    ((orderedOffsets table).find? (partStart 10 [2, 3] k < ·)).getD 15 = partStart 10 [2, 3] (k + 1)) :=
  offsets_ordered.2 [2, 3] 10 [1, -1, 0, 1] true (by decide) (by decide) (by decide) (by decide)

/-- What is known of the parts at some places after the first ones were met: they are as they should be,
up to what a relation leaves open. -/
structure Found.Knows (f : Found α) (R : α → β → Prop) (place : Nat → Int) (parts : List β) (m : Nat) : Prop where
  met : List.Forall₂ R f.parts (parts.take m)
  count : m ≤ parts.length
  seen : ∀ k < parts.length, Table.find? (place k) f.seen = if k < m then some (k : Int) else none

section Slots

variable {R : α → β → Prop} {place : Nat → Int} {parts : List β} {f : Found α}

theorem knows_start : (Found.start : Found α).Knows R place parts 0 where
  met := .nil
  count := Nat.zero_le _
  seen := fun _ _ => rfl

section

variable (h : f.Knows R place parts m)

include h

theorem Found.Knows.slot_seen {k : Nat} (hk : k < m) (hoffset : 2 < place k) (read : Except Fault α) :
    f.slot (place k) read = .ok { f with map := f.map ++ [(k : Int)] } := by
  have hfind := h.seen k (Nat.lt_of_lt_of_le hk h.count)
  rw [if_pos hk] at hfind
  rw [Found.slot, isOffset, decide_eq_true hoffset, hfind]
  rfl

theorem Found.Knows.length : f.parts.length = m := by
  rw [h.met.length_eq, length_take, Nat.min_eq_left h.count]

theorem Found.Knows.add (hplace : ∀ j < parts.length, ∀ k < parts.length, place j = place k → j = k) {part : β} {part' : α}
    (hpart : parts[m]? = some part) (hR : R part' part) (map : List Int) :
    (⟨Table.put (place m) m f.seen, map, f.parts ++ [part']⟩ : Found α).Knows R place parts (m + 1) := by
  obtain ⟨hlt, hget⟩ := List.getElem?_eq_some_iff.1 hpart
  refine ⟨?_, hlt, fun k hk => ?_⟩
  · rw [List.take_succ_eq_append_getElem hlt, hget]
    exact List.rel_append h.met (.cons hR .nil)
  · rw [Table.find?_put, h.seen k hk]
    by_cases heq : m = k
    · rw [if_pos (by rw [heq]), if_pos (by omega), heq]
    · rw [if_neg fun hsame => heq (hplace m hlt k hk hsame)]
      by_cases hkm : k < m
      · rw [if_pos hkm, if_pos (by omega)]
      · rw [if_neg hkm, if_neg (by omega)]

theorem Found.Knows.slot_new (hm : m < parts.length) (hoffset : 2 < place m) (part' : α) : f.slot (place m) (.ok part')
    = .ok ⟨Table.put (place m) m f.seen, f.map ++ [(m : Int)], f.parts ++ [part']⟩ := by
  have hfind := h.seen m hm
  rw [if_neg (Nat.lt_irrefl m)] at hfind
  rw [Found.slot, isOffset, decide_eq_true hoffset, hfind, h.length]
  rfl

end

/-- A slot is read with the number it had, and its part with it if it is the first slot of the part. -/
theorem Found.Knows.slot {start null : Int} (h : f.Knows R (partStart start lengths) parts m) (hlengths : lengths.length = parts.length)
    (hpos : ∀ n ∈ lengths, 0 < n) (hstart : 2 < start) (hnull : null ≤ 2) {m' : Nat} (hv : Counts m v m')
    (hm : m' ≤ parts.length) {read : Except Fault α}
    (hread : ∀ (k : Nat) part, v = k → parts[k]? = some part → ∃ part', read = .ok part' ∧ R part' part) :
    ∃ g, f.slot (offsetOf lengths start null v) read = .ok g ∧ g.Knows R (partStart start lengths) parts m' ∧
    g.map = f.map ++ [v] := by
  have hoffset (k : Nat) : 2 < partStart start lengths k := Int.lt_of_lt_of_le hstart (le_partStart start lengths k)
  cases hv with
  | null =>
    refine ⟨{ f with map := f.map ++ [-1] }, ?_, ⟨h.met, h.count, h.seen⟩, rfl⟩
    rw [Found.slot, isOffset, show offsetOf lengths start null (-1) = null from rfl, decide_eq_false (Int.not_lt.2 hnull)]
    rfl
  | seen hk =>
    exact ⟨_, h.slot_seen hk (hoffset _) _, ⟨h.met, h.count, h.seen⟩, rfl⟩
  | new =>
    have hpart : parts[m]? = some _ := getElem?_eq_getElem hm
    obtain ⟨part', rfl, hR⟩ := hread m _ rfl hpart
    exact ⟨_, h.slot_new hm (hoffset m) part', h.add (hlengths ▸ fun j hj k hk => partStart_inj start hpos hj hk) hpart hR _, rfl⟩

end Slots

end ScummKit.Costume
