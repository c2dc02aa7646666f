import ScummKit.Proofs.Project.Names

/-!
# Replacing one text by another and back

A text is searched from the left, so what becomes of it is found by scanning it: either the pattern
stands at the front, or the first character stays as it is (`scan_induction`). A second replacement
undoes a first one if the text held nothing that the second takes for an insertion of the first
(`replaceAfter_inserted`). Whatever the text held, its length is then as if only the second
replacement had been made (`length_replaceAfter_inserted`).
-/

namespace ScummKit.Text

open List

variable {α : Type} [DecidableEq α] {pattern new old ins out xs ys zs q : List α} {c : α}

/-! ### Scanning -/

theorem replaceAfter_skip (pattern new : List α) (k : Nat) (xs : List α) :
    replaceAfter pattern new k xs = replaceAfter pattern new 0 (xs.drop k) := by
  induction xs generalizing k with
  | nil => cases k <;> rfl
  | cons x xs ih =>
    cases k with
    | zero => rfl
    | succ k =>
      exact ih k

theorem replaceAfter_hit (h : pattern ≠ []) :
    replaceAfter pattern new 0 (pattern ++ zs) = new ++ replaceAfter pattern new 0 zs := by
  obtain ⟨c, cs, rfl⟩ := exists_cons_of_ne_nil h
  rw [cons_append, replaceAfter, replaceAfter_skip]
  simp

theorem replaceAfter_miss (h : ¬ pattern <+: c :: xs) :
    replaceAfter pattern new 0 (c :: xs) = c :: replaceAfter pattern new 0 xs := by
  rw [replaceAfter, if_neg (by rwa [ isPrefixOf_iff_prefix])]

theorem scan_induction {P : List α → Prop} {a b : List α} (ha : a ≠ []) (hb : b ≠ []) (nil : P [])
    (first : ∀ zs, P zs → P (a ++ zs)) (second : ∀ zs, P zs → P (b ++ zs))
    (miss : ∀ x xs, ¬ a <+: x :: xs → ¬ b <+: x :: xs → P xs → P (x :: xs)) (xs : List α) : P xs := by
  induction hn : xs.length using Nat.strongRecOn generalizing xs with
  | _ n ih =>
    subst hn
    by_cases hfirst : a <+: xs
    · obtain ⟨zs, rfl⟩ := hfirst
      have hlength := length_pos_iff.mpr ha
      exact first zs (ih _ (by rw [length_append]; omega) zs rfl)
    · by_cases hsecond : b <+: xs
      · obtain ⟨zs, rfl⟩ := hsecond
        have hlength := length_pos_iff.mpr hb
        exact second zs (ih _ (by rw [length_append]; omega) zs rfl)
      · cases xs with
        | nil => exact nil
        | cons x xs => exact miss x xs hfirst hsecond (ih _ (Nat.lt_succ_self _) xs rfl)

theorem replaceAfter_append_of_not_mem (h : c ∉ ys) {cs : List α} :
    replaceAfter (c :: cs) new 0 (ys ++ zs) = ys ++ replaceAfter (c :: cs) new 0 zs := by
  induction ys with
  | nil => rfl
  | cons y ys ih =>
    rw [mem_cons, not_or] at h
    rw [cons_append, replaceAfter_miss, ih h.2, cons_append]
    intro hprefix
    exact h.1 (cons_prefix_cons.mp hprefix).1

/-! ### Occurrences -/

theorem occurs_cons : occurs pattern (c :: xs) = true ↔ pattern <+: c :: xs ∨ occurs pattern xs = true := by
  rw [occurs, Bool.or_eq_true, isPrefixOf_iff_prefix]

theorem occurs_append_of_not_mem (h : c ∉ ys) {cs : List α} : occurs (c :: cs) (ys ++ zs) = occurs (c :: cs) zs := by
  induction ys with
  | nil => rfl
  | cons y ys ih =>
    rw [mem_cons, not_or] at h
    have hmiss : (c :: cs).isPrefixOf (y :: (ys ++ zs)) = false := by
      rw [Bool.eq_false_iff, Ne, isPrefixOf_iff_prefix]
      intro hprefix
      exact h.1 (cons_prefix_cons.mp hprefix).1
    rw [cons_append, occurs, hmiss, Bool.false_or, ih h.2]

theorem occurs_of_append (h : occurs pattern zs = true) : occurs pattern (ys ++ zs) = true := by
  induction ys with
  | nil => exact h
  | cons y ys ih => exact occurs_cons.mpr (Or.inr ih)

theorem occurs_self_append (h : pattern ≠ []) : occurs pattern (pattern ++ zs) = true := by
  obtain ⟨c, cs, rfl⟩ := exists_cons_of_ne_nil h
  exact occurs_cons.mpr (Or.inl (prefix_append (c :: cs) zs))

/-- A text whose first character is not in another. -/
def StartsApart (xs cs : List α) : Prop := ∀ d ∈ xs.head?, d ∉ cs

instance (xs cs : List α) : Decidable (StartsApart xs cs) :=
  match xs with
  | [] => isTrue fun _ h => nomatch h
  | x :: _ => decidable_of_iff (x ∉ cs) ⟨fun h _ hd => Option.some.inj hd ▸ h, fun h => h x rfl⟩

theorem prefix_of_replaceAfter (hold : old ≠ []) (hins : ins ≠ []) (hhead : StartsApart ins q)
    (h : q <+: replaceAfter old ins 0 xs) : q <+: xs := by
  induction xs generalizing q with
  | nil => exact h
  | cons x xs ih =>
    by_cases hhit : old <+: x :: xs
    · obtain ⟨zs, hzs⟩ := hhit
      obtain ⟨d, ds, rfl⟩ := exists_cons_of_ne_nil hins
      rw [← hzs, replaceAfter_hit hold] at h
      cases q with
      | nil => exact nil_prefix
      | cons e q =>
        obtain ⟨rfl, -⟩ := cons_prefix_cons.mp h
        exact absurd mem_cons_self (hhead e rfl)
    · rw [replaceAfter_miss hhit] at h
      cases q with
      | nil => exact nil_prefix
      | cons e q =>
        obtain ⟨rfl, hrest⟩ := cons_prefix_cons.mp h
        refine cons_prefix_cons.mpr ⟨rfl, ih (fun d hd hq => ?_) hrest⟩
        exact hhead d hd (mem_cons_of_mem e hq)

/-! ### Replacing twice -/

section Twice

variable {cs rep : List α}

section

variable (hout : ∀ zs, replaceAfter (c :: cs) rep 0 (ins ++ zs) = out ++ replaceAfter (c :: cs) rep 0 zs)

include hout

/-- A second replacement turns each insertion of the first into another, if nothing else in the text
looks like its pattern. -/
theorem replaceAfter_inserted (hxs : occurs (c :: cs) xs = false) (h : old ≠ [] ∧ ins ≠ [] ∧ StartsApart ins cs) :
    replaceAfter (c :: cs) rep 0 (replaceAfter old ins 0 xs) = replaceAfter old out 0 xs := by
  obtain ⟨hold, hins, hhead⟩ := h
  induction xs using scan_induction hold hold with
  | nil => rfl
  | first zs ih | second zs ih =>
    have hzs : occurs (c :: cs) zs = false := by
      rw [Bool.eq_false_iff] at hxs ⊢
      exact fun h => hxs (occurs_of_append h)
    rw [replaceAfter_hit hold, replaceAfter_hit hold, hout, ih hzs]
  | miss x xs hmiss _ ih =>
    rw [Bool.eq_false_iff, Ne, occurs_cons, not_or, Bool.not_eq_true] at hxs
    have hother : ¬ c :: cs <+: x :: replaceAfter old ins 0 xs := by
      intro h
      obtain ⟨rfl, hrest⟩ := cons_prefix_cons.mp h
      exact hxs.1 (cons_prefix_cons.mpr ⟨rfl, prefix_of_replaceAfter hold hins hhead hrest⟩)
    rw [replaceAfter_miss hmiss, replaceAfter_miss hother, ih hxs.2, replaceAfter_miss hmiss]

/-- The length after two replacements is that after the second alone, if the insertions of the first
are in the end as long as what they replaced. -/
theorem length_replaceAfter_inserted {o : α} {os : List α} (hins : ins ≠ []) (hhead : StartsApart ins cs)
    (ho : o ∉ c :: cs) (hc : c ∉ o :: os) (hlength : out.length = (o :: os).length) (xs : List α) :
    (replaceAfter (c :: cs) rep 0 (replaceAfter (o :: os) ins 0 xs)).length = (replaceAfter (c :: cs) rep 0 xs).length := by
  have hold : o :: os ≠ [] := cons_ne_nil o os
  have hpattern : c :: cs ≠ [] := cons_ne_nil c cs
  induction xs using scan_induction hold hpattern with
  | nil => rfl
  | first zs ih =>
    rw [replaceAfter_hit hold, hout, length_append, ih, hlength, replaceAfter_append_of_not_mem hc, length_append]
  | second zs ih =>
    rw [replaceAfter_append_of_not_mem ho, replaceAfter_hit hpattern, replaceAfter_hit hpattern, length_append, length_append, ih]
  | miss x xs hmiss hmiss' ih =>
    have hother : ¬ c :: cs <+: x :: replaceAfter (o :: os) ins 0 xs := by
      intro h
      obtain ⟨rfl, hrest⟩ := cons_prefix_cons.mp h
      exact hmiss' (cons_prefix_cons.mpr ⟨rfl, prefix_of_replaceAfter hold hins hhead hrest⟩)
    rw [replaceAfter_miss hmiss, replaceAfter_miss hother, replaceAfter_miss hmiss', length_cons, length_cons, ih]

end

end Twice

/-! ### Lengths -/

theorem replaceAfter_of_not_occurs (h : pattern ≠ []) (hxs : occurs pattern xs = false) : replaceAfter pattern new 0 xs = xs := by
  induction xs using scan_induction h h with
  | nil => rfl
  | first zs | second zs =>
    rw [occurs_self_append h] at hxs
    cases hxs
  | miss x xs hmiss _ ih =>
    rw [Bool.eq_false_iff, Ne, occurs_cons, not_or, Bool.not_eq_true] at hxs
    rw [replaceAfter_miss hmiss, ih hxs.2]

theorem length_replaceAfter_le (h : new.length ≤ pattern.length) (hpattern : pattern ≠ [])
    (xs : List α) : (replaceAfter pattern new 0 xs).length ≤ xs.length := by
  induction xs using scan_induction hpattern hpattern with
  | nil => exact Nat.le_refl _
  | first zs ih | second zs ih =>
    rw [replaceAfter_hit hpattern, length_append, length_append]
    omega
  | miss x xs hmiss _ ih =>
    rw [replaceAfter_miss hmiss, length_cons, length_cons]
    omega

theorem length_replaceAfter_eq (h : new.length = pattern.length) (hpattern : pattern ≠ []) (xs : List α) :
    (replaceAfter pattern new 0 xs).length = xs.length := by
  induction xs using scan_induction hpattern hpattern with
  | nil => rfl
  | first zs ih | second zs ih => rw [replaceAfter_hit hpattern, length_append, length_append, ih, h]
  | miss x xs hmiss _ ih => rw [replaceAfter_miss hmiss, length_cons, length_cons, ih]

theorem replaceAfter_self (hpattern : pattern ≠ []) (xs : List α) : replaceAfter pattern pattern 0 xs = xs := by
  induction xs using scan_induction hpattern hpattern with
  | nil => rfl
  | first zs ih | second zs ih => rw [replaceAfter_hit hpattern, ih]
  | miss x xs hmiss _ ih => rw [replaceAfter_miss hmiss, ih]

theorem length_replaceAfter_lt (h : new.length < pattern.length) (hxs : occurs pattern xs = true) :
    (replaceAfter pattern new 0 xs).length < xs.length := by
  have hpattern : pattern ≠ [] := length_pos_iff.mp (by omega)
  induction xs using scan_induction hpattern hpattern with
  | nil =>
    cases pattern with
    | nil => exact absurd rfl hpattern
    | cons c cs => cases hxs
  | first zs | second zs =>
    have hzs := length_replaceAfter_le (Nat.le_of_lt h) hpattern zs
    rw [replaceAfter_hit hpattern, length_append, length_append]
    omega
  | miss x xs hmiss _ ih =>
    have hlater := (occurs_cons.mp hxs).resolve_left hmiss
    rw [replaceAfter_miss hmiss]
    exact Nat.succ_lt_succ (ih hlater)

theorem not_occurs_replaceAfter {cs : List α} (hnew : new ≠ []) (hhead : StartsApart new cs)
    (hoccurs : ∀ zs, occurs (c :: cs) (new ++ zs) = occurs (c :: cs) zs) (xs : List α) :
    occurs (c :: cs) (replaceAfter (c :: cs) new 0 xs) = false := by
  have hpattern : c :: cs ≠ [] := cons_ne_nil c cs
  induction xs using scan_induction hpattern hpattern with
  | nil => rfl
  | first zs ih | second zs ih => rw [replaceAfter_hit hpattern, hoccurs, ih]
  | miss x xs hmiss _ ih =>
    rw [replaceAfter_miss hmiss, Bool.eq_false_iff, Ne, occurs_cons, not_or, Bool.not_eq_true]
    refine ⟨fun h => ?_, ih⟩
    obtain ⟨rfl, hrest⟩ := cons_prefix_cons.mp h
    exact hmiss (cons_prefix_cons.mpr ⟨rfl, prefix_of_replaceAfter hpattern hnew hhead hrest⟩)

/-! ### Texts in two parts -/

section Parts

variable {sep : α}

theorem prefix_append_sep (h : sep ∉ q) : q <+: xs ++ sep :: ys ↔ q <+: xs := by
  constructor
  · intro hq
    by_contra hnot
    have hlong : xs.length < q.length := by
      by_contra hshort
      exact hnot (prefix_of_prefix_length_le hq (prefix_append _ _) (by omega))
    obtain ⟨rest, hrest⟩ := hq
    have hsep : q[xs.length]? = some sep := by
      have hleft : (q ++ rest)[xs.length]? = q[xs.length]? := getElem?_append_left hlong
      rw [← hleft, hrest]
      simp
    exact h (mem_of_getElem? hsep)
  · exact fun hq => hq.trans (prefix_append _ _)

theorem replaceAfter_append_sep (hpattern : pattern ≠ []) (h : sep ∉ pattern) (xs : List α) :
    replaceAfter pattern new 0 (xs ++ sep :: ys) = replaceAfter pattern new 0 xs ++ sep :: replaceAfter pattern new 0 ys := by
  have hmiss : ∀ zs, ¬ pattern <+: sep :: zs := by
    intro zs hprefix
    obtain ⟨c, cs, rfl⟩ := exists_cons_of_ne_nil hpattern
    exact h ((cons_prefix_cons.mp hprefix).1 ▸ mem_cons_self)
  induction xs using scan_induction hpattern hpattern with
  | nil => exact replaceAfter_miss (hmiss ys)
  | first zs ih | second zs ih =>
    rw [append_assoc, replaceAfter_hit hpattern, replaceAfter_hit hpattern, ih, append_assoc]
  | miss x xs hx _ ih =>
    rw [cons_append, replaceAfter_miss, ih, replaceAfter_miss hx, cons_append]
    rwa [← cons_append, prefix_append_sep h]

theorem occurs_append_sep (hpattern : pattern ≠ []) (h : sep ∉ pattern) (xs : List α) :
    occurs pattern (xs ++ sep :: ys) = (occurs pattern xs || occurs pattern ys) := by
  induction xs with
  | nil =>
    obtain ⟨c, cs, rfl⟩ := exists_cons_of_ne_nil hpattern
    have hsep : c ∉ [sep] := by
      rw [mem_singleton]
      exact fun heq => h (heq ▸ mem_cons_self)
    exact occurs_append_of_not_mem hsep
  | cons x xs ih =>
    have hprefix : pattern.isPrefixOf (x :: (xs ++ sep :: ys)) = pattern.isPrefixOf (x :: xs) := by
      rw [Bool.eq_iff_iff, isPrefixOf_iff_prefix, isPrefixOf_iff_prefix, ← cons_append, prefix_append_sep h]
    rw [cons_append, occurs, occurs, ih, hprefix, Bool.or_assoc]

end Parts

end ScummKit.Text
