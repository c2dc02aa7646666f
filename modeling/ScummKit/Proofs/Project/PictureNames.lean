import Mathlib.Data.List.Flatten
import ScummKit.Proofs.Project.Encoders
import ScummKit.Proofs.Project.Replacing

/-!
# Names of pictures

Decoding makes the name of a picture from that of an image: it gets another ending, in version 4 with a mark in front. Encoding takes the marks out again and turns the ending back, wherever in the name they stand. `Made` says what that comes to: no mark survives, so a name comes back as it was exactly if there was none in it.

Names are joined by plus signs and taken apart at them, which is what the last section is about.
-/

namespace ScummKit

open List hiding swap splitBy replace
open Text Asset
variable (separator : Char) (xs : List Char) (rest new zs : List Char) {pieces : List (List Char)}

/-! ### Marks in names -/

def imageMark : List Char := ['_', 'i', 'm', 'a', 'g', 'e']

def maskMark : List Char := ['_', 'z', 'p', 'l', 'a', 'n', 'e']

def pictureEnd : List Char := ['.', 'p', 'n', 'g']

def codeEnd : List Char := ['.', 'd', 'm', 'p']

/-- A name in which encoding finds nothing to take out. -/
def Unmarked (xs : List Char) : Prop :=
  occurs imageMark xs = false ∧ occurs maskMark xs = false ∧ occurs pictureEnd xs = false

instance (xs : List Char) : Decidable (Unmarked xs) := inferInstanceAs (Decidable (_ ∧ _))

def cleared (xs : List Char) : List Char := replaceAfter maskMark [] 0 (replaceAfter imageMark [] 0 xs)

/-- The name under which a picture is encoded. -/
def restored (xs : List Char) : List Char := replaceAfter pictureEnd codeEnd 0 (cleared xs)

theorem toList_swap {s pattern new : String} (h : pattern.toList ≠ []) :
    (swap s pattern new).toList = replaceAfter pattern.toList new.toList 0 s.toList := by
  rw [swap, String.toList_ofList, replace, if_neg (by simpa using h)]

theorem toList_imageName (name : String) : (Site.imageName name).toList = restored name.toList := by
  change (swap (swap (swap name "_image" "") "_zplane" "") ".png" ".dmp").toList = _
  rw [toList_swap (by decide), toList_swap (by decide), toList_swap (by decide)]
  rfl

theorem not_occurs_restored : occurs pictureEnd (restored xs) = false := by
  apply not_occurs_replaceAfter
  · decide
  · decide
  · intro zs
    rfl

theorem length_restored : (restored xs).length = (cleared xs).length :=
  length_replaceAfter_eq (by decide) (by decide) _

theorem length_cleared_le : (cleared xs).length ≤ (replaceAfter imageMark [] 0 xs).length :=
  length_replaceAfter_le (Nat.zero_le _) (by decide) _

theorem not_occurs_of_length {pattern xs : List Char} (h : pattern ≠ [])
    (hlength : xs.length ≤ (replaceAfter pattern [] 0 xs).length) : occurs pattern xs = false := by
  rw [Bool.eq_false_iff]
  intro hoccurs
  have hless : (replaceAfter pattern [] 0 xs).length < xs.length :=
    length_replaceAfter_lt (length_pos_iff.mpr h) hoccurs
  omega

/-- The name `ys` of a picture was made from `xs`: encoding takes out all marks that `xs` had, and leaves `xs` if it had none. -/
structure Made (xs ys : List Char) : Prop where
  length_image : (cleared ys).length ≤ (replaceAfter imageMark [] 0 xs).length
  length_mask : occurs imageMark xs = false → (cleared ys).length ≤ (replaceAfter maskMark [] 0 xs).length
  restored_eq : Unmarked xs → restored ys = xs

namespace Made

variable {xs ys xs' ys' : List Char}

theorem length_le (h : Made xs ys) : (restored ys).length ≤ xs.length := by
  rw [length_restored]
  exact h.length_image.trans (length_replaceAfter_le (Nat.zero_le _) (by decide) _)

theorem not_occurs (h : Made xs ys) (hlength : xs.length ≤ (restored ys).length) :
    occurs imageMark xs = false ∧ occurs maskMark xs = false := by
  rw [length_restored] at hlength
  have himage : occurs imageMark xs = false := not_occurs_of_length (by decide) (hlength.trans h.length_image)
  exact ⟨himage, not_occurs_of_length (by decide) (hlength.trans (h.length_mask himage))⟩

theorem append (h : Made xs ys) (h' : Made xs' ys') : Made (xs ++ '+' :: xs') (ys ++ '+' :: ys') := by
  have hmask (xs ys : List Char) : replaceAfter maskMark [] 0 (xs ++ '+' :: ys)
      = replaceAfter maskMark [] 0 xs ++ '+' :: replaceAfter maskMark [] 0 ys :=
    replaceAfter_append_sep (by decide) (by decide) xs
  have himage (xs ys : List Char) : replaceAfter imageMark [] 0 (xs ++ '+' :: ys)
      = replaceAfter imageMark [] 0 xs ++ '+' :: replaceAfter imageMark [] 0 ys :=
    replaceAfter_append_sep (by decide) (by decide) xs
  have hcleared : cleared (ys ++ '+' :: ys') = cleared ys ++ '+' :: cleared ys' := by
    rw [cleared, himage, hmask]
    rfl
  have hsplit {pattern : List Char} (hpattern : pattern ≠ []) (hplus : '+' ∉ pattern)
      (hxs : occurs pattern (xs ++ '+' :: xs') = false) :
      occurs pattern xs = false ∧ occurs pattern xs' = false := by
    rwa [occurs_append_sep hpattern hplus, Bool.or_eq_false_iff] at hxs
  constructor
  · have hlength := h.length_image
    have hlength' := h'.length_image
    rw [hcleared, himage, length_append, length_append, length_cons, length_cons]
    omega
  · intro hxs
    obtain ⟨hleft, hright⟩ := hsplit (by decide) (by decide) hxs
    have hlength := h.length_mask hleft
    have hlength' := h'.length_mask hright
    rw [hcleared, hmask, length_append, length_append, length_cons, length_cons]
    omega
  · intro hxs
    obtain ⟨himage, himage'⟩ := hsplit (by decide) (by decide) hxs.1
    obtain ⟨hmask, hmask'⟩ := hsplit (by decide) (by decide) hxs.2.1
    obtain ⟨hend, hend'⟩ := hsplit (by decide) (by decide) hxs.2.2
    rw [restored, hcleared, replaceAfter_append_sep (by decide) (by decide)]
    change restored ys ++ '+' :: restored ys' = _
    rw [h.restored_eq ⟨himage, hmask, hend⟩, h'.restored_eq ⟨himage', hmask', hend'⟩]

/-! ### Names that decoding makes -/

theorem refl (xs : List Char) : Made xs xs := by
  constructor
  · exact length_cleared_le xs
  · intro hxs
    rw [cleared, replaceAfter_of_not_occurs (by decide) hxs]
  · intro hxs
    rw [restored, cleared, replaceAfter_of_not_occurs (by decide) hxs.1,
      replaceAfter_of_not_occurs (by decide) hxs.2.1, replaceAfter_of_not_occurs (by decide) hxs.2.2]

theorem replace_ending : replaceAfter ('_' :: rest) new 0 (pictureEnd ++ zs)
    = pictureEnd ++ replaceAfter ('_' :: rest) new 0 zs := replaceAfter_append_of_not_mem (by decide)

theorem replace_mark : replaceAfter ('_' :: rest) new 0 ('_' :: rest ++ pictureEnd ++ zs)
    = new ++ pictureEnd ++ replaceAfter ('_' :: rest) new 0 zs := by
  rw [append_assoc, replaceAfter_hit (cons_ne_nil _ _), replace_ending, append_assoc]

theorem of_ending {ins : List Char} (hins : ins = pictureEnd ∨ ins = maskMark ++ pictureEnd)
    (hlength : (cleared ys).length ≤ (replaceAfter imageMark [] 0 xs).length)
    (himage : occurs imageMark xs = false → replaceAfter imageMark [] 0 ys = replaceAfter codeEnd ins 0 xs) : Made xs ys := by
  have hne : ins ≠ [] := by rcases hins with rfl | rfl <;> decide
  have hhead : StartsApart ins maskMark.tail := by rcases hins with rfl | rfl <;> decide
  have hout (zs : List Char) : replaceAfter maskMark [] 0 (ins ++ zs) = pictureEnd ++ replaceAfter maskMark [] 0 zs := by
    rcases hins with rfl | rfl
    · exact replace_ending _ _ _
    · exact replace_mark _ _ _
  constructor
  · exact hlength
  · intro hxs
    rw [cleared, himage hxs]
    exact (length_replaceAfter_inserted hout hne hhead (by decide) (by decide : '_' ∉ codeEnd) rfl xs).le
  · intro hxs
    have hback (zs : List Char) : replaceAfter pictureEnd codeEnd 0 (pictureEnd ++ zs)
        = codeEnd ++ replaceAfter pictureEnd codeEnd 0 zs := replaceAfter_hit (by decide)
    calc restored ys = replaceAfter pictureEnd codeEnd 0 (replaceAfter maskMark [] 0 (replaceAfter codeEnd ins 0 xs)) := by
          rw [restored, cleared, himage hxs.1]
      _ = replaceAfter pictureEnd codeEnd 0 (replaceAfter codeEnd pictureEnd 0 xs) :=
          congrArg _ (replaceAfter_inserted hout hxs.2.1 ⟨by decide, hne, hhead⟩)
      _ = replaceAfter codeEnd codeEnd 0 xs :=
          replaceAfter_inserted hback hxs.2.2 (by decide)
      _ = xs := replaceAfter_self (by decide) xs

theorem length_image_mark (xs : List Char) :
    (replaceAfter imageMark [] 0 (replaceAfter codeEnd (imageMark ++ pictureEnd) 0 xs)).length
    = (replaceAfter imageMark [] 0 xs).length :=
  length_replaceAfter_inserted (replace_mark _ _) (by decide) (by decide) (by decide) (by decide) rfl xs

theorem layer (xs : List Char) : Made xs (replaceAfter codeEnd pictureEnd 0 xs) := by
  apply of_ending (Or.inl rfl)
  · exact (length_cleared_le _).trans_eq (length_replaceAfter_inserted (replace_ending _ _) (by decide)
      (by decide) (by decide) (by decide : '_' ∉ codeEnd) rfl xs)
  · exact fun hxs => replaceAfter_inserted (replace_ending _ _) hxs (by decide)

theorem picture (xs : List Char) : Made xs (replaceAfter codeEnd (imageMark ++ pictureEnd) 0 xs) := by
  apply of_ending (Or.inl rfl)
  · exact (length_cleared_le _).trans_eq (length_image_mark xs)
  · exact fun hxs => replaceAfter_inserted (replace_mark _ _) hxs (by decide)

/-! ### Names of masks -/

theorem length_cleared_masked (xs : List Char) :
    (cleared (replaceAfter imageMark maskMark 0 xs)).length ≤ (replaceAfter imageMark [] 0 xs).length := by
  have hnone : occurs imageMark (replaceAfter imageMark maskMark 0 xs) = false := by
    apply not_occurs_replaceAfter
    · decide
    · decide
    · intro zs
      rfl
  rw [cleared, replaceAfter_of_not_occurs (by decide) hnone]
  clear hnone
  induction xs using scan_induction (by decide : imageMark ≠ []) (by decide : maskMark ≠ []) with
  | nil => exact Nat.le_refl _
  | first zs ih =>
    exact ih
  | second zs ih =>
    have hkeep (new : List Char) : replaceAfter imageMark new 0 (maskMark ++ zs)
        = maskMark ++ replaceAfter imageMark new 0 zs := rfl
    rw [hkeep, hkeep, replaceAfter_hit (by decide), nil_append, length_append]
    omega
  | miss x xs himage hmask ih =>
    have hmask' : ¬ maskMark <+: x :: replaceAfter imageMark maskMark 0 xs := by
      intro h
      obtain ⟨rfl, hrest⟩ := cons_prefix_cons.mp h
      exact hmask (cons_prefix_cons.mpr ⟨rfl, prefix_of_replaceAfter (by decide) (by decide) (by decide) hrest⟩)
    rw [replaceAfter_miss himage, replaceAfter_miss himage, replaceAfter_miss hmask', length_cons, length_cons]
    omega

theorem masked_refl (xs : List Char) : Made xs (replaceAfter imageMark maskMark 0 xs) := by
  have hkeep (hxs : occurs imageMark xs = false) : replaceAfter imageMark maskMark 0 xs = xs :=
    replaceAfter_of_not_occurs (by decide) hxs
  constructor
  · exact length_cleared_masked xs
  · intro hxs
    rw [hkeep hxs]
    exact (refl xs).length_mask hxs
  · intro hxs
    rw [hkeep hxs.1]
    exact (refl xs).restored_eq hxs

theorem masked_picture (xs : List Char) :
    Made xs (replaceAfter imageMark maskMark 0 (replaceAfter codeEnd (imageMark ++ pictureEnd) 0 xs)) := by
  apply of_ending (Or.inr rfl)
  · exact (length_cleared_masked _).trans_eq (length_image_mark xs)
  · intro hxs
    have hkeep (zs : List Char) : replaceAfter imageMark [] 0 (maskMark ++ pictureEnd ++ zs)
        = maskMark ++ pictureEnd ++ replaceAfter imageMark [] 0 zs := rfl
    calc _ = replaceAfter imageMark [] 0 (replaceAfter codeEnd (maskMark ++ pictureEnd) 0 xs) :=
          congrArg _ (replaceAfter_inserted (replace_mark _ _) hxs (by decide))
      _ = replaceAfter codeEnd (maskMark ++ pictureEnd) 0 xs :=
          replaceAfter_inserted hkeep hxs (by decide)

end Made

/-! ### Names taken apart -/

theorem splitBy_ne_nil : splitBy separator xs ≠ [] := by
  cases xs with
  | nil => exact cons_ne_nil _ _
  | cons x xs =>
    rw [splitBy]
    split
    · exact cons_ne_nil _ _
    · split <;> exact cons_ne_nil _ _

theorem intercalate_splitBy : [separator].intercalate (splitBy separator xs) = xs := by
  induction xs with
  | nil => rfl
  | cons x xs ih =>
    obtain ⟨piece, more, hrest⟩ := exists_cons_of_ne_nil (splitBy_ne_nil separator xs)
    rw [hrest] at ih
    rw [splitBy, hrest]
    split
    · rename_i hx
      obtain rfl : x = separator := by simpa using hx
      rw [intercalate_cons_cons, ih]
      rfl
    · cases more with
      | nil =>
        rw [intercalate_singleton] at ih ⊢
        rw [ih]
      | cons next more =>
        rw [← ih]
        rfl

theorem mem_splitBy {separator c : Char} {xs piece : List Char} (hpiece : piece ∈ splitBy separator xs)
    (hc : c ∈ piece) : c ∈ xs ∧ c ≠ separator := by
  induction xs generalizing piece with
  | nil =>
    rw [splitBy, mem_singleton] at hpiece
    rw [hpiece] at hc
    cases hc
  | cons x xs ih =>
    have hlater {p : List Char} (hp : p ∈ splitBy separator xs) (hcp : c ∈ p) : c ∈ x :: xs ∧ c ≠ separator :=
      (ih hp hcp).imp_left (mem_cons_of_mem x)
    rw [splitBy] at hpiece
    split at hpiece
    · rcases mem_cons.mp hpiece with rfl | hpiece
      · cases hc
      · exact hlater hpiece hc
    · rename_i hx
      obtain ⟨first, more, hrest⟩ := exists_cons_of_ne_nil (splitBy_ne_nil separator xs)
      rw [hrest] at hpiece hlater
      rcases mem_cons.mp hpiece with rfl | hpiece
      · rcases mem_cons.mp hc with rfl | hc
        · exact ⟨mem_cons_self, by simpa using hx⟩
        · exact hlater mem_cons_self hc
      · exact hlater (mem_cons_of_mem _ hpiece) hc

theorem length_intercalate (hne : pieces ≠ []) :
    ([separator].intercalate pieces).length + 1 = pieces.flatten.length + pieces.length := by
  induction pieces with
  | nil => exact absurd rfl hne
  | cons first pieces ih =>
    cases pieces with
    | nil => simp
    | cons next pieces =>
      have hrest := ih (cons_ne_nil _ _)
      rw [intercalate_cons_cons, length_append, length_append, flatten_cons, length_append, length_singleton,
        length_cons]
      omega

theorem length_intercalate_sublist {pieces more : List (List Char)} (h : pieces.Sublist more) (hne : pieces ≠ []) :
    ([separator].intercalate pieces).length ≤ ([separator].intercalate more).length
    ∧ (([separator].intercalate more).length ≤ ([separator].intercalate pieces).length → pieces = more) := by
  have hfew := length_intercalate separator hne
  have hmany := length_intercalate separator fun hnil => hne (sublist_nil.mp (hnil ▸ h))
  have hletters := h.flatten.length_le
  have hpieces := h.length_le
  exact ⟨by omega, fun hlength => h.eq_of_length (by omega)⟩

theorem intercalate_concat (hne : pieces ≠ []) (piece : List Char) :
    [separator].intercalate (pieces ++ [piece]) = [separator].intercalate pieces ++ separator :: piece := by
  induction pieces with
  | nil => exact absurd rfl hne
  | cons first pieces ih =>
    cases pieces with
    | nil => simp [List.intercalate]
    | cons next pieces =>
      rw [cons_append, cons_append, intercalate_cons_cons, intercalate_cons_cons, ← cons_append,
        ih (cons_ne_nil _ _), ← append_assoc]

end ScummKit
