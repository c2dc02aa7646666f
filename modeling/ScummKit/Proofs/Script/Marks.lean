import ScummKit.Proofs.Script.Notes

/-!
# Labels are told apart by their texts

The texts of labels are what jumps are matched by. The labels that blocks make begin with a character
that no name of a script has, and the kind, the line and the number in them can be read off again.
-/

namespace ScummKit.Script

open Lexicon

def digits (n : Nat) : List Char := Nat.toDigits 10 n

theorem digits_injective {m n : Nat} (h : digits m = digits n) : m = n := by
  rw [← Nat.ofDigitChars_ten_toDigits (n := m), ← Nat.ofDigitChars_ten_toDigits (n := n)]
  exact congrArg (Nat.ofDigitChars 10 · 0) h

theorem digits_append_inj {m n : Nat} {c : Char} {xs ys : List Char} (hc : c.isDigit = false)
    (h : digits m ++ c :: xs = digits n ++ c :: ys) : m = n ∧ xs = ys := by
  have hdigits : ∀ n, ∀ d ∈ digits n, d.isDigit = true := fun n d hd =>
    Nat.isDigit_of_mem_toDigits (by decide) (by decide) hd
  have htake : ∀ n zs, (digits n ++ c :: zs).takeWhile Char.isDigit = digits n := by
    intro n zs
    rw [List.takeWhile_append_of_pos (hdigits n)]
    simp [hc]
  have hmn : digits m = digits n := by rw [← htake m xs, h, htake n ys]
  rw [hmn] at h
  exact ⟨digits_injective hmn, (List.cons.inj (List.append_cancel_left h)).2⟩

def BlockKind.char : BlockKind → Char
  | .cond => 'i'
  | .forLoop => 'f'
  | .whileLoop => 'w'
  | .doLoop => 'd'

theorem toList_text_block (kind : BlockKind) (start k : Nat) : (Mark.block kind start k).text.toList
    = '$' :: kind.char :: (digits start ++ 'b' :: digits k) := by
  cases kind <;> simp [Mark.text, blockLabel, BlockKind.letter, BlockKind.char, digits]

theorem char_injective {a b : BlockKind} (h : a.char = b.char) : a = b := by
  cases a <;> cases b <;> first | rfl | exact absurd h (by decide)

theorem text_user_ne_block (name : Name) (kind : BlockKind) (start k : Nat) :
    (Mark.user name).text ≠ (Mark.block kind start k).text := by
  intro h
  have hvalid := name.valid
  rw [show name.text = (Mark.user name).text from rfl, h, toList_text_block] at hvalid
  exact absurd hvalid (by simp; decide)

theorem text_injective {a b : Mark} (h : a.text = b.text) : a = b := by
  cases a with
  | user name =>
    cases b with
    | user name' =>
      obtain ⟨text, valid⟩ := name
      obtain ⟨text', valid'⟩ := name'
      obtain rfl : text = text' := h
      rfl
    | block kind start k => exact absurd h (text_user_ne_block name kind start k)
  | block kind start k =>
    cases b with
    | user name => exact absurd h.symm (text_user_ne_block name kind start k)
    | block kind' start' k' =>
      have hlist := congrArg String.toList h
      rw [toList_text_block, toList_text_block, List.cons.injEq, List.cons.injEq] at hlist
      obtain ⟨hstart, hk⟩ := digits_append_inj (by decide) hlist.2.2
      rw [char_injective hlist.2.1, hstart, digits_injective hk]

end ScummKit.Script
