import ScummKit.Proofs.Pack.Numerals
import ScummKit.Script.Escape

/-!
# Texts in the legacy notation

A text is made of pieces: a caret with all the digits behind it, and each other character. A piece stands for one
byte, or for none if its number is larger than a byte. The text is read as its pieces are, one after the
other (`legacy_pieces`). But a caret is only read once a character follows that is no digit, and so one
that ends the text is left out, whatever its digits are.
-/

namespace ScummKit.Script.Escape

open List

inductive Piece where
  | plain (c : Char)
  | caret (digits : List Char)
  deriving DecidableEq

/-- The pieces of a text. A caret has all the digits that follow it. -/
def pieces : List Char → List Piece
  | [] => []
  | c :: cs =>
    if c = '^' then .caret (cs.takeWhile Char.isDigit) :: pieces (cs.dropWhile Char.isDigit) else .plain c :: pieces cs
termination_by cs => cs.length
decreasing_by
  · exact Nat.lt_succ_of_le ((dropWhile_sublist _).length_le)
  · exact Nat.lt_succ_self _

/-- The byte that a piece stands for. A caret without digits stands for itself. -/
def Piece.code : Piece → Except Fault UInt8
  | .plain c => .ok (charByte c)
  | .caret [] => .ok (charByte '^')
  | .caret digits =>
    if Nat.ofDigitChars 10 digits 0 ≤ 255 then .ok (UInt8.ofNat (Nat.ofDigitChars 10 digits 0))
    else .error (.compiling ("Invalid escape character code: ^" ++ String.ofList digits))

/-- Pieces without a caret at their end. -/
def followed : List Piece → List Piece
  | [] => []
  | [.caret _] => []
  | p :: ps => p :: followed ps

variable {digits cs : List Char} {p : Piece} {ps : List Piece}

theorem followed_cons (h : ps ≠ []) : followed (p :: ps) = p :: followed ps := by
  cases p <;> cases ps <;> first | contradiction | rfl

@[simp] theorem followed_plain (c : Char) : followed (.plain c :: ps) = .plain c :: followed ps := by cases ps <;> rfl

theorem pieces_ne_nil (h : cs ≠ []) : pieces cs ≠ [] := by
  cases cs with
  | nil => contradiction
  | cons c cs =>
    rw [pieces]
    split <;> exact cons_ne_nil _ _

theorem caret_eq (h : ∀ d ∈ digits, d.isDigit) : caret digits = (Piece.code (.caret digits)).map ([·]) := by
  rw [caret, Numeral.readDigits_eq h]
  cases digits with
  | nil => rfl
  | cons d digits =>
    rw [Piece.code]
    · dsimp only [isEmpty_cons]
      rw [if_neg Bool.false_ne_true]
      split <;> rfl
    · exact cons_ne_nil d digits

/-- What is still to be read, with the digits that a caret has so far. -/
def ahead (cs : List Char) : Option (List Char) → List Piece
  | none => pieces cs
  | some digits => .caret (digits ++ cs.takeWhile Char.isDigit) :: pieces (cs.dropWhile Char.isDigit)

theorem legacyFrom_of_not_digit {c : Char} (hc : c.isDigit = false) :
    legacyFrom (some digits) (c :: cs) = do return (← caret digits) ++ (← legacyFrom none (c :: cs)) := by
  rw [legacyFrom, legacyFrom]
  rw [hc, if_neg Bool.false_ne_true]
  split
  · rfl
  · cases legacyFrom none cs <;> rfl

theorem legacyFrom_eq (pending : Option (List Char)) (h : ∀ ds ∈ pending, ∀ d ∈ ds, d.isDigit) :
    legacyFrom pending cs = (followed (ahead cs pending)).mapM Piece.code := by
  induction cs generalizing pending with
  | nil => cases pending <;> rw [legacyFrom] <;> simp [ahead, pieces] <;> rfl
  | cons c cs ih =>
    have hnone : legacyFrom none (c :: cs) = (followed (pieces (c :: cs))).mapM Piece.code := by
      rw [legacyFrom, pieces]
      split
      · exact ih (some []) (by simp)
      · rw [followed_plain, mapM_cons, ih none (by simp)]
        rfl
    cases pending with
    | none => exact hnone
    | some digits =>
      have hdigits := h digits rfl
      cases hc : c.isDigit with
      | true =>
        rw [legacyFrom, if_pos hc, ih, ahead, ahead, takeWhile_cons_of_pos hc, dropWhile_cons_of_pos hc, append_assoc, singleton_append]
        simpa [or_imp, forall_and, hc] using hdigits
      | false =>
        rw [legacyFrom_of_not_digit hc, hnone, caret_eq hdigits, ahead, takeWhile_cons_of_neg (by simp [hc]),
          dropWhile_cons_of_neg (by simp [hc]), append_nil, followed_cons (pieces_ne_nil (cons_ne_nil c cs)), mapM_cons]
        cases Piece.code (.caret digits) <;> rfl

/-- A text is read piece by piece, up to a caret at its end. -/
theorem legacy_pieces (cs : List Char) : legacy cs = (followed (pieces cs)).mapM Piece.code :=
  legacyFrom_eq none (by simp)

end ScummKit.Script.Escape
