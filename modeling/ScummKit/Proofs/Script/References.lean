import ScummKit.Proofs.Script.Assignments

/-!
# References to variables

A reference is a word with a place below 0x2000 and marks of its kind. A mark says that an offset is added
to the place, and then a second word tells the offset: a constant, or with the same mark a variable. Since the
offset is the last word, a variable there cannot have an offset of its own, and a bit variable has no code there at
all (`variableCode_reference`).
-/

namespace ScummKit.Script

open Build Grammar
open Layout (wordOf word_eq_ok)

/-! ### Decoding -/

def wordsOf : Code → List Nat
  | lo :: hi :: code => (lo.toNat + 256 * hi.toNat) :: wordsOf code
  | _ => []

def IsMarked (w : Nat) : Prop := w / indirection % 2 = 1

instance (w : Nat) : Decidable (IsMarked w) := inferInstanceAs (Decidable (_ = _))

def Scope.ofWord (w : Nat) : Scope := if 0x8000 ≤ w then .bit else if 0x4000 ≤ w then .script else .global

def Operand.ofWord (w : Nat) : Operand :=
  if IsMarked w then .variable (.at (.ofWord w) (w % indirection : Nat)) else .constant w

/-- The reference that words begin with, and the words behind it. -/
def Variable.ofWords : List Nat → Option (Variable × List Nat)
  | [] => none
  | w :: rest =>
    if IsMarked w then
      rest.head?.map fun offset => (.indexed (.ofWord w) (w % indirection : Nat) (.ofWord offset), rest.tail)
    else some (.at (.ofWord w) (w % indirection : Nat), rest)

/-! ### References -/

def Scope.Holds (scope : Scope) (place : Int) : Prop := 0 ≤ place ∧ place < if scope = .script then 0x100 else 0x2000

mutual

def Variable.InRange : Variable → Prop
  | .at scope place => scope.Holds place
  | .indexed scope base offset => scope.Holds base ∧ offset.InRange

def Operand.InRange : Operand → Prop
  | .variable v => v.InRange
  | .constant _ => True

end

mutual

/-- A reference that has a code: no bit variable is an offset, and constants fit a word. -/
def Variable.Encodable (inside : Bool) : Variable → Prop
  | .at scope _ => inside = true → scope ≠ .bit
  | .indexed _ _ offset => offset.Encodable

def Operand.Encodable : Operand → Prop
  | .variable v => v.Encodable true
  | .constant n => -32768 ≤ n ∧ n ≤ 65535

end

/-- A reference that its code tells from all others. -/
def Variable.Plain : Variable → Prop
  | .indexed _ _ (.variable (.indexed ..)) => False
  | .indexed _ _ (.constant n) => 0 ≤ n ∧ ¬ IsMarked n.toNat
  | _ => True

def Scope.marked (scope : Scope) (place : Int) (inside : Bool) : Nat :=
  if inside then scope.word place ||| indirection else scope.word place

mutual

def Variable.words (inside : Bool) : Variable → List Int
  | .at scope place => [scope.marked place inside]
  | .indexed scope base offset => scope.marked base true :: offset.words

def Operand.words : Operand → List Int
  | .variable v => v.words true
  | .constant n => [n]

end

section Words

variable {scope : Scope} {place : Int}

def Scope.tag : Scope → Nat
  | .script => 2
  | .bit => 4
  | .global => 0

theorem Scope.Holds.exists_place (h : scope.Holds place) :
    ∃ p < 0x2000, place = (p : Nat) ∧ ∀ inside, scope.marked place inside = 0x2000 * (scope.tag + inside.toNat) + p := by
  obtain ⟨p, rfl⟩ := Int.eq_ofNat_of_zero_le h.1
  have hscope := h.2
  have hp : p < 0x2000 := by split at hscope <;> omega
  have hor (k : Nat) : p ||| 0x2000 * k = 0x2000 * k + p :=
    (Nat.or_comm ..).trans (Nat.two_pow_add_eq_or_of_lt (i := 13) hp k).symm
  have hword : scope.word p = p ||| 0x2000 * scope.tag := by
    cases scope with
    | script => rw [Scope.word, Int.emod_eq_of_lt (by omega) (by simpa using hscope)]; rfl
    | bit => rw [Scope.word, Int.emod_eq_of_lt (by omega) (by omega)]; rfl
    | global => rw [Scope.word, Int.emod_eq_of_lt (by omega) (by omega)]; exact (Nat.or_zero p).symm
  refine ⟨p, hp, rfl, fun inside => ?_⟩
  rw [marked, hword, Nat.or_assoc, ← hor]
  cases inside <;> cases scope <;> rfl

/-- The word of a place tells the place, its kind and whether it has the mark. -/
theorem Scope.Holds.marked (h : scope.Holds place) (inside : Bool) :
    ((scope.marked place inside : Int) % 65536).toNat = scope.marked place inside ∧
    (IsMarked (scope.marked place inside) ↔ inside = true) ∧ Scope.ofWord (scope.marked place inside) = scope ∧
    ((scope.marked place inside % indirection : Nat) : Int) = place := by
  obtain ⟨p, hp, rfl, hword⟩ := h.exists_place
  rw [hword, IsMarked, ofWord, indirection]
  cases inside <;> cases scope <;> simp [tag] <;> grind

theorem Scope.Holds.word_eq_ok (h : scope.Holds place) (inside : Bool) (code : Code) :
    Field.word (scope.marked place inside) = .ok code ↔ code = wordOf (scope.marked place inside) := by
  have hword := (h.marked inside).1
  rw [Layout.word_eq_ok]
  exact and_iff_right (by omega)

end Words

mutual

theorem Variable.encode_eq_ok : ∀ (v : Variable) (inside : Bool) (code : Code), v.InRange →
    (v.encode inside = .ok code ↔ v.Encodable inside ∧ code = (v.words inside).flatMap wordOf)
  | .at scope place, inside, code, h => by
    have hword := Scope.Holds.word_eq_ok h inside code
    cases inside <;> cases scope <;> simp_all [Variable.encode, Variable.Encodable, Variable.words, Scope.marked]
  | .indexed scope base offset, inside, code, h => by
    have hword := h.1.word_eq_ok true
    have hoffset code := offset.encodeOffset_eq_ok code h.2
    change (offset.encodeOffset >>= fun behind => Field.word (scope.marked base true) >>= fun word => .ok (word ++ behind)) = _ ↔ _
    simp only [bind_eq_ok, hoffset, hword, Variable.Encodable, Variable.words]
    grind

theorem Operand.encodeOffset_eq_ok : ∀ (o : Operand) (code : Code), o.InRange →
    (o.encodeOffset = .ok code ↔ o.Encodable ∧ code = o.words.flatMap wordOf)
  | .variable v, code, h => v.encode_eq_ok true code h
  | .constant n, _, _ => by simp [Operand.encodeOffset, Operand.Encodable, Operand.words, word_eq_ok]

end

/-! ### Decoding a reference -/

theorem wordsOf_flatMap (ws : List Int) : wordsOf (ws.flatMap wordOf) = ws.map fun w => (w % 65536).toNat := by
  induction ws with
  | nil => rfl
  | cons w ws ih =>
    rw [List.flatMap_cons, List.map_cons, ← ih]
    simp only [wordOf, List.cons_append, List.nil_append, wordsOf, UInt8.toNat_ofNat', List.cons.injEq, and_true]
    omega

theorem Variable.ofWords_eq_some {v : Variable} (hv : v.InRange) (h : v.Encodable false) :
    Variable.ofWords ((v.words false).map fun w => (w % 65536).toNat) = some (v, []) ↔ v.Plain := by
  match v, hv, h with
  | .at scope place, hv, _ =>
    obtain ⟨hword, hmark, hscope, hplace⟩ := Scope.Holds.marked hv false
    simp only [words, List.map_cons, List.map_nil, hword, ofWords, hmark, hscope, hplace, Plain, Bool.false_eq_true, if_false]
  | .indexed scope base offset, hv, h =>
    obtain ⟨hword, hmark, hscope, hplace⟩ := hv.1.marked true
    simp only [words, ofWords]
    match offset, hv.2, h with
    | .constant n, _, hn =>
      obtain ⟨-, hle⟩ : -32768 ≤ n ∧ n ≤ 65535 := hn
      grind [Operand.words, Operand.ofWord, Plain]
    | .variable (.at s p), hp, _ =>
      have hoffset := Scope.Holds.marked hp true
      grind [Operand.words, words, Operand.ofWord, Plain]
    | .variable (.indexed s b o), _, _ => grind [Operand.words, words, Operand.ofWord, Plain]

/-- The names whose numbers in the third generation are not those of the fifth. -/
def outdated : List (String × Nat) := [("VAR_SENTENCE_OBJECT1", 27), ("VAR_KEYPRESS", 39), ("VAR_CUTSCENEEXIT_KEY", 40)]

theorem find?_known : ∀ e ∈ KnownVariable.third ++ KnownVariable.fourth ++ KnownVariable.fifth,
    Table.find? e.1 KnownVariable.fifth = some e.2 ↔ e ∉ outdated := by
  decide +kernel

theorem knownPlace_eq_ok {name : String} {n : Nat} :
    knownPlace name = .ok (n : Int) ↔ Table.find? name KnownVariable.fifth = some n := by
  rw [knownPlace]
  split <;> simp_all [Int.natCast_inj]

/-- A reference within the ranges of its kinds has a code unless a bit variable is an offset or a constant is
too large for a word, and its words give back the reference unless an offset has an offset of its own, or
is a constant that is negative or has the mark. A name gives the number that is listed for it, but for three names of the
third generation. -/
theorem variableCode_reference {v : Variable} {t : Option Token} {m : Machine Assembler} (hv : v.InRange)
    (ht : Gets (variableAt t) m v m) : ((∃ code, Gets (variableCode t) m code m) ↔ v.Encodable false) ∧
    (∀ code, Gets (variableCode t) m code m → (Variable.ofWords (wordsOf code) = some (v, []) ↔ v.Plain)) ∧
    ∀ e ∈ KnownVariable.third ++ KnownVariable.fourth ++ KnownVariable.fifth,
    knownPlace e.1 = .ok (e.2 : Int) ↔ e ∉ outdated := by
  have hcode {code : Code} : Gets (variableCode t) m code m ↔ v.Encodable false ∧ code = (v.words false).flatMap wordOf := by
    rw [Gets, variableCode, run_bind_of_gets ht, ← v.encode_eq_ok false _ hv]
    exact gets_lift.trans (and_iff_left rfl)
  refine ⟨?_, fun code h => ?_, fun e he => knownPlace_eq_ok.trans (find?_known e he)⟩
  · simp [hcode]
  · obtain ⟨henc, rfl⟩ := hcode.1 h
    rw [wordsOf_flatMap]
    exact Variable.ofWords_eq_some hv henc

/-- A reference to the variable behind `Var[1]` that a bit tells. -/
def bitOffset : Token := .group [] [("kind", .word "Var"), ("value", .group [] [("base", .word "1"),
  ("offset", .group [] [("kind", .word "Bit"), ("value", .word "2")])])]

theorem variableCode_reference_bit : let v := Variable.indexed .global 1 (.variable (.at .bit 2))
    v.InRange ∧ Gets (variableAt (some bitOffset)) shareMachine v shareMachine ∧
    ¬ ∃ code, Gets (variableCode (some bitOffset)) shareMachine code shareMachine := by
  have hv : (Variable.indexed .global 1 (.variable (.at .bit 2))).InRange := by
    simp [Variable.InRange, Operand.InRange, Scope.Holds]
  have ht : Gets (variableAt (some bitOffset)) shareMachine (.indexed .global 1 (.variable (.at .bit 2))) shareMachine := by
    with_unfolding_all rfl
  exact ⟨hv, ht, fun h => (variableCode_reference hv ht).1.1 h rfl rfl⟩

end ScummKit.Script
