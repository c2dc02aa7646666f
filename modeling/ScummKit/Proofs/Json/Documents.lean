import Mathlib.Data.List.Forall2
import ScummKit.Proofs.Json.Numbers

/-!
# Documents written and read back

What the printer writes is a document that the reader takes: texts come back as they were, numbers
with their value, lists as lists and records as records.
-/

namespace ScummKit.Json

open List

variable {rest : List Char} {fields : List (String × Json)} {v : Json}
variable (fuel : Nat) (indent depth : Nat) (acc : List Char) {cs : List Char} (s : String)
variable (c : Char) (tail : List Char) (negative : Bool) {key : String} {r : Json × List Char} {n : Nat}

/-! ### Texts -/

theorem hexDigit?_digitChar {k : Nat} (h : k < 16) : hexDigit? (Nat.digitChar k) = some k := by
  interval_cases k <;> decide

theorem readUnit16_unit16 (h : n < 0x10000) (rest : List Char) :
    readUnit16 ((unit16 n).toList ++ rest) = some (n, rest) := by
  have hdigit : ∀ k : Nat, hexDigit? (Nat.digitChar (n / Nat.pow 16 k % 16))
      = some (n / Nat.pow 16 k % 16) := fun k => hexDigit?_digitChar (Nat.mod_lt _ (by decide))
  have hsum : n / Nat.pow 16 3 % 16 * 4096 + n / Nat.pow 16 2 % 16 * 256
      + n / Nat.pow 16 1 % 16 * 16 + n / Nat.pow 16 0 % 16 = n := by
    simp only [Nat.pow_eq]
    omega
  rw [unit16, String.toList_ofList]
  simp only [cons_append, nil_append, readUnit16, hdigit, Option.bind_eq_bind, Option.bind_some, hsum]

theorem not_surrogate : c.toNat < 0xd800 ∨ 0xe000 ≤ c.toNat := by
  have h := c.valid
  rcases h with h | h
  · exact Or.inl h
  · exact Or.inr h.1

theorem readText_unit (h : n < 0x10000) (hs : n < 0xd800 ∨ 0xe000 ≤ n) (rest : List Char) :
    readText (fuel + 1) acc ('\\' :: 'u' :: ((unit16 n).toList ++ rest)) = readText fuel (Char.ofNat n :: acc) rest := by
  have hhigh : ¬ (0xd800 ≤ n ∧ n < 0xdc00) := by omega
  have hlow : ¬ (0xdc00 ≤ n ∧ n < 0xe000) := by omega
  rw [readText]
  simp [readUnit16_unit16 h, hhigh, hlow]

theorem readText_pair {m : Nat} (h : m < 0x100000) (rest : List Char) :
    readText (fuel + 1) acc ('\\' :: 'u' :: ((unit16 (0xd800 + m / 0x400)).toList
    ++ ('\\' :: 'u' :: ((unit16 (0xdc00 + m % 0x400)).toList ++ rest))))
    = readText fuel (Char.ofNat (0x10000 + m) :: acc) rest := by
  have hhigh : 0xd800 ≤ 0xd800 + m / 0x400 ∧ 0xd800 + m / 0x400 < 0xdc00 := by omega
  have hlow : 0xdc00 ≤ 0xdc00 + m % 0x400 ∧ 0xdc00 + m % 0x400 < 0xe000 := by omega
  have hjoin : 0x10000 + (0xd800 + m / 0x400 - 0xd800) * 0x400 + (0xdc00 + m % 0x400 - 0xdc00) = 0x10000 + m := by omega
  have hone := readUnit16_unit16 (n := 0xd800 + m / 0x400) (by omega)
  have htwo := readUnit16_unit16 (n := 0xdc00 + m % 0x400) (by omega)
  rw [readText]
  simp only [hone, htwo, Option.bind_eq_bind, Option.bind_some, if_pos hhigh, if_pos hlow, hjoin]
  rfl

theorem readText_escapeChar (rest : List Char) :
    readText (fuel + 1) acc ((escapeChar c).toList ++ rest) = readText fuel (c :: acc) rest := by
  have hback : Char.ofNat c.toNat = c := Char.ofNat_toNat c
  have hvalid := not_surrogate c
  have hopen : "\\u".toList = ['\\', 'u'] := rfl
  rw [escapeChar]
  split_ifs with hquote hslash hline hreturn htab hb hf hplain hdelete hunit
  · subst hquote; rfl
  · subst hslash; rfl
  · subst hline; rfl
  · subst hreturn; rfl
  · subst htab; rfl
  · rw [← hback, hb]; rfl
  · rw [← hback, hf]; rfl
  · have hlow : ¬ c.toNat < 0x20 := by omega
    rw [readText.eq_def]
    simp [hquote, hslash, hlow]
  · have hlow : ¬ c.toNat < 0x20 := by omega
    rw [readText.eq_def]
    simp [hquote, hslash, hlow]
  · have h := readText_unit fuel acc hunit hvalid rest
    rw [hback] at h
    rw [String.toList_append]
    exact h
  · have hbound : c.toNat < 0x110000 := by
      have h := c.valid
      change c.val.toNat < _
      omega
    have h := readText_pair fuel acc (m := c.toNat - 0x10000) (by omega) rest
    rw [show 0x10000 + (c.toNat - 0x10000) = c.toNat by omega, hback] at h
    rw [String.toList_append, String.toList_append, String.toList_append, append_assoc, append_assoc, append_assoc]
    exact h

def escaped (cs : List Char) : List Char := cs.flatMap fun c => (escapeChar c).toList

theorem toList_quote : (quote s).toList = '"' :: (escaped s.toList ++ ['"']) := by
  have hfold : ∀ (cs : List Char) (acc : String),
      (cs.foldl (fun acc c => acc ++ escapeChar c) acc).toList = acc.toList ++ escaped cs := by
    intro cs
    induction cs with
    | nil => simp [escaped]
    | cons c cs ih => simp [ih, escaped]
  rw [quote, String.toList_append, String.foldl_eq_foldl_toList, hfold]
  simp

theorem readText_escaped (cs : List Char) (fuel : Nat) (acc : List Char) (rest : List Char)
    (h : cs.length < fuel) : readText fuel acc (escaped cs ++ '"' :: rest) = some (String.ofList (acc.reverse ++ cs), rest) := by
  induction cs generalizing fuel acc with
  | nil =>
    rcases fuel with _ | fuel
    · omega
    simp [escaped, readText]
  | cons c cs ih =>
    rcases fuel with _ | fuel
    · omega
    rw [show escaped (c :: cs) ++ '"' :: rest = (escapeChar c).toList ++ (escaped cs ++ '"' :: rest) by simp [escaped],
      readText_escapeChar, ih fuel (c :: acc) (by simpa using h)]
    simp

theorem length_le_escaped (cs : List Char) : cs.length ≤ (escaped cs).length := by
  have hpos : ∀ c, 1 ≤ (escapeChar c).toList.length := by
    intro c
    have hopen : "\\u".toList.length = 2 := rfl
    rw [escapeChar]
    split_ifs
    case neg => simp only [String.toList_append, length_append]; omega
    all_goals simp
  induction cs with
  | nil => exact Nat.zero_le _
  | cons c cs ih =>
    have h := hpos c
    simp only [escaped, flatMap_cons, length_append, length_cons] at ih ⊢
    omega

theorem readText_quoted (rest : List Char) :
    readText ((escaped s.toList ++ '"' :: rest).length + 1) [] (escaped s.toList ++ '"' :: rest) = some (s, rest) := by
  have hlength := length_le_escaped s.toList
  rw [readText_escaped _ _ _ _ (by rw [length_append]; omega)]
  simp

/-! ### Documents -/

/-- Documents that no comparison of numbers tells apart. -/
def Alike : Json → Json → Prop
  | .real x, .real y => x.value = y.value
  | .list _, .list _ => True
  | .record _, .record _ => True
  | v, w => v = w

theorem skipBlanks_cons {c : Char} (h : isBlank c = false) (rest : List Char) : skipBlanks (c :: rest) = c :: rest := by
  rw [skipBlanks, h]
  rfl

theorem skipBlanks_newline (rest : List Char) : skipBlanks ((newline indent depth).toList ++ rest) = skipBlanks rest := by
  have hspaces : ∀ n, skipBlanks (List.replicate n ' ' ++ rest) = skipBlanks rest := by
    intro n
    induction n with
    | zero => rfl
    | succ n ih => exact ih
  simp only [newline, String.toList_append, String.toList_ofList]
  exact hspaces _

/-- A text that starts with a token that closes nothing. -/
def Opens (cs : List Char) : Prop := ∃ c rest, cs = c :: rest ∧ isBlank c = false ∧ c ≠ ']' ∧ c ≠ '\x7d'

theorem Opens.skipBlanks (h : Opens cs) : skipBlanks cs = cs := by
  obtain ⟨c, rest, rfl, hc, -⟩ := h
  exact skipBlanks_cons hc _

theorem Opens.append (h : Opens cs) (rest : List Char) : Opens (cs ++ rest) := by
  obtain ⟨c, tail, rfl, hc⟩ := h
  exact ⟨c, tail ++ rest, rfl, hc⟩

theorem opens_quote : Opens (quote s).toList := by
  rw [toList_quote]
  exact ⟨'"', _, rfl, by decide⟩

theorem opens_of_readValue {fuel : Nat} (h : readValue fuel cs = some r) : Opens cs := by
  rw [readValue.eq_def] at h
  split at h
  · cases h
  · cases h
  · rename_i fuel c rest
    have hclosed : ∀ c ∈ [' ', '\t', '\n', '\r', ']', '\x7d'], readValue (fuel + 1) (c :: rest) = none := by
      simp only [forall_mem_cons]
      exact ⟨rfl, rfl, rfl, rfl, rfl, rfl, nofun⟩
    have hc := mt (hclosed c) (by rw [readValue, h]; nofun)
    simp at hc
    exact ⟨c, rest, rfl, by simp [isBlank, hc], hc.2.2.2.2⟩

theorem isDigit_ne {d : Char} (hd : d.isDigit = true) (c : Char) (hc : c.isDigit = false) : d ≠ c ∧ c ≠ d := by
  refine ⟨?_, ?_⟩
  all_goals
    rintro rfl
    rw [hd] at hc
    cases hc

theorem readValue_number {whole fraction : List Char} {exponent : Option Int}
    (fuel : Nat) (hw : Whole whole) (hf : AllDigits fraction) (hrest : Ended rest) :
    readValue (fuel + 1) (signText negative ++ numberText whole fraction exponent ++ rest)
    = some (numberOf negative whole fraction exponent, rest) := by
  have hread : readNumber negative (numberText whole fraction exponent ++ rest) = _ :=
    readNumber_text negative hw hf hrest
  obtain ⟨d, cs, hcs, hd⟩ : ∃ d cs, numberText whole fraction exponent ++ rest = d :: cs ∧ d.isDigit = true := by
    cases whole with
    | nil => exact absurd rfl hw.ne_nil
    | cons d ds => exact ⟨d, _, rfl, hw.1 d mem_cons_self⟩
  rw [hcs] at hread
  rw [append_assoc, hcs]
  cases negative <;> simp [signText, readValue, readWord, afterWord, isDigit_ne hd, hread]

/-- A document is read back from the front of every text that starts with it. -/
def ReadsBack (indent depth : Nat) (v : Json) : Prop :=
  ∀ (fuel : Nat) (rest : List Char), Ended rest → (layout indent depth v).toList.length < fuel →
    ∃ w, readValue fuel ((layout indent depth v).toList ++ rest) = some (w, rest) ∧ v.Alike w

theorem ReadsBack.opens (h : ReadsBack indent depth v) : Opens (layout indent depth v).toList := by
  obtain ⟨w, hw, -⟩ := h _ [] nofun (Nat.lt_succ_self _)
  rw [append_nil] at hw
  exact opens_of_readValue hw

theorem ended_newline (rest : List Char) : Ended ((newline indent depth).toList ++ rest) := by
  intro c hc
  rw [newline, String.toList_append] at hc
  obtain rfl := Option.some.inj hc
  decide

theorem comma : ",".toList = [','] := rfl

theorem ended_comma (rest : List Char) : Ended (',' :: rest) := by
  intro c hc
  obtain rfl := Option.some.inj hc
  decide

theorem readValue_open (hcs : Opens cs) :
    readValue (fuel + 1) ('[' :: ((newline indent depth).toList ++ cs)) = readItems fuel [] cs
    ∧ readValue (fuel + 1) ('\x7b' :: ((newline indent depth).toList ++ cs)) = readFields fuel [] cs := by
  have hskip := (skipBlanks_newline indent depth cs).trans hcs.skipBlanks
  obtain ⟨c, tail, rfl, -, hlist, hrecord⟩ := hcs
  constructor
  all_goals
    rw [readValue.eq_def]
    simp [hskip, hlist, hrecord]

/-- A key, its value and what stands behind them. -/
def fieldText (indent depth : Nat) (key : String) (v : Json) (behind : List Char) : List Char :=
  (quote key).toList ++ (": ".toList ++ ((layout indent depth v).toList ++ behind))

/-- Reading behind a field: the record ends, or there is a further field. -/
def afterField (fuel : Nat) (fields : List (String × Json)) : List Char → Option (Json × List Char)
  | '\x7d' :: r => some (.record fields, r)
  | ',' :: r => readFields fuel fields (skipBlanks r)
  | _ => none

theorem readFields_field {indent depth fuel : Nat} {w : Json} (acc : List (String × Json)) {behind : List Char}
    (hw : readValue fuel ((layout indent depth v).toList ++ behind) = some (w, behind)) :
    readFields (fuel + 1) acc (fieldText indent depth key v behind)
    = afterField fuel (Table.put key w acc) (skipBlanks behind) := by
  have hblank : skipBlanks (' ' :: ((layout indent depth v).toList ++ behind))
      = (layout indent depth v).toList ++ behind := (opens_of_readValue hw).skipBlanks
  have hcolon : ": ".toList = [':', ' '] := rfl
  rw [fieldText, toList_quote, hcolon, cons_append, append_assoc, readFields]
  simp only [readText_quoted, cons_append, nil_append, skipBlanks_cons (show isBlank ':' = false by decide), hblank, hw]
  rfl

theorem readValue_fields {fuel : Nat} (h : readFields fuel [] (fieldText indent (depth + 1) key v
    ((layoutFields indent (depth + 1) fields).toList ++ ((newline indent depth).toList ++ '\x7d' :: rest))) = some r) :
    readValue (fuel + 1) ((layout indent depth (.record ((key, v) :: fields))).toList ++ rest) = some r := by
  rw [layout, ← h, fieldText, ← (readValue_open fuel indent (depth + 1) ((opens_quote key).append _)).2]
  simp only [String.toList_append, append_assoc]
  rfl

mutual

theorem readsBack (indent : Nat) : ∀ (depth : Nat) (v : Json), ReadsBack indent depth v
  | _, _, 0, _, _, hfuel => absurd hfuel (Nat.not_lt_zero _)
  | _, .null, _ + 1, _, _, _ | _, .notANumber, _ + 1, _, _, _ | _, .bool true, _ + 1, _, _, _
  | _, .bool false, _ + 1, _, _, _ | _, .infinite true, _ + 1, _, _, _ | _, .infinite false, _ + 1, _, _, _ => by
    simp [layout, scalar, readValue, readWord, afterWord, Alike]
  | _, .int n, fuel + 1, rest, hrest, _ => by
    refine ⟨.int n, ?_, rfl⟩
    change readValue _ ((toString n).toList ++ rest) = _
    rw [toList_toString_int, readValue_number _ _ (whole_toDigits _) (nofun : AllDigits []) hrest, numberOf_int]
  | _, .real x, fuel + 1, rest, hrest, _ => by
    obtain ⟨whole, fraction, exponent, y, hw, hf, htext, hy, hv⟩ := written_decimal x
    refine ⟨.real y, ?_, hv.symm⟩
    change readValue _ ((decimal x).toList ++ rest) = _
    rw [htext, readValue_number _ _ hw hf hrest, hy]
  | _, .text s, fuel + 1, rest, _, _ => by
    refine ⟨.text s, ?_, rfl⟩
    change readValue _ ((quote s).toList ++ rest) = _
    rw [toList_quote, cons_append, readValue.eq_def]
    simp only [if_true, append_assoc, singleton_append, readText_quoted]
    rfl
  | _, .list [], _ + 1, _, _, _ => ⟨.list [], by rw [layout]; rfl, trivial⟩
  | _, .record [], _ + 1, _, _, _ => ⟨.record [], by rw [layout]; rfl, trivial⟩
  | depth, .list (x :: items), fuel + 1, rest, _, hfuel => by
    have hx := readsBack indent (depth + 1) x
    rw [layout] at hfuel ⊢
    obtain ⟨ys, hys⟩ := readItems_layout indent (depth + 1) items hx depth fuel [] rest
      (by simp [String.toList_append] at hfuel; omega)
    refine ⟨.list ys, ?_, trivial⟩
    rw [← hys, ← (readValue_open fuel indent (depth + 1) (hx.opens.append _)).1]
    simp only [String.toList_append, append_assoc]
    rfl
  | depth, .record ((key, v) :: fields), fuel + 1, rest, _, hfuel => by
    obtain ⟨gs, hgs, -⟩ := readFields_layout indent (depth + 1) fields key (readsBack indent (depth + 1) v) depth fuel [] rest
      (by simp [layout, String.toList_append] at hfuel; omega)
    exact ⟨_, readValue_fields indent depth hgs, trivial⟩

theorem readItems_layout (indent depth : Nat) : ∀ (items : List Json) {x : Json}, ReadsBack indent depth x →
    ∀ (outer fuel : Nat) (acc : List Json) (rest : List Char),
    (layout indent depth x).toList.length + (layoutItems indent depth items).toList.length + 1 < fuel →
    ∃ ys, readItems fuel acc ((layout indent depth x).toList ++ ((layoutItems indent depth items).toList
    ++ ((newline indent outer).toList ++ ']' :: rest))) = some (.list ys, rest)
  | _, _, _, _, 0, _, _, hfuel => absurd hfuel (Nat.not_lt_zero _)
  | [], x, hx, outer, fuel + 1, acc, rest, hfuel => by
    obtain ⟨w, hw, -⟩ := hx fuel _ (ended_newline indent outer (']' :: rest)) (by omega)
    refine ⟨(w :: acc).reverse, ?_⟩
    rw [layoutItems, readItems, String.toList_empty, nil_append, hw]
    simp only [skipBlanks_newline]
    rfl
  | y :: more, x, hx, outer, fuel + 1, acc, rest, hfuel => by
    have hy := readsBack indent depth y
    simp only [layoutItems, String.toList_append, comma, length_append, length_cons, append_assoc, cons_append, nil_append] at hfuel ⊢
    obtain ⟨w, hw, -⟩ := hx fuel _ (ended_comma _) (by omega)
    obtain ⟨ys, hys⟩ := readItems_layout indent depth more hy outer fuel (w :: acc) rest (by omega)
    refine ⟨ys, ?_⟩
    rw [readItems, hw]
    simp only [skipBlanks_cons (show isBlank ',' = false by decide), skipBlanks_newline, (hy.opens.append _).skipBlanks, hys]

theorem readFields_layout (indent depth : Nat) : ∀ (fields : List (String × Json)) (key : String) {v : Json},
    ReadsBack indent depth v → ∀ (outer fuel : Nat) (acc : List (String × Json)) (rest : List Char),
    (layout indent depth v).toList.length + (layoutFields indent depth fields).toList.length + 1 < fuel →
    ∃ gs : List (String × Json), readFields fuel acc (fieldText indent depth key v
    ((layoutFields indent depth fields).toList ++ ((newline indent outer).toList ++ '\x7d' :: rest)))
    = some (.record (gs.foldl (fun t g => Table.put g.1 g.2 t) acc), rest)
    ∧ List.Forall₂ (fun f g => f.1 = g.1 ∧ f.2.Alike g.2) ((key, v) :: fields) gs
  | _, _, _, _, _, 0, _, _ => fun hfuel => absurd hfuel (Nat.not_lt_zero _)
  | [], key, v, hv, outer, fuel + 1, acc, rest => fun hfuel => by
    obtain ⟨w, hw, hvw⟩ := hv fuel _ (ended_newline indent outer ('\x7d' :: rest)) (by omega)
    refine ⟨[(key, w)], ?_, .cons ⟨rfl, hvw⟩ .nil⟩
    rw [layoutFields, String.toList_empty, nil_append, readFields_field acc hw, skipBlanks_newline]
    rfl
  | (key', v') :: more, key, v, hv, outer, fuel + 1, acc, rest => fun hfuel => by
    simp only [layoutFields, String.toList_append, comma, length_append, length_cons, append_assoc, cons_append, nil_append] at hfuel ⊢
    obtain ⟨w, hw, hvw⟩ := hv fuel _ (ended_comma _) (by omega)
    obtain ⟨gs, hgs, hsame⟩ := readFields_layout indent depth more key' (readsBack indent depth v') outer fuel
      (Table.put key w acc) rest (by omega)
    refine ⟨(key, w) :: gs, ?_, .cons ⟨rfl, hvw⟩ hsame⟩
    rw [readFields_field acc hw]
    simp only [skipBlanks_cons (show isBlank ',' = false by decide), afterField, skipBlanks_newline,
      ((opens_quote key').append _).skipBlanks]
    exact hgs

end

end ScummKit.Json
