import Mathlib.Data.List.Nodup
import ScummKit.Proofs.Json.Documents
import ScummKit.Text

/-!
# Documents kept in files

A document that is stored as text and read again: the text has one kind of line end and is plain
ASCII, the reader gives every record different keys, and of such a record every field comes back in
its place.
-/

namespace ScummKit.Json

open List

variable {fields : List (String × Json)} {j : Json} {fuel : Nat}
variable {cs rest : List Char} {indent depth : Nat}

/-! ### No carriage returns

Texts are stored with one kind of line end, which changes carriage returns. The printer writes none. -/

/-- Some characters without a carriage return. -/
@[simp, reducible] def Clean (cs : List Char) : Prop := '\r' ∉ cs

theorem AllDigits.clean {ds : List Char} (h : AllDigits ds) : Clean ds := fun hr => absurd (h _ hr) (by decide)

theorem clean_numberText (negative : Bool) {whole fraction : List Char} (exponent : Option Int)
    (hw : Whole whole) (hf : AllDigits fraction) : Clean (signText negative ++ numberText whole fraction exponent) := by
  have hsize (e : Int) := (allDigits_toDigits e.natAbs).clean
  have hsign : Clean (signText negative) := by cases negative <;> simp [signText]
  have hfraction : Clean (fractionText fraction) := by
    rw [fractionText]
    split <;> simp [hf.clean]
  have hexponent : Clean (exponentText exponent) := by
    cases exponent with
    | none => exact not_mem_nil
    | some e =>
      rw [exponentText]
      split <;> split <;> simp [hsize]
  simp [numberText, hsign, hw.1.clean, hfraction, hexponent]

@[simp] theorem clean_unit16 (n : Nat) : Clean (unit16 n).toList := by simp [unit16]

theorem clean_escapeChar (c : Char) : Clean (escapeChar c).toList := by
  rw [escapeChar]
  split_ifs
  case neg =>
    simp only [Clean, String.toList_append, mem_append, clean_unit16]
    decide
  all_goals simp [*, eq_comm]

@[simp] theorem clean_quote (s : String) : Clean (quote s).toList := by
  have hescaped : Clean (escaped s.toList) := by
    rw [Clean, escaped, mem_flatMap]
    rintro ⟨c, -, hc⟩
    exact clean_escapeChar c hc
  simp [toList_quote, hescaped]

@[simp] theorem clean_newline (indent depth : Nat) : Clean (newline indent depth).toList := by
  simp [newline]

mutual

theorem clean_layout (indent : Nat) : ∀ (depth : Nat) (v : Json), Clean (layout indent depth v).toList
  | _, .null | _, .notANumber | _, .bool true | _, .bool false | _, .infinite true | _, .infinite false
  | _, .list [] | _, .record [] => by simp [layout, scalar]
  | _, .int n => by
    have hn := clean_numberText (decide (n < 0)) none (whole_toDigits n.natAbs) (nofun : AllDigits [])
    rw [← toList_toString_int] at hn
    exact hn
  | _, .real x => by
    obtain ⟨whole, fraction, exponent, y, hw, hf, htext, -⟩ := written_decimal x
    simpa only [layout, scalar, htext] using clean_numberText x.negative exponent hw hf
  | _, .text s => by simp [layout, scalar]
  | depth, .list (x :: items) => by
    simp [layout, clean_layout indent (depth + 1) x, clean_layoutItems indent (depth + 1) items]
  | depth, .record ((k, v) :: fields) => by
    simp [layout, clean_layout indent (depth + 1) v, clean_layoutFields indent (depth + 1) fields]

theorem clean_layoutItems (indent depth : Nat) : ∀ items : List Json, Clean (layoutItems indent depth items).toList
  | [] => by simp [layoutItems]
  | x :: items => by simp [layoutItems, clean_layout indent depth x, clean_layoutItems indent depth items]

theorem clean_layoutFields (indent depth : Nat) : ∀ fields : List (String × Json), Clean (layoutFields indent depth fields).toList
  | [] => by simp [layoutFields]
  | (k, v) :: fields => by simp [layoutFields, clean_layout indent depth v, clean_layoutFields indent depth fields]

end

/-! ### Keys -/

/-- The keys of a record differ. Nothing is asked of other documents, and nothing of inner records. -/
def Tidy : Json → Prop
  | .record fields => (fields.map Prod.fst).Nodup
  | _ => True

theorem tidy_readItems {acc : List Json} (h : readItems fuel acc cs = some (j, rest)) : j.Tidy := by
  induction fuel generalizing acc cs with
  | zero => cases h
  | succ fuel ih =>
    rw [readItems] at h
    split at h
    · cases h
    · split at h
      · cases h
        trivial
      · exact ih h
      · cases h

theorem tidy_readFields {acc : List (String × Json)}
    (hacc : (acc.map Prod.fst).Nodup) (h : readFields fuel acc cs = some (j, rest)) : j.Tidy := by
  induction fuel generalizing acc cs with
  | zero => cases h
  | succ fuel ih =>
    rw [readFields.eq_def] at h
    simp only at h
    repeat' split at h
    all_goals first
      | cases h; done
      | exact ih (Table.nodup_put _ _ hacc) h
      | (cases h; exact Table.nodup_put _ _ hacc)

theorem tidy_readNumber {negative : Bool} (h : readNumber negative cs = some (j, rest)) : j.Tidy := by
  simp only [readNumber] at h
  repeat' split at h
  all_goals cases h
  all_goals trivial

theorem tidy_readWord (h : readWord cs = some (j, rest)) : j.Tidy := by
  simp only [readWord, Option.orElse_eq_orElse, Option.orElse_eq_or, Option.or_eq_some_iff, Option.map_eq_some_iff] at h
  grind [Tidy]

theorem tidy_readValue (h : readValue fuel cs = some (j, rest)) : j.Tidy := by
  rw [readValue.eq_def] at h
  split at h
  · cases h
  · cases h
  · split at h
    · obtain ⟨r, -, hr⟩ := Option.map_eq_some_iff.mp h
      cases hr
      trivial
    · split at h
      · split at h
        · cases h
          trivial
        · exact tidy_readItems h
      · split at h
        · split at h
          · cases h
            exact nodup_nil
          · exact tidy_readFields (show (([]).map Prod.fst).Nodup from nodup_nil) h
        · split at h
          · rename_i hword
            cases h
            exact tidy_readWord hword
          · split at h
            · exact tidy_readNumber h
            · exact tidy_readNumber h

theorem tidy_parse {s : String} (h : parse s = .ok j) : j.Tidy := by
  simp only [parse] at h
  split at h
  · rename_i hread
    split at h
    · cases h
      exact tidy_readValue hread
    · cases h
  · cases h

/-! ### Whole texts -/

/-- A record with different keys that is written and read has the same fields in the same order, with
values that no comparison tells apart. -/
theorem parse_pretty_record (indent : Nat) (h : (fields.map Prod.fst).Nodup) :
    ∃ gs : List (String × Json), parse (pretty indent (.record fields)) = .ok (.record gs)
    ∧ List.Forall₂ (fun f g => f.1 = g.1 ∧ f.2.Alike g.2) fields gs := by
  cases fields with
  | nil =>
    refine ⟨[], ?_, .nil⟩
    rw [pretty, layout]
    rfl
  | cons f fields =>
    obtain ⟨gs, hgs, hsame⟩ := readFields_layout indent 1 fields f.1 (readsBack indent 1 f.2) 0
      (2 * (layout indent 0 (.record (f :: fields))).toList.length + 1) [] [] (by simp [layout]; omega)
    replace hgs := readValue_fields indent 0 hgs
    refine ⟨gs, ?_, hsame⟩
    have hkeys : (f :: fields).map Prod.fst = gs.map Prod.fst := by
      rw [← forall₂_eq_eq_eq, forall₂_map_left_iff, forall₂_map_right_iff]
      exact hsame.imp fun _ _ hfg => hfg.1
    rw [append_nil] at hgs
    have hskip := (opens_of_readValue hgs).skipBlanks
    rw [Table.foldl_put gs [] (by rw [nil_append, ← hkeys]; exact h)] at hgs
    rw [parse, pretty]
    simp only [hskip]
    rw [hgs]
    rfl

end ScummKit.Json

namespace ScummKit.Text

theorem unixLines_of_clean {cs : List Char} (h : Json.Clean cs) : unixLines cs = cs := by
  induction cs with
  | nil => rfl
  | cons c cs ih =>
    rw [Json.Clean, List.mem_cons, not_or] at h
    rw [unixLines, ih h.2]
    · intro _ hc
      exact absurd hc.symm h.1
    · intro hc
      exact absurd hc.symm h.1

variable (bytes : ByteArray)

theorem toList_loop (i : Nat) (r : List UInt8) :
    ByteArray.toList.loop bytes i r = r.reverse ++ bytes.data.toList.drop i := by
  fun_induction ByteArray.toList.loop bytes i r with
  | case1 i r hi ih =>
    have hlength : i < bytes.data.toList.length := hi
    have hget : bytes.get! i = bytes.data.toList[i] := getElem!_pos bytes.data i hi
    rw [ih, hget, List.drop_eq_getElem_cons hlength, List.reverse_cons, List.append_assoc]
    rfl
  | case2 i r hi => rw [List.drop_eq_nil_of_le (Nat.le_of_not_lt hi), List.append_nil]

theorem toList_eq : bytes.toList = bytes.data.toList := toList_loop bytes 0 []

theorem ofUtf8_toUtf8 (s : String) : ofUtf8 (toUtf8 s) = .ok s := by
  rw [ofUtf8, toUtf8, toList_eq]
  simp [String.fromUTF8?, String.fromUTF8, s.isValidUTF8]

end ScummKit.Text
