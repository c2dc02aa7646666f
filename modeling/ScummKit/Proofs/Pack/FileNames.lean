import ScummKit.Proofs.Pack.Numerals
import ScummKit.Proofs.Pack.Runs
import ScummKit.Proofs.Project.PictureNames

/-!
# Numbers in the names of files

A resource is saved under its number, which is written with at least three digits and read from the last three. A sound without a name is looked for under exactly three digits, an object under exactly four. So each of them has a largest number that its name can carry; only the numbers of folders have none (`numbers_of_names`).
-/

namespace ScummKit

open List Text
variable {name : String} {tail : List Char}

/-! ### Names in paths -/

namespace Path

variable {name : String} (hslash : '/' ∉ name.toList)

include hslash

theorem lastName_of_append {s : String} {front : List Char} (hs : s.toList = front ++ name.toList)
    (hfront : front = [] ∨ ∃ cs, front = cs ++ ['/']) : lastName s = name := by
  have hname : ∀ c ∈ name.toList.reverse, (decide (c ≠ '/')) = true := by
    intro c hc
    rw [decide_eq_true_eq]
    rintro rfl
    exact hslash (mem_reverse.mp hc)
  have hstop : front.reverse.takeWhile (fun c => decide (c ≠ '/')) = [] := by
    rcases hfront with rfl | ⟨cs, rfl⟩
    · rfl
    · rw [reverse_concat]
      rfl
  rw [lastName, splitName]
  rw [hs, reverse_append, takeWhile_append_of_pos hname, hstop, append_nil, reverse_reverse, String.ofList_toList]

theorem lastName_append (folder : String) : lastName (append folder name) = name := by
  have hstart : ¬ starts name "/" = true := by
    intro hstart
    exact hslash (( isPrefixOf_iff_prefix.mp hstart).subset (by decide))
  rw [append, if_neg hstart]
  split
  · rename_i h
    refine lastName_of_append hslash String.toList_append ?_
    rcases h with rfl | h
    · exact Or.inl rfl
    · exact Or.inr (ends_iff.mp h)
  · exact lastName_of_append hslash String.toList_append (Or.inr ⟨folder.toList, String.toList_append⟩)

theorem splitEnding_dmp {c : Char} {cs : List Char} (hcons : name.toList = c :: cs) (hc : c ≠ '.') : splitEnding (name ++ ".dmp") = (name, ".dmp") := by
  have htext : (name ++ ".dmp").toList = c :: cs ++ ".dmp".toList := by rw [String.toList_append, hcons]
  have hslash' : '/' ∉ (name ++ ".dmp").toList := by
    rw [String.toList_append, mem_append, not_or]
    exact ⟨hslash, by decide⟩
  have hbody : (lastName (name ++ ".dmp")).toList.dropWhile (· = '.') = c :: cs ++ ".dmp".toList := by
    rw [lastName_of_append hslash' (nil_append _).symm (Or.inl rfl), htext]
    exact dropWhile_cons_of_neg (by simpa using hc)
  have hending : ((c :: cs ++ ".dmp".toList).reverse.takeWhile (· ≠ '.')).length = 3 := by
    rw [reverse_append]
    rfl
  have hlength : (name ++ ".dmp").length = name.toList.length + 4 := by
    rw [← String.length_toList, String.toList_append, length_append]
    rfl
  have hkept : (name ++ ".dmp").length - 3 - 1 = name.toList.length := by omega
  rw [splitEnding, hbody]
  simp only [hending, hkept]
  rw [if_neg (by rw [length_append]; change ¬ 3 = cs.length + 1 + 4; omega), String.toList_append, take_left, drop_left]
  exact Prod.ext String.ofList_toList rfl

end Path

/-! ### Forms of names -/

namespace Pack

open Spelling

variable {width n : Nat} {f : Format}

theorem length_digits_eq_iff (hwidth : 0 < width) : (digits width n).length = width ↔ n < Nat.pow 10 width := by
  have hlength : (Nat.toDigits 10 n).length ≤ width ↔ n < Nat.pow 10 width := Nat.length_toDigits_le_iff (by decide) hwidth
  rw [digits, length_append, length_replicate]
  omega

theorem isDecimal_of_isDigit {c : Char} (h : c.isDigit) : isDecimal c = true := by
  rw [isDecimal, Bool.and_eq_true, decide_eq_true_eq, decide_eq_true_eq]
  rw [Char.isDigit, Bool.and_eq_true, decide_eq_true_eq, decide_eq_true_eq] at h
  exact h

theorem startsNumbered_digits {letters : String} (hname : name.toList = letters.toList ++ (digits width n ++ tail)) (ending : String) :
    startsNumbered isDecimal letters width ending name = ending.toList.isPrefixOf ((digits width n).drop width ++ tail) := by
  have hwidth := le_length_digits width n
  have hstart : starts name letters = true := by
    rw [starts, isPrefixOf_iff_prefix, hname]
    exact prefix_append _ _
  have hrest : name.toList.drop letters.length = digits width n ++ tail := by
    rw [hname, ← String.length_toList, drop_left]
  have htake : (digits width n ++ tail).take width = (digits width n).take width := take_append_of_le_length hwidth
  have hdrop : (digits width n ++ tail).drop width = (digits width n).drop width ++ tail := drop_append_of_le_length hwidth
  have hall : ((digits width n).take width).all isDecimal = true :=
    all_eq_true.mpr fun c hc => isDecimal_of_isDigit (isDigit_digits (mem_of_mem_take hc))
  rw [startsNumbered]
  simp only [hstart, hrest, htake, hdrop, hall, length_take, Nat.min_eq_left hwidth, decide_true, Bool.true_and]

/-- A name with a mark behind its number is found exactly if the number has no more digits than are asked for. -/
theorem startsNumbered_mark (hwidth : 0 < width) {letters ending name : String} (hending : ∃ c cs, ending.toList = c :: cs ∧ c.isDigit = false) (hname : name.toList = letters.toList ++ (digits width n ++ (ending.toList ++ tail))) :
    startsNumbered isDecimal letters width ending name = decide (n < Nat.pow 10 width) := by
  obtain ⟨c, cs, hcons, hc⟩ := hending
  rw [startsNumbered_digits hname, hcons, Bool.eq_iff_iff, isPrefixOf_iff_prefix, decide_eq_true_eq, ← length_digits_eq_iff hwidth]
  cases hdrop : (digits width n).drop width with
  | nil => exact iff_of_true (prefix_append _ _) (Nat.le_antisymm (drop_eq_nil_iff.mp hdrop) (le_length_digits width n))
  | cons d ds =>
    have hd : d ∈ digits width n := mem_of_mem_drop (hdrop ▸ mem_cons_self)
    refine iff_of_false (fun hprefix => ?_) fun heq => ?_
    · rw [(cons_prefix_cons.mp hprefix).1, isDigit_digits hd] at hc
      cases hc
    · rw [drop_eq_nil_of_le (Nat.le_of_eq heq)] at hdrop
      cases hdrop

/-! ### Dispatch -/

def numberedFile (name : String) (n : Nat) : String := name ++ "_" ++ Entry.text ⟨some n, false⟩ ++ ".dmp"

theorem toList_text (n : Nat) : (Entry.text ⟨some n, false⟩).toList = digits 3 n :=
  (congrArg String.toList (String.empty_append.trans (pad_eq 3 n))).trans String.toList_ofList

theorem toList_numberedFile (name : String) (n : Nat) :
    (numberedFile name n).toList = (name ++ "_").toList ++ (digits 3 n ++ ".dmp".toList) := by
  rw [numberedFile, String.toList_append, String.toList_append, toList_text, append_assoc]

theorem startsNumbered_other {letters front name : String} {rest : List Char} (hname : name.toList = front.toList ++ rest)
    (hlength : letters.toList.length ≤ front.toList.length) (hletters : ¬ letters.toList <+: front.toList) (ending : String) :
    startsNumbered isDecimal letters 3 ending name = false := by
  have hstart : starts name letters = false := by
    rw [Bool.eq_false_iff, Ne, starts, isPrefixOf_iff_prefix, hname]
    exact fun h => hletters (prefix_of_prefix_length_le h (prefix_append _ _) hlength)
  rw [startsNumbered, hstart]
  rfl

section

variable {x : String} (n : Nat)

theorem lt_length_numberedFile (hx : 2 ≤ x.length) : 8 < (numberedFile x n).length := by
  have hdigits := le_length_digits 3 n
  rw [← String.length_toList, toList_numberedFile, length_append, length_append, String.length_toList, String.length_append]
  change 8 < x.length + 1 + ((digits 3 n).length + 4)
  omega

theorem startsNumbered_self (x : String) {label : String} (h : x ++ "_" = label) :
    startsNumbered isDecimal label 3 "" (numberedFile x n) = true :=
  h ▸ startsNumbered_digits (toList_numberedFile x n) ""

theorem startsNumbered_dmp (x : String) {label : String} (h : x ++ "_" = label) :
    startsNumbered isDecimal label 3 ".dmp" (numberedFile x n) = decide (n < 1000) :=
  h ▸ startsNumbered_mark (by decide) ⟨_, _, rfl, by decide⟩ ((toList_numberedFile x n).trans (by rw [append_nil]))

theorem contains_of_long (hlong : 8 < name.length) {texts : List String} (h : ∀ text ∈ texts, text.length ≤ 8) :
    texts.contains name = false := by
  rw [Bool.eq_false_iff, Ne, contains_iff_mem]
  exact fun hmem => Nat.not_le_of_lt hlong (h name hmem)

theorem ofOldFile_numberedFile (f : Format) : ∀ x ∈ ["SC", "CO", "SO", "00"], Form.ofOldFile f (numberedFile x n)
    = if x = "00" then if n < 1000 then some .nameless else none
    else if x = "SO" ∧ f ≠ .towns then some .song else some .resource := by
  intro x hx
  have hlong : 8 < (numberedFile x n).length := lt_length_numberedFile n (by revert x; decide)
  have htext := toList_numberedFile x n
  have hself {label : String} := @startsNumbered_self n x label
  have hdmp {label : String} := @startsNumbered_dmp n x label
  unfold Form.ofOldFile
  generalize numberedFile x n = name at *
  split
  case h_6 =>
    rw [contains_of_long hlong (by decide), if_neg Bool.false_ne_true, if_neg fun h => absurd (h.1 ▸ hlong) (by decide)]
    simp only [mem_cons, not_mem_nil, or_false] at hx
    rcases hx with rfl | rfl | rfl | rfl
    case inr.inr.inr =>
      simp (disch := decide) only [startsNumbered_other htext, hdmp, decide_eq_true_eq]
      rfl
    all_goals
      simp (disch := decide) only [startsNumbered_other htext, hself]
      cases f <;> rfl
  all_goals exact absurd hlong (by decide)

theorem ofNewFile_numberedFile : ∀ x ∈ ["COST", "CHAR", "SCRP"], Form.ofSixthFile (numberedFile x n) = none
    ∧ Form.ofNewFile (numberedFile x n) = some .resource := by
  intro x hx
  have hlong : 8 < (numberedFile x n).length := lt_length_numberedFile n (by revert x; decide)
  have htext := toList_numberedFile x n
  have hself {label : String} := @startsNumbered_self n x label
  unfold Form.ofSixthFile Form.ofNewFile
  generalize numberedFile x n = name at *
  simp only [mem_cons, not_mem_nil, or_false] at hx
  constructor
  · split
    case h_7 =>
      rcases hx with rfl | rfl | rfl <;> simp (disch := decide) only [startsNumbered_other htext] <;> rfl
    all_goals exact absurd hlong (by decide)
  · split
    case h_13 =>
      rw [contains_of_long hlong (by decide)]
      rcases hx with rfl | rfl | rfl <;> simp (disch := decide) only [startsNumbered_other htext, hself] <;> rfl
    all_goals exact absurd hlong (by decide)

end

/-! ### Loading -/

def resourceNames (f : Format) : List String :=
  if f = .towns then ["SC", "CO", "SO"] else if f.isOld then ["SC", "CO"] else ["COST", "CHAR", "SCRP"]

theorem ofFile_numberedFile (hname : name ∈ resourceNames f) (n : Nat) :
    Form.ofFile f (numberedFile name n) = some .resource := by
  have hold := ofOldFile_numberedFile n f
  have hnew := ofNewFile_numberedFile n
  cases f with
  | towns =>
    have hmem : name ∈ ["SC", "CO", "SO", "00"] ∧ name ≠ "00" := by revert name; decide
    exact (hold name hmem.1).trans (by rw [if_neg hmem.2]; simp)
  | three | four =>
    have hmem : name ∈ ["SC", "CO", "SO", "00"] ∧ name ≠ "00" ∧ name ≠ "SO" := by revert name; decide
    exact (hold name hmem.1).trans (by rw [if_neg hmem.2.1, if_neg fun h => hmem.2.2 h.1])
  | five => exact (hnew name hname).2
  | six => exact (congrArg₂ Option.or (hnew name hname).1 (hnew name hname).2)

theorem plain_of_mem (hname : name ∈ "00" :: resourceNames f) : '/' ∉ name.toList ∧ ∃ c cs, name.toList = c :: cs ∧ c ≠ '.' := by
  have hplain : '/' ∉ name.toList ∧ name.toList.head?.any (· ≠ '.') = true := by
    revert name
    cases f <;> decide
  cases hcons : name.toList with
  | nil => simp [hcons] at hplain
  | cons c cs => exact ⟨hcons ▸ hplain.1, c, cs, rfl, by simpa [hcons] using hplain.2⟩

theorem read_digits_eq (width n : Nat) : Numeral.read 10 (String.ofList (digits width n)) = .ok (n : Int) := by
  rw [Numeral.read_digits (fun c hc => isDigit_digits hc) (digits_ne_nil width n), ofDigitChars_digits]

namespace Job

variable {s t : State} {name folder : String} (n : Nat)

theorem does_numberAtEnd (hslash : '/' ∉ name.toList) (hstart : ∃ c cs, name.toList = c :: cs ∧ c ≠ '.')
    (hfile : s.files.isFolder (Path.ofText (Path.append folder (numberedFile name n))) = false) :
    Does (numberAtEnd (Path.append folder (numberedFile name n))) s (.ok ((n % 1000 : Nat) : Int)) s := by
  obtain ⟨c, cs, hcons, hc⟩ := hstart
  let stem := name ++ "_" ++ Entry.text ⟨some n, false⟩
  let path := Path.append folder (numberedFile name n)
  have hstem : stem.toList = (name ++ "_").toList ++ digits 3 n := by rw [String.toList_append, toList_text]
  have hslash' : '/' ∉ stem.toList := by
    rw [hstem, String.toList_append, mem_append, mem_append, not_or, not_or]
    exact ⟨⟨hslash, by decide⟩, fun h => absurd (isDigit_digits h) (by decide)⟩
  have hlast : Path.lastName path = stem ++ ".dmp" := by
    refine Path.lastName_append ?_ folder
    rw [numberedFile, String.toList_append, mem_append, not_or]
    exact ⟨hslash', by decide⟩
  have hcons' : stem.toList = c :: (cs ++ "_".toList ++ digits 3 n) := by
    rw [hstem, String.toList_append, hcons]
    rfl
  have hread : Numeral.read 10 (lastThree stem) = .ok (n % 1000) := by
    rw [lastThree, ← String.length_toList, hstem]
    exact read_lastThree _ n
  have hrun : Does (numberAtEnd path) s (Numeral.read 10 (lastThree (if s.files.isFolder (Path.ofText path) then Path.lastName path
      else (Path.splitEnding (Path.lastName path)).1))) s := rfl
  rwa [hfile, if_neg Bool.false_ne_true, hlast, Path.splitEnding_dmp hslash' hcons' hc, hread] at hrun

/-- The names of blocks whose folders have numbers. -/
def folderNames : List String := ["LF", "SO", "LFLF", "SOUN"]

theorem does_partNumber (hname : name ∈ folderNames) (s : State) (folder : String) :
    Does (partNumber (nameParts (Path.append folder (name ++ "_" ++ Entry.text ⟨some n, false⟩)))) s (n : Int) s := by
  have hplain : '/' ∉ name.toList ∧ '_' ∉ name.toList := by
    revert name
    decide
  have hfile : (name ++ "_" ++ Entry.text ⟨some n, false⟩).toList = name.toList ++ '_' :: digits 3 n := by
    rw [String.toList_append, String.toList_append, toList_text, append_assoc]
    rfl
  have hslash : '/' ∉ (name ++ "_" ++ Entry.text ⟨some n, false⟩).toList := by
    rw [hfile, mem_append, mem_cons, not_or, not_or]
    exact ⟨hplain.1, by decide, fun h => absurd (isDigit_digits h) (by decide)⟩
  have hdigits : '_' ∉ digits 3 n := fun h => absurd (isDigit_digits h) (by decide)
  have hparts : nameParts (Path.append folder (name ++ "_" ++ Entry.text ⟨some n, false⟩)) = [name, String.ofList (digits 3 n)] := by
    rw [nameParts, Path.lastName_append hslash, Text.split, hfile, splitBy_cons_of_not_mem hplain.2, splitBy_of_not_mem hdigits, map_cons,
      map_singleton, String.ofList_toList]
  rw [hparts]
  exact does_ofExcept (read_digits_eq 3 n) s

theorem isObjectFolder_objectFolder (name : String) : isObjectFolder (objectFolder n name) = decide (n < 10000) := by
  have htext : (objectFolder n name).toList = "".toList ++ (digits 4 n ++ ("_".toList ++ (trimEnd (fileName name)).toList)) := by
    rw [objectFolder, pad_eq, String.toList_append, String.toList_append, String.toList_ofList, append_assoc]
    rfl
  exact startsNumbered_mark (by decide) ⟨_, _, rfl, by decide⟩ htext

theorem numberIn_objectXml {image code : Block} {name : String} (hcode : code.codeOf? = some ((n : Int), name)) :
    numberIn (objectXml f image code) "id" = .ok (n : Int) := by
  have htext : (toString (n : Int)).toList = digits 0 n := by
    rw [digits, Nat.zero_sub]
    exact Nat.toList_repr
  have hplain : Text.starts (toString (n : Int)) "0x" = false := by
    rw [Bool.eq_false_iff, Ne, starts, isPrefixOf_iff_prefix, htext]
    exact fun h => absurd (isDigit_digits (h.subset (by decide : 'x' ∈ "0x".toList))) (by decide)
  have hread : Spelling.number (toString (n : Int)) = .ok n := by
    rw [Spelling.number, hplain, if_neg Bool.false_ne_true, ← String.ofList_toList (s := toString (n : Int)), htext]
    exact read_digits_eq 0 n
  have hfind : (objectXml f image code).find? "id" = some (decimalChild "id" n) := by
    unfold objectXml
    rw [hcode]
    rfl
  rw [numberIn, Xml.Element.find, hfind]
  exact hread

end Job

/-- What the number `n` in a name comes back as. A resource is dispatched and loaded with the last three digits of its number, a sound without a name is passed over from a thousand on, the folder of an object from ten thousand on, and the number of a folder and the one in the record of an object come back as they are. -/
theorem numbers_of_names (f : Format) (n : Nat) : (∀ name ∈ resourceNames f, Form.ofFile f (numberedFile name n) = some .resource)
    ∧ (f.isOld → Form.ofFile f (numberedFile "00" n) = if n < 1000 then some .nameless else none)
    ∧ (∀ name ∈ "00" :: resourceNames f, ∀ {s t : State} {folder label data},
    s.files.isFolder (Path.ofText (Path.append folder (numberedFile name n))) = false →
    Does (Job.loadPlain (Path.append folder (numberedFile name n))) s (label, data) t →
    Does (Job.loadLeaf .resource (Path.append folder (numberedFile name n))) s (.leaf label (.resource ⟨some (n % 1000 : Nat), false⟩ data)) t
    ∧ Does (Job.loadLeaf .nameless (Path.append folder (numberedFile name n))) s (.leaf label (.nameless ⟨some (n % 1000 : Nat), false⟩ data)) t)
    ∧ (∀ name, Job.isObjectFolder (Job.objectFolder n name) = decide (n < 10000))
    ∧ (∀ image code name, Block.codeOf? code = some ((n : Int), name) → numberIn (Job.objectXml f image code) "id" = .ok (n : Int))
    ∧ ∀ name ∈ Job.folderNames, ∀ s folder,
    Does (Job.partNumber (Job.nameParts (Path.append folder (name ++ "_" ++ Entry.text ⟨some n, false⟩)))) s (n : Int) s := by
  refine ⟨fun name hname => ofFile_numberedFile hname n, fun hold => ?_, fun name hname s t folder label data hfile hload => ?_,
    Job.isObjectFolder_objectFolder n, fun _ _ _ hcode => Job.numberIn_objectXml n hcode, fun name hname => Job.does_partNumber n hname⟩
  · rw [Form.ofFile, if_pos hold, ofOldFile_numberedFile n f "00" (by decide), if_pos rfl]
  · obtain ⟨hslash, hstart⟩ := plain_of_mem hname
    have hnumber := Job.does_numberAtEnd n hslash hstart hfile
    exact ⟨hnumber.bind (hload.bind rfl), hnumber.bind (hload.bind rfl)⟩

end Pack

end ScummKit
