import Mathlib.Data.List.Basic
import ScummKit.Asset.ImagePath
import ScummKit.Asset.Kind
import ScummKit.Asset.ScriptFile
import ScummKit.Proofs.Project.Trees

/-!
# Names that encoders make

An encoder finds the file it writes by replacing the ending of the file it reads, and the parts that
its decoder put in front. What counts is the end of the new name: it shows that the new file is none of
those that are edited, so that writing it makes no other file look changed.
-/

namespace ScummKit

open List

variable {n : String}
variable {tail : String} (root : String) (front : List String) (p : Path) {separator c : Char}

namespace Text

/-! ### Replacing at the end of a text -/

/-- Whether a pattern cannot start before some text and end in it. -/
def apart (pattern tail : List Char) : Bool :=
  (List.range pattern.length).all fun k => k == 0 || !(pattern.drop k).isPrefixOf tail

theorem isPrefixOf_append_apart {pattern tail : List Char} (h : apart pattern tail = true) (x : Char)
    (xs : List Char) : pattern.isPrefixOf (x :: xs ++ tail) = pattern.isPrefixOf (x :: xs) := by
  rw [Bool.eq_iff_iff, isPrefixOf_iff_prefix, isPrefixOf_iff_prefix]
  constructor
  · intro hp
    by_contra hnot
    -- the pattern would reach into the tail
    have hlong : (x :: xs).length < pattern.length := by
      by_contra hshort
      exact hnot (prefix_of_prefix_length_le hp (prefix_append _ _) (by omega))
    obtain ⟨rest, hrest⟩ := hp
    have hdrop : pattern.drop (x :: xs).length ++ rest = tail := by
      rw [← drop_append_of_le_length (by omega), hrest, drop_left]
    have hk := all_eq_true.mp h _ (mem_range.mpr hlong)
    rw [ isPrefixOf_iff_prefix.mpr ⟨rest, hdrop⟩] at hk
    cases hk
  · intro hp
    exact hp.trans (prefix_append _ _)

theorem replaceAfter_append {pattern new tail : List Char} (h : apart pattern tail = true)
    (xs : List Char) (skip : Nat) (hskip : skip ≤ xs.length) :
    replaceAfter pattern new skip (xs ++ tail) = replaceAfter pattern new skip xs ++ replaceAfter pattern new 0 tail := by
  induction xs generalizing skip with
  | nil =>
    obtain rfl : skip = 0 := by simpa using hskip
    rfl
  | cons x xs ih =>
    cases skip with
    | succ skip =>
      exact ih skip (by simpa using hskip)
    | zero =>
      have hprefix := isPrefixOf_append_apart h x xs
      rw [cons_append] at hprefix ⊢
      rw [replaceAfter, replaceAfter, hprefix]
      split
      · rename_i hp
        have hlength := ( isPrefixOf_iff_prefix.mp hp).length_le
        rw [length_cons] at hlength
        rw [ih _ (by omega), append_assoc]
      · rw [ih 0 (Nat.zero_le _), cons_append]

theorem ends_iff {s tail : String} : ends s tail = true ↔ ∃ front, s.toList = front ++ tail.toList := by
  rw [ends, isSuffixOf_iff_suffix]
  constructor
  · rintro ⟨front, h⟩
    exact ⟨front, h.symm⟩
  · rintro ⟨front, h⟩
    exact ⟨front, h.symm⟩

theorem ends_of_suffix {s tail tail' : String} (h : ends s tail = true) (htail : tail'.toList <:+ tail.toList) :
    ends s tail' = true := by
  rw [ends, isSuffixOf_iff_suffix] at h ⊢
  exact htail.trans h

theorem ends_swap {s pattern new tail tail' : String} (h : ends s tail = true)
    (hswaps : pattern.toList ≠ [] ∧ apart pattern.toList tail.toList = true ∧
    replaceAfter pattern.toList new.toList 0 tail.toList = tail'.toList) : ends (swap s pattern new) tail' = true := by
  obtain ⟨hpattern, hapart, htail⟩ := hswaps
  obtain ⟨front, hfront⟩ := ends_iff.mp h
  rw [ends_iff]
  refine ⟨replaceAfter pattern.toList new.toList 0 front, ?_⟩
  rw [swap, String.toList_ofList, replace, if_neg (by simpa using hpattern), hfront,
    replaceAfter_append hapart front 0 (Nat.zero_le _), htail]

theorem mem_replaceAfter {pattern new xs : List Char} {skip : Nat}
    (h : c ∈ replaceAfter pattern new skip xs) : c ∈ new ∨ c ∈ xs := by
  induction xs generalizing skip with
  | nil => exact Or.inr h
  | cons x xs ih =>
    cases skip with
    | succ skip =>
      exact (ih h).imp_right (mem_cons_of_mem x)
    | zero =>
      rw [replaceAfter] at h
      split at h
      · rcases mem_append.mp h with h | h
        · exact Or.inl h
        · exact (ih h).imp_right (mem_cons_of_mem x)
      · rcases mem_cons.mp h with h | h
        · rw [h]
          exact Or.inr mem_cons_self
        · exact (ih h).imp_right (mem_cons_of_mem x)

theorem mem_swap {s pattern new : String} (hpattern : pattern.toList ≠ [])
    (h : c ∈ (swap s pattern new).toList) : c ∈ new.toList ∨ c ∈ s.toList := by
  rw [swap, String.toList_ofList, replace, if_neg (by simpa using hpattern)] at h
  exact mem_replaceAfter h

/-! ### Pieces -/

theorem splitBy_of_not_mem {xs : List Char} (h : separator ∉ xs) : splitBy separator xs = [xs] := by
  induction xs with
  | nil => rfl
  | cons x xs ih =>
    rw [mem_cons, not_or] at h
    rw [splitBy, if_neg (by simpa using Ne.symm h.1), ih h.2]

theorem splitBy_append {tail : List Char} (h : separator ∉ tail)
    (xs : List Char) : ∃ pieces last, splitBy separator (xs ++ tail) = pieces ++ [last ++ tail] ∧ ∀ c ∈ last, c ∈ xs := by
  induction xs with
  | nil => exact ⟨[], [], splitBy_of_not_mem h, fun c hc => hc⟩
  | cons x xs ih =>
    obtain ⟨pieces, last, hsplit, hlast⟩ := ih
    rw [cons_append, splitBy, hsplit]
    split
    · exact ⟨[] :: pieces, last, rfl, fun c hc => mem_cons_of_mem x (hlast c hc)⟩
    · cases pieces with
      | nil =>
        refine ⟨[], x :: last, rfl, ?_⟩
        intro c hc
        rcases mem_cons.mp hc with rfl | hc
        · exact mem_cons_self
        · exact mem_cons_of_mem x (hlast c hc)
      | cons piece pieces =>
        exact ⟨(x :: piece) :: pieces, last, rfl, fun c hc => mem_cons_of_mem x (hlast c hc)⟩

end Text

/-! ### Names in paths -/

theorem Path.names_of_valid (h : ValidName n) : Path.names n = [n] := by
  rw [Path.names, Text.split, Text.splitBy_of_not_mem h.2.2.2]
  simp [h.1, h.2.1]

theorem Path.slashes_of_not_mem (h : '/' ∉ n.toList) : Path.slashes n.toList = 0 := by
  cases hn : n.toList with
  | nil => rfl
  | cons c cs =>
    rw [hn, mem_cons, not_or] at h
    simp [Path.slashes, Ne.symm h.1]

theorem Path.ofText_of_valid (h : ValidName n) : Path.ofText n = ⟨"", [n]⟩ := by
  rw [Path.ofText, Path.slashes_of_not_mem h.2.2.2, Path.names_of_valid h]
  rfl

theorem Path.join_of_valid (h : ValidName n) : p.join n = ⟨p.root, p.parts ++ [n]⟩ := by
  rw [Path.join, Path.ofText_of_valid h]
  rfl

theorem Path.name_concat (n : String) : (⟨root, front ++ [n]⟩ : Path).name = n := by
  simp [Path.name]

theorem Path.rename_of_valid (n : String) {f : String → String} (h : ValidName (f n)) :
    Path.rename ⟨root, front ++ [n]⟩ f = ⟨root, front ++ [f n]⟩ := by
  rw [Path.rename, Path.sibling, Path.name_concat, Path.join_of_valid _ h, Path.parent]
  simp

theorem Path.name_join (h : ValidName n) : (p.join n).name = n := by
  rw [Path.join_of_valid p h, Path.name_concat]

/-- A name of a file with an ending. -/
structure FileName (tail name : String) : Prop where
  slash : '/' ∉ name.toList
  ends : Text.ends name tail = true

/-- Replacing a pattern puts one ending in place of another. -/
def Swaps (pattern new tail tail' : String) : Prop :=
  pattern.toList ≠ [] ∧ '/' ∉ new.toList ∧ Text.apart pattern.toList tail.toList = true
    ∧ Text.replaceAfter pattern.toList new.toList 0 tail.toList = tail'.toList

instance (pattern new tail tail' : String) : Decidable (Swaps pattern new tail tail') := inferInstanceAs (Decidable (_ ∧ _))

section FileName

variable {tail tail' pattern new : String}

theorem FileName.swap (h : FileName tail n) (hswaps : Swaps pattern new tail tail') : FileName tail' (Text.swap n pattern new) :=
  ⟨fun hslash => (Text.mem_swap hswaps.1 hslash).elim hswaps.2.1 h.slash, Text.ends_swap h.ends ⟨hswaps.1, hswaps.2.2⟩⟩

theorem FileName.valid (h : FileName tail n) (htail : 3 ≤ tail.toList.length) : ValidName n := by
  obtain ⟨front, hfront⟩ := Text.ends_iff.mp h.ends
  have hlength : 3 ≤ n.toList.length := by
    rw [hfront, length_append]
    omega
  refine ⟨?_, ?_, ?_, h.slash⟩
  all_goals
    rintro rfl
    exact absurd hlength (by decide)

theorem FileName.of_suffix (h : FileName tail n) (htail : tail'.toList <:+ tail.toList) : FileName tail' n :=
  ⟨h.slash, Text.ends_of_suffix h.ends htail⟩

end FileName

namespace Asset

variable {name : String}

/-! ### Watched files -/

/-- A file whose time is looked at: a header, or a file that is edited. -/
def Watched (name : String) : Prop := Status.ofName name = .header ∨ Status.ofName name = .decoded

instance (name : String) : Decidable (Watched name) := inferInstanceAs (Decidable (_ ∨ _))

def watchedEnds : List Char := ['l', 't', 'n', 'g']

theorem getLast?_of_ends (h : Text.ends name tail = true)
    (htail : tail.toList ≠ []) : name.toList.getLast? = tail.toList.getLast? := by
  obtain ⟨front, hfront⟩ := Text.ends_iff.mp h
  rw [hfront, getLast?_append_of_ne_nil _ htail]

theorem ends_of_status (name : String) : (Status.ofName name = .binary → Text.ends name ".dmp" = true)
    ∧ (Status.ofName name = .header → Text.ends name ".xml" = true) ∧ (Status.ofName name = .decoded →
    Text.ends name ".txt" = true ∨ Text.ends name ".json" = true ∨ Text.ends name ".png" = true) := by
  rw [Status.ofName]
  split_ifs <;> simp_all

theorem status_of_ends (h : Text.ends name tail = true) (htail : tail = ".txt" ∨ tail = ".png") : Status.ofName name = .decoded := by
  have hother : ∀ other ∈ ["timestamps.json", ".dmp", ".xml"], Text.ends name other = false := by
    intro other hmem
    rw [Bool.eq_false_iff]
    intro hends
    have hne : tail.toList ≠ [] ∧ ∀ other ∈ ["timestamps.json", ".dmp", ".xml"], other.toList ≠ []
        ∧ other.toList.getLast? ≠ tail.toList.getLast? := by rcases htail with rfl | rfl <;> decide
    obtain ⟨hother, hlast⟩ := hne.2 other hmem
    exact hlast ((getLast?_of_ends hends hother).symm.trans (getLast?_of_ends h hne.1))
  have hledger : name ≠ "timestamps.json" := by
    rintro rfl
    exact absurd (hother _ mem_cons_self) (by decide)
  rw [Status.ofName, if_neg hledger, hother ".dmp" (by decide), hother ".xml" (by decide)]
  rcases htail with rfl | rfl <;> simp [h]

theorem Watched.getLast (h : Watched name) : ∃ c ∈ watchedEnds, name.toList.getLast? = some c := by
  rcases h.imp (ends_of_status name).2.1 (ends_of_status name).2.2 with h | h | h | h
  · exact ⟨'l', by decide, getLast?_of_ends h (by decide)⟩
  · exact ⟨'t', by decide, getLast?_of_ends h (by decide)⟩
  · exact ⟨'n', by decide, getLast?_of_ends h (by decide)⟩
  · exact ⟨'g', by decide, getLast?_of_ends h (by decide)⟩

theorem not_watched_of_ends (h : Text.ends name tail = true) (c : Char)
    (htail : tail.toList.getLast? = some c) (hc : c ∉ watchedEnds) : ¬ Watched name := by
  intro hw
  obtain ⟨c', hc', hlast⟩ := hw.getLast
  have hne : tail.toList ≠ [] := by
    intro hnil
    rw [hnil] at htail
    cases htail
  rw [getLast?_of_ends h hne, htail] at hlast
  cases hlast
  exact hc hc'

/-- A name under which an encoder may store its result. -/
def Output (name : String) : Prop := ValidName name ∧ ¬ Watched name

theorem output_of_ends (h : FileName tail name) (c : Char) (htail : 3 ≤ tail.toList.length)
    (hlast : tail.toList.getLast? = some c) (hc : c ∉ watchedEnds) : Output name :=
  ⟨h.valid htail, not_watched_of_ends h.ends c hlast hc⟩

theorem output_dmp (h : FileName ".dmp" name) : Output name := output_of_ends h 'p' (by decide) (by decide) (by decide)

/-! ### Results of the encoders -/

theorem output_codeName (r : Script.Role) (h : FileName ".txt" name) : Output (ScriptFile.codeName r name) := by
  have hcode : FileName ".dmp" (Text.swap name ".txt" ".dmp") := h.swap (by decide)
  rw [ScriptFile.codeName]
  split
  · exact output_dmp (hcode.swap (by decide))
  · exact output_dmp hcode

/-- The file in which a script is compiled. A script of no known role keeps no ending, and then its
name must not be that of another file. -/
theorem output_middle {version : String} {r : Script.Role} (h : FileName ".txt" name) (hversion : version = "4" ∨ version = "5")
    (hunknown : r = .unknown → Output (Text.swap name ".txt" "")) : Output (Text.swap name ".txt" (r.ending version)) := by
  have hknown : ∀ ending : String, Swaps ".txt" ending ".txt" ending → 3 ≤ ending.toList.length →
      (∃ c, ending.toList.getLast? = some c ∧ c ∉ watchedEnds) → Output (Text.swap name ".txt" ending) := by
    rintro ending hswaps hlength ⟨c, hlast, hc⟩
    exact output_of_ends (h.swap hswaps) c hlength hlast hc
  rcases hversion with rfl | rfl <;> cases r
  case inl.unknown => exact hunknown rfl
  case inr.unknown => exact hunknown rfl
  all_goals exact hknown _ (by decide) (by decide) ⟨_, rfl, by decide⟩

theorem output_costume {stem : String} (hslash : '/' ∉ stem.toList) (hstem : stem ≠ "") :
    Output (Text.swap (String.ofList ((stem ++ "_animdata.json").toList.drop 1)) "_animdata.json" ".dmp") := by
  obtain ⟨c, cs, hcs⟩ := exists_cons_of_ne_nil fun h => hstem (String.toList_eq_nil_iff.mp h)
  rw [hcs, mem_cons, not_or] at hslash
  have hname : (stem ++ "_animdata.json").toList.drop 1 = cs ++ "_animdata.json".toList := by
    rw [String.toList_append, hcs]
    rfl
  have hfile : FileName "_animdata.json" (String.ofList (cs ++ "_animdata.json".toList)) := by
    refine ⟨?_, Text.ends_iff.mpr ⟨cs, String.toList_ofList⟩⟩
    rw [String.toList_ofList, mem_append, not_or]
    exact ⟨hslash.2, by decide⟩
  rw [hname]
  exact output_dmp (hfile.swap (by decide))

theorem output_unflatten (h : FileName ".dmp" name) : Output (unflatten ⟨root, front ++ [name]⟩).name := by
  obtain ⟨hslash, hends⟩ := h
  obtain ⟨cs, hcs⟩ := Text.ends_iff.mp hends
  have hpieces : ∃ pieces last, (Text.split (String.ofList (name.toList.drop 1)) '+') = pieces ++ [last] ∧ Output last := by
    cases cs with
    | nil =>
      rw [hcs]
      exact ⟨[], "dmp", rfl, by decide, by decide⟩
    | cons c cs =>
      rw [hcs, cons_append, mem_cons, not_or] at hslash
      obtain ⟨pieces, last, hsplit, hlast⟩ :=
        Text.splitBy_append (show '+' ∉ ".dmp".toList by decide) cs
      refine ⟨pieces.map String.ofList, String.ofList (last ++ ".dmp".toList), ?_, ?_⟩
      · rw [hcs, Text.split, String.toList_ofList, cons_append, drop_one, tail_cons, hsplit, map_append, map_singleton]
      · refine output_dmp ⟨?_, Text.ends_iff.mpr ⟨last, String.toList_ofList⟩⟩
        rw [String.toList_ofList, mem_append, not_or]
        exact ⟨fun hl => hslash.2 (mem_append_left _ (hlast _ hl)), by decide⟩
  obtain ⟨pieces, last, hsplit, hlast⟩ := hpieces
  rw [unflatten, Path.name_concat, hsplit, foldl_append]
  rw [show (foldl Path.join _ [last]).name = last from Path.name_join _ hlast.1]
  exact hlast

end Asset

end ScummKit
