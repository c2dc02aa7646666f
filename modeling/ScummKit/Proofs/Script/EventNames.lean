import ScummKit.Proofs.Project.Replacing
import ScummKit.Script.Listing

/-!
# Names of events

The labels of events are replaced in the whole listing, one after the other. So the label of an event gets its name in
texts and in the columns of numbers as well: what becomes of a word does not depend on where it stands
(`nameEvents_everywhere`).
-/

namespace ScummKit.Script.Listing

open List hiding swap replace
open Text

variable {table : List (String × String)} {xs ys : List Char} {sep : Char}

/-- A line of the section of events: its title, or a key, a dash and a label. -/
def isEvent (line : String) : Bool := has line "Events:" || (split (strip line) ' ')[1]? = some "-"

/-- The label that a line of the section names, and its new name if the key is that of a verb. -/
def naming (verbs : List (String × String)) (line : String) : Except Fault (List (String × String)) :=
  if has line "Events:" then .ok []
  else match verbs.lookup ((split (strip line) ' ').headD ""), (split (strip line) ' ')[2]? with
    | none, _ => .ok []
    | some verb, some label => .ok [(label, verb)]
    | some _, none => .error .outOfRange

variable {names : List (String × String)} {line script : String} {rest : List String}

theorem nameFunctions_event (h : isEvent line = true) : nameFunctions names (line :: rest) script = (do
      nameFunctions names rest (swapAll script (← naming names line))) := by
  rw [isEvent, Bool.or_eq_true] at h
  rw [nameFunctions, naming]
  by_cases htitle : has line "Events:" = true
  · rw [if_pos htitle, if_pos htitle]
    rfl
  · have hdash := of_decide_eq_true (h.resolve_left htitle)
    rw [if_neg htitle, if_neg htitle]
    generalize split (strip line) ' ' = words at hdash ⊢
    obtain ⟨number, more, rfl⟩ : ∃ number more, words = number :: "-" :: more := by
      rcases words with _ | ⟨number, _ | ⟨dash, more⟩⟩ <;> simp_all
    cases hverb : names.lookup number with
    | none =>
      simp only [headD_cons, hverb]
      rfl
    | some verb =>
      cases more with
      | nil | cons =>
        simp only [headD_cons, hverb]
        rfl

theorem nameFunctions_other (h : ¬ isEvent line = true) : nameFunctions names (line :: rest) script = .ok script := by
  rw [isEvent, Bool.or_eq_true, not_or] at h
  rw [nameFunctions, if_neg h.1]
  split
  · rename_i hsplit
    rw [hsplit] at h
    exact absurd (decide_eq_true rfl) h.2
  · rfl

theorem nameFunctions_eq (names : List (String × String)) (lines : List String) (script : String) :
    nameFunctions names lines script = (do return swapAll script (← (lines.takeWhile isEvent).mapM (naming names)).flatten) := by
  induction lines generalizing script with
  | nil => rfl
  | cons line lines ih =>
    by_cases hevent : isEvent line = true
    · rw [nameFunctions_event hevent, takeWhile_cons_of_pos hevent, mapM_cons]
      cases naming names line with
      | error fault => rfl
      | ok new =>
        refine (ih (swapAll script new)).trans ?_
        cases (lines.takeWhile isEvent).mapM (naming names) with
        | error fault => rfl
        | ok found => exact congrArg Except.ok foldl_append.symm
    · rw [nameFunctions_other hevent, takeWhile_cons_of_neg hevent]
      rfl

/-- A text in which the words of a table have been replaced. -/
def renamed (table : List (String × String)) (text : List Char) : List Char := (swapAll (String.ofList text) table).toList

theorem renamed_cons {e : String × String} (h : e.1.toList ≠ []) (text : List Char) :
    renamed (e :: table) text = renamed table (replaceAfter e.1.toList e.2.toList 0 text) := by
  rw [renamed, swapAll, foldl_cons, swap, String.toList_ofList, replace, if_neg (by simpa using h)]
  rfl

theorem renamed_apart (h : ∀ e ∈ table, e.1.toList ≠ [] ∧ sep ∉ e.1.toList) :
    renamed table (xs ++ sep :: ys) = renamed table xs ++ sep :: renamed table ys := by
  induction table generalizing xs ys with
  | nil => simp [renamed, swapAll]
  | cons e table ih =>
    obtain ⟨⟨hne, hsep⟩, h⟩ := forall_mem_cons.1 h
    rw [renamed_cons hne, renamed_cons hne, renamed_cons hne, replaceAfter_append_sep hne hsep, ih h]

theorem renamed_eq_self (h : ∀ e ∈ table, e.1.toList ≠ [] ∧ occurs e.1.toList xs = false) : renamed table xs = xs := by
  induction table with
  | nil => exact String.toList_ofList
  | cons e table ih =>
    obtain ⟨⟨hne, hnone⟩, h⟩ := forall_mem_cons.1 h
    rw [renamed_cons hne, replaceAfter_of_not_occurs hne hnone, ih h]

/-- The labels that the section of events names are replaced in the whole text: what stands between two other characters
becomes the same wherever it stands, and only what holds no label stays as it is. -/
theorem nameEvents_everywhere (version script : String) {found : List (List (String × String))}
    (h : ((lines script).takeWhile isEvent).mapM (naming (verbs version)) = .ok found) :
    nameEvents version script = .ok (String.ofList (renamed found.flatten script.toList)) ∧
    (∀ xs sep ys, (∀ e ∈ found.flatten, e.1.toList ≠ [] ∧ sep ∉ e.1.toList) →
      renamed found.flatten (xs ++ sep :: ys) = renamed found.flatten xs ++ sep :: renamed found.flatten ys) ∧
    ∀ xs, (∀ e ∈ found.flatten, e.1.toList ≠ [] ∧ occurs e.1.toList xs = false) → renamed found.flatten xs = xs := by
  refine ⟨?_, fun xs sep ys => renamed_apart, fun xs => renamed_eq_self⟩
  rw [nameEvents, nameFunctions_eq, h, renamed, String.ofList_toList, String.ofList_toList]
  rfl

/-- A label is replaced within a text that is printed. -/
theorem nameEvents_everywhere_printed : nameEvents "5" "Events:\n  FF - 0010\n[0010] print(\"0010\")\n"
    = .ok "Events:\n  FF - default\n[default] print(\"default\")\n" := by
  have hfound : ((lines "Events:\n  FF - 0010\n[0010] print(\"0010\")\n").takeWhile isEvent).mapM (naming (verbs "5"))
      = .ok [[], [("0010", "default")]] := by decide +kernel
  refine (nameEvents_everywhere "5" _ hfound).1.trans (congrArg Except.ok ?_)
  decide +kernel

end ScummKit.Script.Listing
