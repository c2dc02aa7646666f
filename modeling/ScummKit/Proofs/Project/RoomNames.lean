import ScummKit.Proofs.Pack.Numerals
import ScummKit.Proofs.Project.Steps

/-!
# Names of room folders

The numbers and the names of rooms are taken from the document by two searches, and paired by position. The search for names misses an empty one, which is written as a tag that closes itself: then there are more numbers than names, and no folder is renamed. Otherwise each folder gets the name that stands under its own number (`add_names`).
-/

namespace ScummKit.RoomName

open List Pack Xml

variable {name : String} {names : List (Int × String)} {c : Char}

/-! ### Searching -/

/-- The texts between two marks, whatever bound on their number is large enough. -/
def Finds (start stop xs : List Char) (found : List (List Char)) : Prop :=
  ∀ fuel, xs.length ≤ fuel → between start stop fuel xs = found

/-- No mark starts in a text, whatever follows it. -/
def passes (mark : List Char) : List Char → Bool
  | [] => true
  | c :: rest => !mark.isPrefixOf (c :: rest) && !(c :: rest).isPrefixOf mark && passes mark rest

section Searching

variable {start stop xs rest body : List Char} {found : List (List Char)}

theorem finds_nil : Finds start stop [] [] := by rintro (_ | fuel) - <;> rfl

theorem passes_of_not_mem (hstart : start.head? = some c) (h : c ∉ xs) : passes start xs = true := by
  obtain ⟨cs, rfl⟩ := head?_eq_some_iff.mp hstart
  induction xs with
  | nil => rfl
  | cons x xs ih =>
    rw [mem_cons, not_or] at h
    rw [passes, ih h.2]
    simp [isPrefixOf, beq_eq_false_iff_ne.mpr h.1, beq_eq_false_iff_ne.mpr (Ne.symm h.1)]

theorem Finds.past (h : passes start xs = true) (hrest : Finds start stop rest found) : Finds start stop (xs ++ rest) found := by
  induction xs with
  | nil => exact hrest
  | cons x xs ih =>
    simp only [passes, Bool.and_eq_true, Bool.not_eq_true'] at h
    have hmiss : ¬ start <+: x :: (xs ++ rest) := fun hprefix => by
      rcases prefix_or_prefix_of_prefix hprefix (prefix_append (x :: xs) rest) with hstart | hstart
      · exact Bool.false_ne_true (h.1.1.symm.trans ( isPrefixOf_iff_prefix.mpr hstart))
      · exact Bool.false_ne_true (h.1.2.symm.trans ( isPrefixOf_iff_prefix.mpr hstart))
    rintro (_ | fuel) hfuel
    · simp at hfuel
    · rw [cons_append, between, if_neg (by rwa [ isPrefixOf_iff_prefix])]
      exact ih h.2 fuel (by simpa using hfuel)

theorem finds_none (h : passes start xs = true) : Finds start stop xs [] := append_nil xs ▸ finds_nil.past h

theorem Finds.line (hstart : start.head? = some '<') (hrest : Finds start stop rest found) : Finds start stop ('\n' :: rest) found :=
  hrest.past (passes_of_not_mem hstart (by decide : '<' ∉ ['\n']))

theorem lastAt?_eq_none {pattern : List Char} (h : xs.length < pattern.length) : lastAt? pattern xs = none := by
  induction xs with
  | nil =>
    cases pattern with
    | nil => simp at h
    | cons c cs => rfl
  | cons x xs ih =>
    rw [lastAt?, ih (by simp at h; omega)]
    refine if_neg fun hprefix => ?_
    have hlength := ( isPrefixOf_iff_prefix.mp hprefix).length_le
    omega

theorem lastAt?_append (hstop : stop ≠ []) : lastAt? stop (body ++ stop) = some body.length := by
  induction body with
  | nil =>
    obtain ⟨c, cs, rfl⟩ := exists_cons_of_ne_nil hstop
    rw [nil_append, lastAt?, lastAt?_eq_none (by simp)]
    exact if_pos ( isPrefixOf_iff_prefix.mpr (prefix_refl _))
  | cons x body ih => rw [cons_append, lastAt?, ih, length_cons]

theorem Finds.hit (hstart : start.head? = some '<') (hstop : stop ≠ []) (hbody : '\n' ∉ body ++ stop)
    (hrest : Finds start stop rest found) : Finds start stop (start ++ (body ++ (stop ++ '\n' :: rest))) (body :: found) := by
  have hnext := hrest.line hstart
  obtain ⟨cs, rfl⟩ := head?_eq_some_iff.mp hstart
  have hline : (body ++ (stop ++ '\n' :: rest)).takeWhile (· ≠ '\n') = body ++ stop := by
    rw [← append_assoc, takeWhile_append_of_pos fun d hd => decide_eq_true (ne_of_mem_of_not_mem hd hbody)]
    simp
  have hprefix : ('<' :: cs).isPrefixOf ('<' :: (cs ++ (body ++ (stop ++ '\n' :: rest)))) = true :=
    isPrefixOf_iff_prefix.mpr (prefix_append ('<' :: cs) _)
  rintro (_ | fuel) hfuel
  · simp at hfuel
  · rw [cons_append, between, if_pos hprefix, ← cons_append, drop_left]
    dsimp only
    rw [hline, lastAt?_append hstop]
    dsimp only
    rw [take_left, ← append_assoc, drop_append_of_le_length (by simp), ← length_append, drop_length]
    refine congrArg _ (hnext fuel ?_)
    simp at hfuel ⊢
    omega

end Searching

/-! ### The document -/

/-- A name as it stands in the document. -/
def recorded (name : String) : String := escaped textChar (Spelling.escape name)

def room (e : Int × String) : Element := .node "room" [decimalChild "id" e.1, .leaf "name" (Spelling.escape e.2)]

def document (names : List (Int × String)) : String := ((Element.node "room_names" (names.map room)).indent 0).render

/-- The characters of a recorded name. -/
def Kept (c : Char) : Prop := Spelling.inXml c = true ∨ c = '\\'

theorem inXml_toDigits {n : Nat} (h : c ∈ Nat.toDigits 16 n) : Spelling.inXml c = true := by
  induction n using Nat.strongRecOn with
  | _ n ih =>
    have hdigit : ∀ k < 16, Spelling.inXml (Nat.digitChar k) = true := by decide
    rw [Nat.toDigits_eq_if (by decide)] at h
    split at h
    · rw [mem_singleton.mp h]
      exact hdigit n ‹_›
    · rcases mem_append.mp h with h | h
      · exact ih (n / 16) (by omega) h
      · rw [mem_singleton.mp h]
        exact hdigit _ (Nat.mod_lt _ (by decide))

theorem kept_escapeChar {c d : Char} (h : d ∈ Spelling.escapeChar c) : Kept d := by
  rw [Spelling.escapeChar] at h
  split at h
  · exact .inl (mem_singleton.mp h ▸ ‹_›)
  · simp only [mem_cons, mem_append] at h
    rcases h with rfl | rfl | h | h
    · exact .inr rfl
    · exact .inl (by decide)
    · exact .inl (eq_of_mem_replicate h ▸ by decide)
    · exact .inl (inXml_toDigits ((dropWhile_sublist _).mem h))

theorem Kept.ascii (h : Kept c) : c.toNat < 0x80 := by
  rcases h with h | rfl
  · rw [Spelling.inXml, Bool.or_eq_true, contains_iff_mem] at h
    rcases h with h | h
    · delta Char.isAlphanum Char.isAlpha Char.isUpper Char.isLower Char.isDigit at h
      simp only [Bool.or_eq_true, Bool.and_eq_true, decide_eq_true_eq, UInt32.le_iff_toNat_le] at h
      have hupper : 'Z'.val.toNat = 90 := rfl
      have hlower : 'z'.val.toNat = 122 := rfl
      have hdigit : '9'.val.toNat = 57 := rfl
      change c.val.toNat < 128
      omega
    · have hpunctuation : "!?@#$%&*+\"';:,-_.() ".toList.all (·.toNat < 0x80) = true := by decide
      exact of_decide_eq_true (all_eq_true.mp hpunctuation c h)
  · decide

theorem kept_textChar {c d : Char} (hc : Kept c) (h : d ∈ (textChar c).toList) : Kept d := by
  rw [textChar] at h
  have hin {text : String} (htext : text.toList.all Spelling.inXml = true) (hd : d ∈ text.toList) : Kept d :=
    .inl (all_eq_true.mp htext d hd)
  split_ifs at h
  · exact hin (by decide) h
  · exact hin (by decide) h
  · exact hin (by decide) h
  · rw [Xml.ascii, if_pos hc.ascii, String.toList_singleton, mem_singleton] at h
    exact h ▸ hc

theorem kept_recorded (h : c ∈ (recorded name).toList) : Kept c := by
  rw [recorded, escaped, String.toList_join, flatMap_map, mem_flatMap, Spelling.escape, String.toList_ofList] at h
  obtain ⟨d, hd, hc⟩ := h
  obtain ⟨b, -, hd⟩ := mem_flatMap.mp hd
  exact kept_textChar (kept_escapeChar hd) hc

theorem not_mem_recorded (hc : Spelling.inXml c = false) (hne : c ≠ '\\') (name : String) : c ∉ (recorded name).toList :=
  fun h => (kept_recorded h).elim (fun h => Bool.false_ne_true (hc.symm.trans h)) hne

def nameText (name : String) : String := if name = "" then "<name />" else "<name>" ++ (recorded name ++ "</name>")

def roomText (e : Int × String) : String :=
  "\n  <room>\n    " ++ ("<id>" ++ (toString e.1 ++ ("</id>" ++ ("\n" ++ ("    " ++ (nameText e.2 ++ ("\n" ++ "  </room>")))))))

theorem recorded_eq_empty : recorded name = "" ↔ name = "" := by
  refine ⟨fun h => ?_, fun h => by rw [h]; rfl⟩
  have hescape (c : Char) : Spelling.escapeChar c ≠ [] := by
    rw [Spelling.escapeChar]
    split <;> exact cons_ne_nil _ _
  have htext (c : Char) : (textChar c).toList ≠ [] := by
    rw [textChar, Xml.ascii]
    split_ifs <;> simp
  have hlist : ((name.toList.flatMap Spelling.escapeChar).flatMap fun c => (textChar c).toList) = [] := by
    rw [← flatMap_map]
    simpa [recorded, escaped, Spelling.escape] using congrArg String.toList h
  simp only [flatMap_eq_nil_iff, htext, imp_false, mem_flatMap, not_exists, not_and] at hlist
  rw [← String.toList_eq_nil_iff, eq_nil_iff_forall_not_mem]
  intro c hc
  obtain ⟨d, ds, hd⟩ := exists_cons_of_ne_nil (hescape c)
  exact hlist d c hc (hd ▸ mem_cons_self)

theorem escaped_decimal (n : Nat) : escaped textChar (toString (n : Int)) = toString (n : Int) := by
  rw [← String.toList_inj, escaped, String.toList_join, flatMap_map]
  refine (congrArg flatten (map_congr_left fun c hc => ?_)).trans (flatMap_singleton' (toString n).toList)
  have hdigit := Numeral.bounds_of_isDigit (Nat.isDigit_of_mem_toDigits (by decide) (by decide) (Nat.toList_repr ▸ hc))
  rw [textChar, if_neg, if_neg, if_neg, Xml.ascii, if_pos (by omega), String.toList_singleton]
  all_goals
    rintro rfl
    revert hdigit
    decide

theorem render_text (tag text tail : String) : (⟨tag, [], some text, [], some tail⟩ : Element).render
    = (if escaped textChar text = "" then "<" ++ tag ++ " />" else "<" ++ tag ++ ">" ++ escaped textChar text ++ "</" ++ tag ++ ">")
    ++ escaped textChar tail := by
  rw [Element.render]
  split <;> simp_all [optionalText, attributeText, Element.renderAll]

def laidRoom (e : Int × String) (tail : String) : Element :=
  ⟨"room", [], some "\n    ", [⟨"id", [], some (Spelling.decimal e.1), [], some "\n    "⟩,
    ⟨"name", [], some (Spelling.escape e.2), [], some "\n  "⟩], some tail⟩

theorem render_laidRoom {e : Int × String} (h : 0 ≤ e.1) (tail : String) :
    "\n  " ++ (laidRoom e tail).render = roomText e ++ escaped textChar tail := by
  obtain ⟨n, hn⟩ := Int.eq_ofNat_of_zero_le h
  have hnumber : ¬ toString (n : Int) = "" := fun h => Nat.toDigits_ne_nil (Nat.toList_repr.symm.trans (congrArg String.toList h))
  have hname : (⟨"name", [], some (Spelling.escape e.2), [], some "\n  "⟩ : Element).render = nameText e.2 ++ ("\n" ++ "  ") := by
    rw [render_text, ← recorded]
    simp only [recorded_eq_empty, String.append_assoc]
    rfl
  have hid : (⟨"id", [], some (Spelling.decimal e.1), [], some "\n    "⟩ : Element).render
      = "<id>" ++ (toString e.1 ++ ("</id>" ++ ("\n" ++ "    "))) := by
    rw [render_text, hn, Spelling.decimal, escaped_decimal, if_neg hnumber]
    simp only [String.append_assoc]
    rfl
  rw [laidRoom, Element.render, roomText]
  simp only [Element.renderAll, hid, hname]
  rw [if_neg (by simp)]
  simp only [String.append_assoc]
  rfl

theorem toList_rooms (h : ∀ e ∈ names, 0 ≤ e.1) (hne : names ≠ []) :
    ("\n  " ++ Element.renderAll (Element.closeLast "\n" (Element.indentAll 1 (names.map room)))).toList
    = (names.flatMap fun e => (roomText e).toList) ++ ['\n'] := by
  have hindent (e : Int × String) : (room e).indent 1 = laidRoom e "\n  " := rfl
  have hlast (e : Int × String) : Element.closeLast "\n" [laidRoom e "\n  "] = [laidRoom e "\n"] := rfl
  have hbreak : escaped textChar "\n  " = "\n  " := by decide
  induction names with
  | nil => exact absurd rfl hne
  | cons e names ih =>
    rw [forall_mem_cons] at h
    rw [map_cons, Element.indentAll, hindent, flatMap_cons]
    cases names with
    | nil =>
      rw [map_nil, Element.indentAll, hlast, Element.renderAll, Element.renderAll, String.append_empty, render_laidRoom h.1]
      simp [escaped]
      rfl
    | cons d names =>
      have hrest := ih h.2 (cons_ne_nil _ _)
      rw [Element.closeLast, Element.renderAll, ← String.append_assoc, render_laidRoom h.1, hbreak, String.append_assoc, String.toList_append, hrest,
        append_assoc]
      exact cons_ne_nil _ _

theorem toList_document (hne : names ≠ []) (h : ∀ e ∈ names, 0 ≤ e.1) : (document names).toList
    = "<room_names>".toList ++ ((names.flatMap fun e => (roomText e).toList) ++ "\n</room_names>\n".toList) := by
  have hrooms := toList_rooms h hne
  obtain ⟨e, rest, rfl⟩ := exists_cons_of_ne_nil hne
  have hindent : (Element.node "room_names" ((e :: rest).map room)).indent 0 = ⟨"room_names", [], some "\n  ",
      Element.closeLast "\n" (Element.indentAll 1 ((e :: rest).map room)), some "\n"⟩ := rfl
  have hbreak : optionalText (some "\n  ") = "\n  " := by decide
  rw [document, hindent, Element.render, hbreak]
  rw [if_neg (by simp), @String.append_assoc _ "\n  "]
  simp only [String.toList_append] at hrooms ⊢
  rw [hrooms]
  simp only [append_assoc]
  rfl

/-! ### Reading it -/

section Reading

variable {e : Int × String} {rest : List Char} {found : List (List Char)}

theorem toList_roomText (e : Int × String) (rest : List Char) : (roomText e).toList ++ rest
    = "\n  <room>\n    ".toList ++ ("<id>".toList ++ ((toString e.1).toList ++ ("</id>".toList ++ '\n' :: ("    ".toList
    ++ ((nameText e.2).toList ++ '\n' :: ("  </room>".toList ++ rest)))))) := by
  have hbreak : "\n".toList = ['\n'] := rfl
  simp only [roomText, String.toList_append, append_assoc, hbreak, cons_append, nil_append]

theorem toList_nameText (h : name ≠ "") :
    (nameText name).toList = "<name>".toList ++ ((recorded name).toList ++ "</name>".toList) := by
  rw [nameText, if_neg h, String.toList_append, String.toList_append]

theorem not_mem_number (hc : c.isDigit = false) (h : 0 ≤ e.1) : c ∉ (toString e.1).toList := by
  obtain ⟨n, hn⟩ := Int.eq_ofNat_of_zero_le h
  rw [hn]
  intro hmem
  rw [Nat.isDigit_of_mem_toDigits (by decide) (by decide) (Nat.toList_repr ▸ hmem)] at hc
  exact Bool.noConfusion hc

theorem finds_id (h : 0 ≤ e.1) (hrest : Finds "<id>".toList "</id>".toList rest found) :
    Finds "<id>".toList "</id>".toList ((roomText e).toList ++ rest) ([(toString e.1).toList] ++ found) := by
  have hend : Finds "<id>".toList "</id>".toList ('\n' :: ("  </room>".toList ++ rest)) found :=
    (hrest.past (by decide)).line (by decide)
  have hline : '\n' ∉ (toString e.1).toList ++ "</id>".toList :=
    not_mem_append (not_mem_number (by decide) h) (by decide)
  rw [toList_roomText]
  refine Finds.past (by decide) (Finds.hit (by decide) (by decide) hline (Finds.past (by decide) ?_))
  by_cases hname : e.2 = ""
  · rw [nameText, if_pos hname]
    exact hend.past (by decide)
  · rw [toList_nameText hname, append_assoc, append_assoc]
    exact ((hend.past (by decide)).past (passes_of_not_mem (by decide : "<id>".toList.head? = some '<') (not_mem_recorded (by decide) (by decide) _))).past (by decide)

theorem finds_name (h : 0 ≤ e.1) (hrest : Finds "<name>".toList "</name>".toList rest found) :
    Finds "<name>".toList "</name>".toList ((roomText e).toList ++ rest)
    ((if e.2 = "" then [] else [(recorded e.2).toList]) ++ found) := by
  have hend : Finds "<name>".toList "</name>".toList ("  </room>".toList ++ rest) found := hrest.past (by decide)
  have hnumber := passes_of_not_mem (by decide : "<name>".toList.head? = some '<') (not_mem_number (by decide) h)
  rw [toList_roomText]
  refine Finds.past (by decide) (Finds.past (by decide) (Finds.past hnumber (Finds.past (by decide) (Finds.line (by decide) (Finds.past (by decide) ?_)))))
  by_cases hname : e.2 = ""
  · rw [nameText, if_pos hname, if_pos hname]
    exact (hend.line (by decide)).past (by decide)
  · have hline : '\n' ∉ (recorded e.2).toList ++ "</name>".toList :=
      not_mem_append (not_mem_recorded (by decide) (by decide) _) (by decide)
    rw [toList_nameText hname, if_neg hname, append_assoc, append_assoc]
    exact hend.hit (by decide) (by decide) hline

end Reading

section Names

variable (hnames : ∀ e ∈ names, 0 ≤ e.1)
include hnames

theorem contents_document {tag : String} {start stop : List Char} {f : Int × String → List (List Char)}
    (hstart : ("<" ++ tag ++ ">").toList = start) (hstop : ("</" ++ tag ++ ">").toList = stop)
    (hopen : passes start "<room_names>".toList = true) (hclose : passes start "\n</room_names>\n".toList = true)
    (hroom : ∀ e ∈ names, ∀ rest found, Finds start stop rest found → Finds start stop ((roomText e).toList ++ rest) (f e ++ found))
    (hne : names ≠ []) : contents tag (document names) = (names.flatMap f).map String.ofList := by
  have hrooms : Finds start stop ((names.flatMap fun e => (roomText e).toList) ++ "\n</room_names>\n".toList) (names.flatMap f) := by
    clear hne hnames
    induction names with
    | nil => exact finds_none hclose
    | cons e names ih =>
      rw [forall_mem_cons] at hroom
      rw [flatMap_cons, append_assoc]
      exact hroom.1 _ _ (ih hroom.2)
  have hdocument := hrooms.past hopen
  rw [← toList_document hne hnames] at hdocument
  rw [contents, hstart, hstop, hdocument _ (by rw [String.length_toList]; omega)]

theorem contents_id : contents "id" (document names) = names.map fun e => toString e.1 := by
  by_cases hne : names = []
  · rw [hne]
    rfl
  · have hstart : ("<" ++ "id" ++ ">").toList = "<id>".toList := by decide
    have hstop : ("</" ++ "id" ++ ">").toList = "</id>".toList := by decide
    rw [contents_document hnames hstart hstop (by decide) (by decide) (fun e he _ _ h => finds_id (hnames e he) h) hne, map_flatMap]
    simp [map_eq_flatMap]

theorem contents_name : contents "name" (document names) = (names.filter (·.2 ≠ "")).map fun e => recorded e.2 := by
  by_cases hne : names = []
  · rw [hne]
    rfl
  · have hstart : ("<" ++ "name" ++ ">").toList = "<name>".toList := by decide
    have hstop : ("</" ++ "name" ++ ">").toList = "</name>".toList := by decide
    rw [contents_document hnames hstart hstop (by decide) (by decide) (fun e he _ _ h => finds_name (hnames e he) h) hne]
    clear hne hnames
    induction names with
    | nil => rfl
    | cons e names ih => by_cases hname : e.2 = "" <;> simp_all

end Names

/-! ### New names -/

def title (name : String) : String := Text.swap (recorded name) "-" "_"

def folderOf (label : Label) (i : Int) : String := (GroupKind.volume ⟨some i, false⟩).folder label

def titles (names : List (Int × String)) : List (Int × String) := names.foldl (fun table e => Table.put e.1 (title e.2) table) []

theorem find?_titles (names : List (Int × String)) (i : Int) :
    Table.find? i (titles names) = (names.reverse.find? fun e => e.1 = i).map fun e => title e.2 := by
  induction names using List.reverseRecOn with
  | nil => rfl
  | append_singleton names e ih =>
    rw [titles, foldl_concat, Table.find?_put, ← titles, ih]
    by_cases h : e.1 = i <;> simp [h]

theorem read_number {e : Int × String} (h : 0 ≤ e.1) : Numeral.read 10 (toString e.1) = .ok e.1 := by
  obtain ⟨n, hn⟩ := Int.eq_ofNat_of_zero_le h
  rw [hn]
  exact Numeral.read_toString n

theorem tableOf_eq {names table : List (Int × String)} (h : ∀ e ∈ names, 0 ≤ e.1) :
    tableOf (names.map fun e => toString e.1) (names.map fun e => recorded e.2) table
    = .ok (names.foldl (fun table e => Table.put e.1 (title e.2) table) table) := by
  induction names generalizing table with
  | nil => rfl
  | cons e names ih =>
    rw [forall_mem_cons] at h
    rw [map_cons, map_cons, tableOf, read_number h.1]
    exact ih h.2

theorem tableOf_short {ids : List (Int × String)} {texts : List String} {table : List (Int × String)} (h : ∀ e ∈ ids, 0 ≤ e.1)
    (hlength : texts.length < ids.length) : tableOf (ids.map fun e => toString e.1) texts table = .error .outOfRange := by
  induction ids generalizing texts table with
  | nil => simp at hlength
  | cons e ids ih =>
    rw [forall_mem_cons] at h
    cases texts with
    | nil => rfl
    | cons text texts =>
      rw [map_cons, tableOf, read_number h.1]
      exact ih h.2 (by simpa using hlength)

theorem read_document (h : ∀ e ∈ names, 0 ≤ e.1) :
    read (document names) = if ∃ e ∈ names, e.2 = "" then .error .outOfRange else .ok (titles names) := by
  rw [read, contents_id h, contents_name h]
  split
  · rename_i hempty
    obtain ⟨e, he, hname⟩ := hempty
    refine tableOf_short h ?_
    rw [length_map]
    exact length_filter_lt_length_iff_exists.mpr ⟨e, he, by simpa using hname⟩
  · rename_i hnone
    have hall : names.filter (·.2 ≠ "") = names := filter_eq_self.mpr fun e he => decide_eq_true fun hname => hnone ⟨e, he, hname⟩
    rw [hall]
    exact tableOf_eq h

theorem toList_folderOf (label : Label) (n : Nat) : (folderOf label n).toList = label.name.toList ++ '_' :: Spelling.digits 3 n := by
  have htext : (⟨some n, false⟩ : Entry).text = "" ++ Spelling.pad 3 (toString (n : Int)) := rfl
  rw [folderOf, GroupKind.folder, htext, Spelling.pad_eq]
  simp

theorem newName_folderOf {label : Label} {i : Int} (h : 0 ≤ i) (hi : i < 1000) :
    newName (titles names) (folderOf label i) = match names.reverse.find? (·.1 = i) with
      | some e => .ok (folderOf label i ++ "_" ++ title e.2)
      | none => .error (.missingKey (toString i)) := by
  obtain ⟨n, rfl⟩ := Int.eq_ofNat_of_zero_le h
  have hnumber : Numeral.read 10 (String.ofList (Position.onward (folderOf label n).toList (-3))) = .ok n := by
    have hread := Spelling.read_lastThree (label.name.toList ++ ['_']) n
    rw [Nat.mod_eq_of_lt (by omega), append_assoc, singleton_append, ← toList_folderOf] at hread
    rwa [Position.onward_three]
  rw [newName, hnumber]
  simp only [Bind.bind, Except.bind, find?_titles]
  cases names.reverse.find? (·.1 = (n : Int)) <;> rfl

theorem clean_document (h : ∀ e ∈ names, 0 ≤ e.1) : Json.Clean (document names).toList := by
  by_cases hne : names = []
  · rw [hne]
    decide
  · rw [toList_document hne h]
    have hrooms : Json.Clean (names.flatMap fun e => (roomText e).toList) := by
      intro hmem
      obtain ⟨e, he, hmem⟩ := mem_flatMap.mp hmem
      have hnumber : Json.Clean (toString e.1).toList := not_mem_number (by decide) (h e he)
      have hname : Json.Clean _ := not_mem_recorded (by decide) (by decide) e.2
      have htext : Json.Clean (nameText e.2).toList := by
        by_cases hempty : e.2 = ""
        · rw [nameText, if_pos hempty]
          decide
        · simp [toList_nameText hempty, hname]
      have hclean : Json.Clean (roomText e).toList := by simpa [roomText, htext] using hnumber
      exact hclean hmem
    simp [hrooms]

def portNames : List (Int × String) := [(10, "bar"), (20, "sea-port")]

/-- Two rooms with a name, and the names. -/
def port : FileTree where
  base := []
  entries := [(["roomnames.xml"], .file (.data (Text.toUtf8 (document portNames))) 0), (["MONKEY1"], .folder 0),
    (["MONKEY1", "LECF"], .folder 0), (["MONKEY1", "LECF", "LFLF_010"], .folder 0), (["MONKEY1", "LECF", "LFLF_020"], .folder 0)]
  clock := 0

def portWork : Workspace := { (default : Workspace) with files := port }

end ScummKit.RoomName
