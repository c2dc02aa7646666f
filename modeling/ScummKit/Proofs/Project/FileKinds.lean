import Mathlib.Data.List.Find
import ScummKit.Proofs.Project.PairOrder

/-!
# Kinds of decoded files

What a file holds is told by the first of several codes that occurs in its name. A decoded file mostly keeps the code of the file that it comes from, and no code of a kind that is looked for earlier joins it. Only the picture of an object has a text in its name that the game is free to choose: it is recognised exactly if that text has none of the codes that are looked for before those of images (`kind_decoded`).
-/

namespace ScummKit.Asset

open List Text

section Occurrences

variable {pattern xs : List Char} {c : Char}

theorem prefix_masked {pattern : List Char} (h : 'i' ∉ pattern ∧ 'z' ∉ pattern) :
    pattern <+: replaceAfter imageMark maskMark 0 xs ↔ pattern <+: xs := by
  have hmark : imageMark ≠ [] := by decide
  induction xs using scan_induction hmark hmark generalizing pattern with
  | nil => rfl
  | first zs | second zs =>
    rcases pattern with _ | ⟨d, _ | ⟨e, q⟩⟩
    · simp
    · change [d] <+: '_' :: _ ↔ [d] <+: '_' :: _
      simp
    · simp only [mem_cons, not_or] at h
      refine iff_of_false (fun hprefix => h.2.2.1 ?_) fun hprefix => h.1.2.1 ?_
      all_goals exact (cons_prefix_cons.mp (cons_prefix_cons.mp hprefix).2).1.symm
  | miss x xs hx _ ih =>
    rw [replaceAfter_miss hx]
    rcases pattern with _ | ⟨d, q⟩
    · simp
    · simp only [mem_cons, not_or] at h
      rw [cons_prefix_cons, cons_prefix_cons]
      exact and_congr_right fun _ => ih ⟨h.1.2, h.2.2⟩

/-- The name of a mask has the codes that the name of its picture has. -/
theorem occurs_masked (hc : c ∉ imageMark ++ maskMark) (h : 'i' ∉ c :: pattern ∧ 'z' ∉ c :: pattern) :
    occurs (c :: pattern) (replaceAfter imageMark maskMark 0 xs) = occurs (c :: pattern) xs := by
  rw [mem_append, not_or] at hc
  have hmark : imageMark ≠ [] := by decide
  induction xs using scan_induction hmark hmark with
  | nil => rfl
  | first zs ih | second zs ih =>
    rw [replaceAfter_hit hmark, occurs_append_of_not_mem hc.2, occurs_append_of_not_mem hc.1, ih]
  | miss x xs hx _ ih =>
    have hprefix : c :: pattern <+: replaceAfter imageMark maskMark 0 (x :: xs) ↔ c :: pattern <+: x :: xs := prefix_masked h
    rw [replaceAfter_miss hx] at hprefix ⊢
    rw [Bool.eq_iff_iff, occurs_cons, occurs_cons, hprefix, ih]

end Occurrences

/-! ### Codes -/

def codesOf : String → List (List String × Kind)
  | "4" => codes4
  | _ => codes5

/-- The same kind, where a picture and its mask count as one. -/
def Kind.Alike (k k' : Kind) : Prop := k = k' ∨ (k = .image ∨ k = .zplane) ∧ (k' = .image ∨ k' = .zplane)

instance (k k' : Kind) : Decidable (k.Alike k') := inferInstanceAs (Decidable (_ ∨ _))

/-- The codes that are looked for before those of images. -/
def foreign (version : String) : List String := ((codesOf version).take 4).flatMap (·.1)

theorem byCode_iff {first found rest : List (List String × Kind)} {name : String} {P : Kind → Prop}
    (hfirst : ∀ row ∈ first, ¬ P row.2) (hfound : ∀ row ∈ found, P row.2) (hname : ∃ row ∈ found, row.1.any (has name) = true) :
    P (byCode .other (first ++ (found ++ rest)) name) ↔ ∀ code ∈ first.flatMap (·.1), has name code = false := by
  induction first with
  | nil =>
    obtain ⟨row, hrow, hhas⟩ := hname
    have hsome : (found.find? fun row => row.1.any (has name)).isSome := find?_isSome.mpr ⟨row, hrow, hhas⟩
    obtain ⟨row', hrow'⟩ := Option.isSome_iff_exists.mp hsome
    rw [byCode, nil_append, find?_append, hrow']
    exact iff_of_true (hfound row' (mem_of_find?_eq_some hrow')) (by simp)
  | cons row first ih =>
    rw [forall_mem_cons] at hfirst
    rw [byCode, cons_append, find?_cons, flatMap_cons, forall_mem_append]
    cases hrow : row.1.any (has name) with
    | true =>
      obtain ⟨code, hcode, hhas⟩ := any_eq_true.mp hrow
      refine iff_of_false hfirst.1 fun h => ?_
      rw [h.1 code hcode] at hhas
      cases hhas
    | false =>
      have hnone : ∀ code ∈ row.1, has name code = false := by simpa using hrow
      exact (ih hfirst.2).trans (and_iff_right hnone).symm

/-! ### Numbers in names -/

/-- The digits of a number. -/
def Number (ds : String) : Prop := ds.toList ≠ [] ∧ ∀ d ∈ ds.toList, d.isDigit

def Plain (pattern : String) : Prop := pattern.toList ≠ [] ∧ ∀ c ∈ pattern.toList, c.isDigit = false

instance (ds : String) : Decidable (Number ds) := @instDecidableAnd _ _ _ (decidableBAll _ _)

instance (pattern : String) : Decidable (Plain pattern) := @instDecidableAnd _ _ _ (decidableBAll _ _)

section Numbers

variable {ds pattern : String} (hds : Number ds) (hpattern : Plain pattern) (a b : String)

include hds hpattern

theorem exists_number : ∃ d rest c cs, ds.toList = d :: rest ∧ pattern.toList = c :: cs ∧ d ∉ c :: cs ∧ c ∉ rest := by
  obtain ⟨hne, hdigit⟩ := hds
  obtain ⟨hne', hother⟩ := hpattern
  obtain ⟨d, rest, hcons⟩ := exists_cons_of_ne_nil hne
  obtain ⟨c, cs, hcons'⟩ := exists_cons_of_ne_nil hne'
  rw [hcons] at hdigit
  rw [hcons'] at hother
  have hdiff {x : Char} (hx : x ∈ d :: rest) (hx' : x ∈ c :: cs) : False :=
    Bool.false_ne_true ((hother x hx').symm.trans (hdigit x hx))
  exact ⟨d, rest, c, cs, hcons, hcons', hdiff mem_cons_self, fun h => hdiff (mem_cons_of_mem d h) mem_cons_self⟩

theorem has_number : has (a ++ ds ++ b) pattern = (has a pattern || has b pattern) := by
  obtain ⟨d, rest, c, cs, hcons, hcons', hd, hc⟩ := exists_number hds hpattern
  rw [has, has, has, String.toList_append, String.toList_append, hcons, hcons', append_assoc, cons_append,
    occurs_append_sep (cons_ne_nil c cs) hd, occurs_append_of_not_mem hc]

theorem swap_number (new : String) : swap (a ++ ds ++ b) pattern new = swap a pattern new ++ ds ++ swap b pattern new := by
  have hne := hpattern.1
  obtain ⟨d, rest, c, cs, hcons, hcons', hd, hc⟩ := exists_number hds hpattern
  rw [← String.toList_inj, toList_swap hne, String.toList_append, String.toList_append, String.toList_append, String.toList_append,
    toList_swap hne, toList_swap hne, hcons, hcons', append_assoc, cons_append, replaceAfter_append_sep (cons_ne_nil c cs) hd,
    replaceAfter_append_of_not_mem hc, append_assoc, cons_append]

end Numbers

/-! ### Files that are decoded in place -/

def kindIn (version name : String) : Kind := (Kind.ofName? version name).getD .other

/-- A decoded file is taken for what it was decoded from. -/
def Recognised (version name decoded : String) : Prop := (kindIn version name).Alike (kindIn version decoded)

instance (version name decoded : String) : Decidable (Recognised version name decoded) := inferInstanceAs (Decidable (Kind.Alike _ _))

/-- The names beside a file that it is decoded to. -/
def decodedNames (version name : String) : List String :=
  match kindIn version name with
  | .script => [ScriptFile.listingName (Script.Role.ofName name) version name]
  | .box | .scale => [swap name ".dmp" ".json"]
  | .palette => [swap name ".dmp" ".png"]
  | .costume => ["_" ++ swap name ".dmp" "_animdata.json", "_" ++ swap name ".dmp" "_spritesheet.png"]
  | .image | .zplane => [swap name ".dmp" "_image.png", swap (swap name ".dmp" "_image.png") "_image" "_zplane"]
  | .other => []

def singleNames : String → List String
  | "4" => ["EN.dmp", "EX.dmp", "OC.dmp", "BX.dmp", "SA.dmp", "PA.dmp", "BM.dmp"]
  | _ => ["ENCD.dmp", "EXCD.dmp", "VERB.dmp", "BOXD.dmp", "BOXM.dmp", "SCAL.dmp", "CLUT.dmp"]

/-- What stands in front of the number of a script, and of a costume. -/
def numberedFronts : String → List String × List String
  | "4" => (["SC_", "SC_unk_", "LS_"], ["CO_", "CO_unk_"])
  | _ => (["SCRP_", "SCRP_unk_", "LSCR_"], ["COST_", "COST_unk_"])

/-- The name of a file of a room or an object that is decoded in place. -/
def InPlace (version name : String) : Prop :=
  name ∈ singleNames version
    ∨ ∃ front ∈ (numberedFronts version).1 ++ (numberedFronts version).2, ∃ ds, Number ds ∧ name = front ++ ds ++ ".dmp"

section Version

variable {version : String} (hversion : version = "4" ∨ version = "5")
variable {ds code : String}

include hversion

theorem kindIn_eq (name : String) : kindIn version name = byCode .other (codesOf version) name := by
  rcases hversion with rfl | rfl <;> rfl

theorem plain_code : ∀ code ∈ (codesOf version).flatMap (·.1), Plain code := by
  rcases hversion with rfl | rfl <;> decide

theorem has_zero (hds : Number ds) (hcode : code ∈ (codesOf version).flatMap (·.1)) (a b : String) :
    has (a ++ ds ++ b) code = has (a ++ "0" ++ b) code := by
  have hzero : Number "0" := by decide
  have hplain := plain_code hversion code hcode
  rw [has_number hds hplain, has_number hzero hplain]

/-- Which number a name has is of no importance to its kind. -/
theorem kindIn_number (hds : Number ds) (a b : String) : kindIn version (a ++ ds ++ b) = kindIn version (a ++ "0" ++ b) := by
  rw [kindIn_eq hversion, kindIn_eq hversion, byCode]
  congr 1
  refine find?_congr fun row hrow => ?_
  rw [Bool.eq_iff_iff, any_eq_true, any_eq_true]
  refine exists_congr fun code => and_congr_right fun hcode => ?_
  rw [has_zero hversion hds (mem_flatMap.mpr ⟨row, hrow, hcode⟩)]

theorem listingName_number {front : String} (hfront : front ∈ (numberedFronts version).1) (hds : Number ds) (r : Script.Role) :
    ∃ a ∈ [front, swap front "SC_" "_SC_", swap front "SCRP_" "_SCRP_"],
    ScriptFile.listingName r version (front ++ ds ++ ".dmp") = a ++ ds ++ ".txt" := by
  have htext : swap (front ++ ds ++ ".dmp") ".dmp" ".txt" = front ++ ds ++ ".txt" := by
    have hkeep : swap front ".dmp" ".txt" = front := by
      revert front
      rcases hversion with rfl | rfl <;> decide
    rw [swap_number hds (by decide), hkeep]
    rfl
  have hmark (code new : String) (hcode : Plain code) (hkeep : swap ".txt" code new = ".txt") :
      swap (front ++ ds ++ ".txt") code new = swap front code new ++ ds ++ ".txt" := by
    rw [swap_number hds hcode, hkeep]
  unfold ScriptFile.listingName
  rw [htext]
  split
  · exact ⟨_, by simp, hmark _ _ (by decide) (by decide)⟩
  · exact ⟨_, by simp, hmark _ _ (by decide) (by decide)⟩
  · exact ⟨_, by simp, rfl⟩

theorem recognised_inPlace {name new : String} (h : InPlace version name) (hnew : new ∈ decodedNames version name) :
    Recognised version name new := by
  rcases h with h | ⟨front, hfront, ds, hds, rfl⟩
  · revert new
    revert name
    rcases hversion with rfl | rfl <;> decide
  rcases mem_append.mp hfront with hfront | hfront
  · have hkinds : kindIn version (front ++ "0" ++ ".dmp") = .script
        ∧ ∀ a ∈ [front, swap front "SC_" "_SC_", swap front "SCRP_" "_SCRP_"], kindIn version (a ++ "0" ++ ".txt") = .script := by
      clear hnew
      revert front
      rcases hversion with rfl | rfl <;> decide
    have hkind := (kindIn_number hversion hds front ".dmp").trans hkinds.1
    rw [decodedNames, hkind] at hnew
    obtain ⟨a, ha, hname⟩ := listingName_number hversion hfront hds (Script.Role.ofName (front ++ ds ++ ".dmp"))
    rw [mem_singleton.mp hnew, hname, Recognised, hkind, kindIn_number hversion hds, hkinds.2 a ha]
    exact Or.inl rfl
  · have hkinds : kindIn version (front ++ "0" ++ ".dmp") = .costume
        ∧ ∀ tail ∈ ["_animdata.json", "_spritesheet.png"], swap front ".dmp" tail = front ∧ swap ".dmp" ".dmp" tail = tail
          ∧ kindIn version ("_" ++ front ++ "0" ++ tail) = .costume := by
      clear hnew
      revert front
      rcases hversion with rfl | rfl <;> decide
    have hkind := (kindIn_number hversion hds front ".dmp").trans hkinds.1
    have hdecoded {tail : String} (htail : tail ∈ ["_animdata.json", "_spritesheet.png"]) :
        Recognised version (front ++ ds ++ ".dmp") ("_" ++ swap (front ++ ds ++ ".dmp") ".dmp" tail) := by
      obtain ⟨hfront, hend, hcostume⟩ := hkinds.2 tail htail
      rw [swap_number hds (by decide), hfront, hend, ← String.append_assoc, ← String.append_assoc, Recognised, hkind,
        kindIn_number hversion hds, hcostume]
      exact Or.inl rfl
    rw [decodedNames, hkind] at hnew
    rcases mem_pair.mp hnew with rfl | rfl
    · exact hdecoded (by decide)
    · exact hdecoded (by decide)

/-! ### Pictures that are moved -/

/-- The names of an image or a mask below the folder out of which its picture is moved. -/
inductive Layer : String → List String → String → Prop
  | image4 : Layer "4" [] "OI.dmp"
  | image5 {ds : String} (h : Number ds) : Layer "5" ["IM" ++ ds] "SMAP.dmp"
  | mask5 {ds ds' : String} (h : Number ds) (h' : Number ds') : Layer "5" ["IM" ++ ds] ("ZP" ++ ds' ++ ".dmp")

def drawn (version : String) : List String := (((codesOf version).drop 4).take 2).flatMap (·.1)

/-- A text with a code of an image or a mask, and with none of the codes that are looked for before. -/
def Drawn (version s : String) : Prop := (∀ code ∈ foreign version, has s code = false) ∧ ∃ code ∈ drawn version, has s code = true

instance (version s : String) : Decidable (Drawn version s) := inferInstanceAs (Decidable (_ ∧ _))

theorem drawn_number (hds : Number ds) {a b : String} (h : Drawn version (a ++ "0" ++ b)) : Drawn version (a ++ ds ++ b) := by
  have hcodes : ∀ code ∈ foreign version ++ drawn version, code ∈ (codesOf version).flatMap (·.1) := by
    rcases hversion with rfl | rfl <;> decide
  have hzero {code : String} (hcode : code ∈ foreign version ++ drawn version) : has (a ++ ds ++ b) code = has (a ++ "0" ++ b) code :=
    has_zero hversion hds (hcodes code hcode) a b
  refine ⟨fun code hcode => (hzero (mem_append_left _ hcode)).trans (h.1 code hcode), ?_⟩
  obtain ⟨code, hcode, hhas⟩ := h.2
  exact ⟨code, hcode, (hzero (mem_append_right _ hcode)).trans hhas⟩

theorem alike_image_iff {name : String} (h : ∃ code ∈ drawn version, has name code = true) :
    (kindIn version name).Alike .image ↔ ∀ code ∈ foreign version, has name code = false := by
  obtain ⟨code, hcode, hhas⟩ := h
  obtain ⟨row, hrow, hcode⟩ := mem_flatMap.mp hcode
  have hsplit : codesOf version = (codesOf version).take 4 ++ (((codesOf version).drop 4).take 2 ++ (codesOf version).drop 6) := by
    rcases hversion with rfl | rfl <;> rfl
  rw [kindIn_eq hversion, hsplit]
  have hname : ∃ row ∈ ((codesOf version).drop 4).take 2, row.1.any (has name) = true :=
    ⟨row, hrow, any_eq_true.mpr ⟨code, hcode, hhas⟩⟩
  apply byCode_iff (P := (Kind.Alike · .image)) ?_ ?_ hname
  all_goals rcases hversion with rfl | rfl <;> decide

theorem recognised_iff {dir name moved rest : String} {front : List Char} (hname : Drawn version name) (hrest : Drawn version rest)
    (hfront : ∀ code ∈ foreign version, occurs code.toList front = has dir code) (hmoved : moved.toList = front ++ '+' :: rest.toList) :
    Recognised version name moved ↔ ∀ code ∈ foreign version, has dir code = false := by
  have hkind : (kindIn version name).Alike .image := (alike_image_iff hversion hname.2).mpr hname.1
  have hswap (k : Kind) : (kindIn version name).Alike k ↔ k.Alike .image := by
    revert hkind
    generalize kindIn version name = k'
    cases k' <;> cases k <;> decide
  have hplus : ∀ code ∈ foreign version ++ drawn version, '+' ∉ code.toList ∧ code.toList ≠ [] := by
    rcases hversion with rfl | rfl <;> decide
  have hsep {code : String} (hcode : code ∈ foreign version ++ drawn version) :
      has moved code = (occurs code.toList front || has rest code) := by
    rw [has, hmoved, occurs_append_sep (hplus code hcode).2 (hplus code hcode).1]
    rfl
  obtain ⟨code, hcode, hhas⟩ := hrest.2
  have hdrawn : ∃ code ∈ drawn version, has moved code = true :=
    ⟨code, hcode, by rw [hsep (mem_append_right _ hcode), hhas, Bool.or_true]⟩
  rw [Recognised, hswap, alike_image_iff hversion hdrawn]
  refine forall₂_congr fun code hcode => ?_
  rw [hsep (mem_append_left _ hcode), hfront code hcode, hrest.1 code hcode, Bool.or_false]

theorem occurs_front (hcode : code ∈ foreign version) (dir : String) : occurs code.toList ('_' :: dir.toList) = has dir code
    ∧ occurs code.toList (replaceAfter imageMark maskMark 0 ('_' :: dir.toList)) = has dir code := by
  have hshape : code.toList.head?.all (· ∉ imageMark ++ maskMark) = true ∧ code.toList ≠ [] ∧ 'i' ∉ code.toList ∧ 'z' ∉ code.toList := by
    revert code
    rcases hversion with rfl | rfl <;> decide
  obtain ⟨hhead, hne, hletters⟩ := hshape
  obtain ⟨c, rest, hcons⟩ := exists_cons_of_ne_nil hne
  rw [hcons] at hhead hletters
  have hc : c ∉ imageMark ++ maskMark := by simpa using hhead
  have hplain : occurs code.toList ('_' :: dir.toList) = has dir code := by
    have hmark : c ∉ ['_'] := fun h => hc (by rw [mem_singleton.mp h]; decide)
    rw [has, hcons]
    exact occurs_append_of_not_mem hmark
  refine ⟨hplain, ?_⟩
  rw [← hplain, hcons, occurs_masked hc hletters]

end Version

section Layers

variable {version root dir name : String} {front mid : List String} {kind : Subject} {q : Path}

theorem flatName_cons (dir : String) (mid : List String) (name : String) : flatName (dir :: mid ++ [name])
    = ('_' :: dir.toList) ++ '+' :: ['+'].intercalate ((mid ++ [name]).map String.toList) := by
  obtain ⟨n, names, hnames⟩ : ∃ n names, mid ++ [name] = n :: names := exists_cons_of_ne_nil (by simp)
  rw [cons_append, hnames, flatName, map_cons, map_cons, intercalate_cons_cons, append_assoc]
  rfl

def ending (version : String) : String := if version = "4" then "_image.png" else ".png"

/-- What is known of the names of a layer and of its picture. -/
structure Layer.Known (version : String) (mid : List String) (name : String) : Prop where
  four : version = "4" → mid = [] ∧ name = "OI.dmp"
  path (kind : Subject) (h : version = "4" → kind = .object) (dir : String) (p : Path) :
    picturePath version kind p = flatten (p.rename (swap · ".dmp" (ending version))) (dir :: mid).length
  ends : Text.ends name ".dmp" = true
  drawn : Drawn version name
  shown : Drawn version (String.ofList (['+'].intercalate ((mid ++ [swap name ".dmp" (ending version)]).map String.toList)))

theorem Layer.known (h : Layer version mid name) : Layer.Known version mid name := by
  have hpair (ds picture : String) : String.ofList (['+'].intercalate ((["IM" ++ ds] ++ [picture]).map String.toList))
      = "IM" ++ ds ++ ("+" ++ picture) := by
    rw [← String.toList_inj]
    simp [intercalate]
  have hfive : "5" = "4" → False := by decide
  cases h with
  | image4 => exact ⟨fun _ => ⟨rfl, rfl⟩, fun kind h dir p => by rw [picturePath, if_pos (h rfl)]; rfl, by decide, by decide, by decide⟩
  | image5 h =>
    refine ⟨fun h => (hfive h).elim, fun _ _ _ _ => rfl, by decide, by decide, ?_⟩
    rw [hpair]
    exact drawn_number (Or.inr rfl) h (by decide)
  | mask5 h h' =>
    have hpicture : swap ("ZP" ++ _ ++ ".dmp") ".dmp" (ending "5") = "ZP" ++ _ ++ ".png" := swap_number h' (by decide) _ _ _
    refine ⟨fun h => (hfive h).elim, fun _ _ _ _ => rfl, Stem.ends_append _, drawn_number (Or.inr rfl) h' (by decide), ?_⟩
    rw [hpicture, hpair]
    refine drawn_number (Or.inr rfl) h ?_
    rw [← String.append_assoc, ← String.append_assoc, ← String.append_assoc]
    exact drawn_number (Or.inr rfl) h' (by decide)

/-- The name of a picture: that of the folder, perhaps with marks of masks, and behind a plus sign what is known of the layer. -/
theorem name_picture (h : Layer.Known version mid name) (hvalid : ∀ n ∈ dir :: mid ++ [name], ValidName n)
    (hkind : version = "4" → kind = .object) (hq : Pictures version kind ⟨root, front ++ (dir :: mid ++ [name])⟩ q) :
    ∃ start rest, q.name.toList = start ++ '+' :: String.toList rest ∧ Drawn version rest
    ∧ (start = '_' :: dir.toList ∨ start = replaceAfter imageMark maskMark 0 ('_' :: dir.toList)) := by
  have hfile : FileName ".dmp" name := ⟨(hvalid name (by simp)).2.2.2, h.ends⟩
  have hpicture : PictureName name (swap name ".dmp" (ending version)) := by
    unfold ending
    split
    · exact pictureName_picture hfile
    · exact pictureName_layer hfile
  have hflat := flatName_cons dir mid (swap name ".dmp" (ending version))
  obtain ⟨target, htarget, hq⟩ := hq
  rw [h.path kind hkind dir, ← append_assoc, rename_swap root _ hpicture.toFileName, append_assoc,
    flatten_of_valid (cons_ne_nil _ _) hvalid hpicture.toFileName] at htarget
  obtain rfl := Except.ok.inj htarget
  rcases hq with hq | ⟨rfl, hq⟩
  all_goals rw [hq]
  · refine ⟨_, _, ?_, h.shown, Or.inl rfl⟩
    rw [Path.name_concat, String.toList_ofList, String.toList_ofList, hflat]
  · obtain ⟨rfl, rfl⟩ := h.four rfl
    let moved := String.ofList (flatName (dir :: [] ++ [swap "OI.dmp" ".dmp" "_image.png"]))
    have hmask : FileName ".png" (swap moved "_image" "_zplane") :=
      (fileName_moved (cons_ne_nil _ _) hvalid hpicture.toFileName).swap (by decide)
    have htext : moved.toList = ('_' :: dir.toList) ++ '+' :: "OI_image.png".toList := String.toList_ofList.trans hflat
    refine ⟨_, "OI_zplane.png", ?_, by decide, Or.inr rfl⟩
    change (Path.rename ⟨root, front ++ [moved]⟩ (swap · "_image" "_zplane")).name.toList = _
    rw [rename_swap _ _ hmask, Path.name_concat, toList_swap (by decide), htext, replaceAfter_append_sep (by decide) (by decide)]
    rfl

end Layers

/-- A file that is decoded in place is recognised by its new name. The picture of a layer is recognised exactly if no code that is looked for before those of images occurs in the name of the folder that the picture is moved out of. -/
theorem kind_decoded {version : String} (hversion : version = "4" ∨ version = "5") :
    (∀ name new, InPlace version name → new ∈ decodedNames version name → Recognised version name new)
    ∧ ∀ {root front dir mid name stamped video given w w'}, Layer version mid name → (∀ n ∈ dir :: mid ++ [name], ValidName n) →
    Work.Gives (ImageFile.decode version stamped video given ⟨root, front ++ (dir :: mid ++ [name])⟩) w () w' →
    ∃ stored, Stores stored w.files w'.files
    ∧ ∀ q ∈ stored, Recognised version name q.name ↔ ∀ code ∈ foreign version, has dir code = false := by
  refine ⟨fun name new h hnew => recognised_inPlace hversion h hnew, ?_⟩
  intro root front dir mid name stamped video given w w' hlayer hvalid hrun
  have hknown := hlayer.known
  obtain ⟨kind, stored, hsubject, hstored, hpictures⟩ := ImageFile.stores_decode hrun
  refine ⟨stored, hstored, fun q hq => ?_⟩
  have hkind : version = "4" → kind = .object := by
    rintro rfl
    obtain ⟨rfl, rfl⟩ := hknown.four rfl
    have hobject : subject ⟨root, front ++ (dir :: [] ++ ["OI.dmp"])⟩ "4" = .ok (some .object) := by
      have hname : (⟨root, front ++ (dir :: [] ++ ["OI.dmp"])⟩ : Path).name = "OI.dmp" := by simp [Path.name]
      rw [subject, hname]
      rfl
    rw [hobject] at hsubject
    exact (Option.some.inj (Except.ok.inj hsubject)).symm
  obtain ⟨start, rest, hname, hdrawn, hstart⟩ := name_picture hknown hvalid hkind (hpictures q hq)
  refine recognised_iff hversion hknown.drawn hdrawn (fun code hcode => ?_) hname
  rcases hstart with rfl | rfl
  · exact (occurs_front hversion hcode dir).1
  · exact (occurs_front hversion hcode dir).2

open ImageFile Work in
/-- A book is recognised, and the picture of an object called "OPEN" would be taken for a script. -/
theorem kind_decoded_book : (∀ new ∈ decodedNames "5" "COST_012.dmp", Recognised "5" "COST_012.dmp" new)
    ∧ (∃ w' stored, Gives (decode "4" false "ega" [] studyBook) studyWork () w' ∧ Stores stored studyTree w'.files
    ∧ stored ≠ [] ∧ ∀ q ∈ stored, Recognised "4" "OI.dmp" q.name)
    ∧ has (Pack.Job.objectFolder 100 "OPEN") "EN" = true ∧ "EN" ∈ foreign "4" ∧ kindIn "4" "_0100_OPEN+OI_image.png" = .script := by
  refine ⟨fun new hnew => ?_, ?_, by decide +kernel⟩
  · exact (kind_decoded (Or.inr rfl)).1 _ new (Or.inr ⟨"COST_", by decide, "012", by decide, rfl⟩) hnew
  · have hbook : (result (decode "4" false "ega" [] studyBook) studyWork).1 = .ok () := by decide +kernel
    have hrun : Gives (decode "4" false "ega" [] ⟨"/", ["objects"] ++ ("book" :: [] ++ ["OI.dmp"])⟩) studyWork () _ := Prod.ext hbook rfl
    obtain ⟨stored, hstored, hback⟩ := (kind_decoded (Or.inl rfl)).2 .image4 (by decide) hrun
    exact ⟨_, stored, hrun, hstored, hstored.ne_nil (by decide +kernel), fun q hq => (hback q hq).mpr (by decide)⟩

end ScummKit.Asset
