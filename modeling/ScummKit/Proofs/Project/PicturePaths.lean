import ScummKit.Proofs.Project.PictureNames

/-!
# Where an edited image goes

Decoding stores the picture of an image some folders higher, under a name that is made of the names of those folders and of the image. Encoding takes that name apart. The image goes back to where it came from exactly if no mark stands in those names and no plus sign in its own (`encodedPath_iff`). The length of the name decides it: encoding can only make it shorter, and does so if it finds a mark.

The picture of a room of version 4 is not moved when the image is decoded, but it is taken for a moved one when it is encoded, and loses the first letter of its name.
-/

namespace ScummKit

open List hiding flatten
open Text Asset

variable {root : String} {front names : List String} {name : String} {n : Nat}

/-! ### Pictures that were moved -/

theorem foldl_join (root : String) (front : List String) {names : List String} (h : ∀ n ∈ names, '/' ∉ n.toList) :
    names.foldl Path.join ⟨root, front⟩ = ⟨root, front ++ names.filter fun n => n ≠ "" && n ≠ "."⟩ := by
  induction names generalizing front with
  | nil => simp
  | cons n names ih =>
    have hn := h n mem_cons_self
    have hjoin : Path.join ⟨root, front⟩ n = ⟨root, front ++ [n].filter fun n => n ≠ "" && n ≠ "."⟩ := by
      rw [Path.join, Path.ofText, Path.slashes_of_not_mem hn, Path.names, Text.split, Text.splitBy_of_not_mem hn, map_singleton,
        String.ofList_toList]
      rfl
    rw [foldl_cons, hjoin, ih _ fun m hm => h m (mem_cons_of_mem n hm), append_assoc, ← filter_append]
    rfl

theorem of_unflatten (hslash : '/' ∉ name.toList) (hne : names ≠ [])
    (h : unflatten ⟨root, front ++ [name]⟩ = ⟨root, front ++ names⟩) :
    (['+'].intercalate (names.map String.toList)).length ≤ name.toList.length - 1
    ∧ (name.toList.length - 1 ≤ (['+'].intercalate (names.map String.toList)).length →
    ['+'].intercalate (names.map String.toList) = name.toList.drop 1 ∧ ∀ n ∈ names, '+' ∉ n.toList) := by
  have hparent : (⟨root, front ++ [name]⟩ : Path).parent = ⟨root, front⟩ := by simp [Path.parent]
  let pieces := splitBy '+' (name.toList.drop 1)
  have hpieces : ∀ n ∈ pieces.map String.ofList, '/' ∉ n.toList := by
    intro n hn
    obtain ⟨piece, hpiece, rfl⟩ := mem_map.mp hn
    rw [String.toList_ofList]
    exact fun hc => hslash (List.mem_of_mem_drop (mem_splitBy hpiece hc).1)
  rw [unflatten, Path.name_concat, hparent, split, String.toList_ofList, foldl_join root front hpieces] at h
  have hsub : (names.map String.toList).Sublist pieces := by
    have hfilter := append_cancel_left (congrArg Path.parts h)
    rw [← hfilter]
    have hkept : ((pieces.map String.ofList).filter fun n => n ≠ "" && n ≠ ".").Sublist (pieces.map String.ofList) :=
      filter_sublist
    have hmap := hkept.map String.toList
    rwa [map_map, show String.toList ∘ String.ofList = id from funext fun xs => String.toList_ofList, map_id] at hmap
  obtain ⟨hle, heq⟩ := length_intercalate_sublist '+' hsub (by simpa using hne)
  rw [intercalate_splitBy, length_drop] at hle heq
  refine ⟨hle, fun hlength => ?_⟩
  have hall := heq hlength
  rw [hall]
  refine ⟨intercalate_splitBy _ _, fun n hn hplus => ?_⟩
  have hmem : n.toList ∈ pieces := hall ▸ mem_map_of_mem hn
  exact (mem_splitBy hmem hplus).2 rfl

/-- Names joined as in the name of a picture that was moved. -/
def flatName (names : List String) : List Char := '_' :: ['+'].intercalate (names.map String.toList)

def encodedPath (q : Path) : Path := unflatten (q.rename Site.imageName)

theorem flatName_concat {dirs : List String} (hne : dirs ≠ []) (name : String) :
    flatName (dirs ++ [name]) = flatName dirs ++ '+' :: name.toList := by
  rw [flatName, map_append, map_singleton, intercalate_concat '+' (by simpa using hne)]
  rfl

theorem split_flatName (hne : names ≠ []) (hplus : ∀ n ∈ names, '+' ∉ n.toList) :
    split (String.ofList ((flatName names).drop 1)) '+' = names := by
  have hpieces : ∀ piece ∈ names.map String.toList, '+' ∉ piece := by
    intro piece hpiece
    obtain ⟨n, hn, rfl⟩ := mem_map.mp hpiece
    exact hplus n hn
  rw [split, String.toList_ofList, flatName, drop_one, tail_cons, splitBy_intercalate (by simpa using hne) hpieces]
  simp

section Made

variable {picture : String}

theorem encodedPath_eq (root : String) (front : List String) (h : FileName ".png" picture) :
    encodedPath ⟨root, front ++ [picture]⟩ = unflatten ⟨root, front ++ [Site.imageName picture]⟩ := by
  have hvalid := (Site.fileName_imageName h).valid (by decide)
  rw [encodedPath, Path.rename_of_valid root front picture hvalid]

theorem encodedPath_iff_of_made (root : String) (front : List String)
    (hmade : Made (flatName names) picture.toList) (hfile : FileName ".png" picture) (hne : names ≠ []) (hvalid : ∀ n ∈ names, ValidName n) :
    encodedPath ⟨root, front ++ [picture]⟩ = ⟨root, front ++ names⟩
    ↔ (∀ n ∈ names, '+' ∉ n.toList) ∧ Unmarked (flatName names) := by
  have himage := Site.fileName_imageName hfile
  rw [encodedPath_eq root front hfile]
  constructor
  · intro h
    have hlength := hmade.length_le
    rw [← toList_imageName] at hlength
    obtain ⟨hle, heq⟩ := of_unflatten himage.slash hne h
    have hflat : (flatName names).length = (['+'].intercalate (names.map String.toList)).length + 1 := length_cons
    obtain ⟨hdrop, hplus⟩ := heq (by omega)
    have hmarks : occurs imageMark (flatName names) = false ∧ occurs maskMark (flatName names) = false := by
      have hpos : 0 < (Site.imageName picture).toList.length := by
        obtain ⟨cs, hcs⟩ := ends_iff.mp himage.ends
        rw [hcs, length_append]
        exact Nat.add_pos_right _ (by decide)
      apply hmade.not_occurs
      rw [← toList_imageName]
      omega
    -- the first character, which is dropped, starts no ending
    have hend : occurs pictureEnd (flatName names) = false := by
      have hrest : occurs pictureEnd ((Site.imageName picture).toList.drop 1) = false := by
        have hall := not_occurs_restored picture.toList
        rw [← toList_imageName, ← take_append_drop 1 (Site.imageName picture).toList] at hall
        rw [Bool.eq_false_iff] at hall ⊢
        exact fun hrest => hall (occurs_of_append hrest)
      have hfirst : occurs pictureEnd (['_'] ++ (Site.imageName picture).toList.drop 1) = false :=
        (occurs_append_of_not_mem (by decide)).trans hrest
      rw [← hdrop] at hfirst
      exact hfirst
    exact ⟨hplus, hmarks.1, hmarks.2, hend⟩
  · rintro ⟨hplus, hunmarked⟩
    have hname : Site.imageName picture = String.ofList (flatName names) := by
      rw [← String.toList_inj, toList_imageName, hmade.restored_eq hunmarked, String.toList_ofList]
    have hkeep : names.filter (fun n => n ≠ "" && n ≠ ".") = names := by
      rw [filter_eq_self]
      intro n hn
      simp [(hvalid n hn).1, (hvalid n hn).2.1]
    rw [hname, unflatten]
    simp only [Path.name, Path.parent, getLastD_concat, dropLast_concat, String.toList_ofList]
    rw [split_flatName hne hplus, foldl_join root front fun n hn => (hvalid n hn).2.2.2, hkeep]

theorem encodedPath_ne_of_made (root : String) (front : List String)
    (hmade : Made name.toList picture.toList) (hfile : FileName ".png" picture) (hname : name ≠ "") :
    encodedPath ⟨root, front ++ [picture]⟩ ≠ ⟨root, front ++ [name]⟩ := by
  rw [encodedPath_eq root front hfile]
  intro h
  have hlength := hmade.length_le
  rw [← toList_imageName] at hlength
  obtain ⟨hle, -⟩ := of_unflatten (Site.fileName_imageName hfile).slash (cons_ne_nil _ _) h
  rw [map_singleton, intercalate_singleton] at hle
  have hpos : 0 < name.toList.length := length_pos_iff.mpr fun hnil => hname (String.toList_eq_nil_iff.mp hnil)
  omega

end Made

/-! ### Folders above -/

theorem ancestor_eq (p : Path) (i : Nat) : p.ancestor i
    = if i < p.parts.length then .ok ⟨p.root, p.parts.take (p.parts.length - 1 - i)⟩ else .error .outOfRange := by
  rw [Path.ancestor, Position.look]
  simp only [if_neg (Int.not_lt.mpr (Int.natCast_nonneg i)), Int.toNat_natCast]
  by_cases hi : i < p.parts.length
  · rw [if_pos hi, Path.parents, getElem?_map, getElem?_range hi]
    rfl
  · have hnone : p.parents[i]? = none := getElem?_eq_none (by simpa [Path.parents] using hi)
    rw [if_neg hi, hnone]

theorem joinFolders_eq {p : Path} {dirs rest : List String} (hparts : p.parts = front ++ dirs ++ rest) {i : Nat}
    (hrest : rest.length = i + 1) (s : String) :
    joinFolders p i dirs.length s = .ok (String.ofList (['+'].intercalate ((dirs ++ [s]).map String.toList))) := by
  induction dirs using List.reverseRecOn generalizing rest i s with
  | nil => simp [joinFolders]
  | append_singleton dirs d ih =>
    have hlt : i < p.parts.length := by
      rw [hparts, length_append]
      omega
    have hname : (p.parts.take (p.parts.length - 1 - i)) = front ++ dirs ++ [d] := by
      rw [hparts, ← append_assoc]
      apply take_left'
      simp only [length_append]
      omega
    have hbelow : p.parts = front ++ dirs ++ d :: rest := by
      rw [hparts]
      simp
    have hstep := ih hbelow (congrArg (· + 1) hrest) (d ++ "+" ++ s)
    have hjoined : ['+'].intercalate ((dirs ++ [d ++ "+" ++ s]).map String.toList)
        = ['+'].intercalate ((dirs ++ [d] ++ [s]).map String.toList) := by
      rw [map_append, map_append, map_append, map_singleton, map_singleton, map_singleton]
      cases dirs with
      | nil => simp [List.intercalate]
      | cons first dirs =>
        rw [intercalate_concat '+' (by simp), intercalate_concat '+' (by simp), intercalate_concat '+' (by simp)]
        simp
    rw [length_append, length_singleton, joinFolders, ancestor_eq, if_pos hlt, hname]
    simp only [Bind.bind, Except.bind, Path.name, getLastD_concat]
    rw [hstep, hjoined]

theorem flatten_eq (root : String) (front dirs : List String) (name : String) :
    flatten ⟨root, front ++ (dirs ++ [name])⟩ dirs.length
    = .ok (Path.join ⟨root, front⟩ (String.ofList (flatName (dirs ++ [name])))) := by
  have hparts : (⟨root, front ++ (dirs ++ [name])⟩ : Path).parts = front ++ dirs ++ [name] := by simp
  have hname : (⟨root, front ++ (dirs ++ [name])⟩ : Path).name = name := by rw [← append_assoc, Path.name_concat]
  have hlt : dirs.length < (front ++ (dirs ++ [name])).length := by
    rw [length_append, length_append, length_singleton]
    omega
  have htake : (front ++ (dirs ++ [name])).take ((front ++ (dirs ++ [name])).length - 1 - dirs.length) = front := by
    apply take_left'
    rw [length_append, length_append, length_singleton]
    omega
  have hrest : [name].length = 0 + 1 := rfl
  rw [flatten, Int.toNat_natCast, joinFolders_eq hparts hrest, ancestor_eq, if_pos hlt, hname, htake]
  simp only [Bind.bind, Except.bind]
  have htext : "_" ++ String.ofList (['+'].intercalate ((dirs ++ [name]).map String.toList))
      = String.ofList (flatName (dirs ++ [name])) := by
    simp [flatName]
  rw [htext]
  rfl

/-! ### Pictures of images -/

def picturePath (version : String) (kind : Subject) (p : Path) : Except Fault Path :=
  if version = "4" then
    if kind = .object then flatten (p.rename (swap · ".dmp" "_image.png")) 1
    else .ok (p.rename (swap · ".dmp" "_image.png"))
  else flatten (p.rename (swap · ".dmp" ".png")) 2

def raised (version : String) : Nat := if version = "4" then 1 else 2

theorem raised_pos (version : String) : 0 < raised version := by
  unfold raised
  split <;> decide

/-- The names of an image and of the folders that its picture is moved over. -/
def movedNames (version : String) (p : Path) : List String := p.parts.drop (p.parts.length - (raised version + 1))

/-- An image to which its picture leads back. -/
def Homes (version : String) (kind : Subject) (p : Path) : Prop :=
  ¬ (version = "4" ∧ kind = .room) ∧ '+' ∉ p.name.toList ∧ Unmarked (flatName (movedNames version p))

instance (version : String) (kind : Subject) (p : Path) : Decidable (Homes version kind p) :=
  inferInstanceAs (Decidable (_ ∧ _))

section Moved

variable {dirs : List String}
variable {picture : String}

theorem made_masked (hdirs : dirs ≠ []) : Made (flatName (dirs ++ [name]))
    (swap (String.ofList (flatName (dirs ++ [swap name ".dmp" "_image.png"]))) "_image" "_zplane").toList := by
  have hmask : (swap (String.ofList (flatName (dirs ++ [swap name ".dmp" "_image.png"]))) "_image" "_zplane").toList
      = replaceAfter imageMark maskMark 0 (flatName (dirs ++ [swap name ".dmp" "_image.png"])) :=
    (toList_swap (by decide)).trans (congrArg _ String.toList_ofList)
  rw [hmask, flatName_concat hdirs, flatName_concat hdirs, toList_swap (by decide),
    replaceAfter_append_sep (by decide) (by decide)]
  exact (Made.masked_refl _).append (Made.masked_picture _)

theorem slash_flatName (h : ∀ n ∈ names, '/' ∉ n.toList) : '/' ∉ flatName names := by
  have hjoined : '/' ∉ ['+'].intercalate (names.map String.toList) := by
    induction names with
    | nil => exact not_mem_nil
    | cons n names ih =>
      have hn := h n mem_cons_self
      have hrest := ih fun m hm => h m (mem_cons_of_mem n hm)
      cases names with
      | nil => simpa using hn
      | cons m names =>
        rw [map_cons, map_cons, intercalate_cons_cons, mem_append, mem_append, not_or, not_or]
        exact ⟨⟨hn, by decide⟩, hrest⟩
  rw [flatName, mem_cons, not_or]
  exact ⟨by decide, hjoined⟩

section

variable (hdirs : dirs ≠ []) (hvalid : ∀ n ∈ dirs ++ [name], ValidName n) (h : FileName ".png" picture)

include hdirs hvalid h

theorem fileName_moved : FileName ".png" (String.ofList (flatName (dirs ++ [picture]))) := by
  refine ⟨?_, ?_⟩
  · rw [String.toList_ofList]
    have hslash : ∀ d ∈ dirs, '/' ∉ d.toList := fun d hd => (hvalid d (mem_append_left _ hd)).2.2.2
    exact slash_flatName (forall_mem_append.mpr ⟨hslash, forall_mem_singleton.mpr h.slash⟩)
  · obtain ⟨cs, hcs⟩ := ends_iff.mp h.ends
    rw [ends_iff, flatName_concat hdirs, hcs]
    exact ⟨flatName dirs ++ '+' :: cs, String.toList_ofList.trans (by simp)⟩

theorem flatten_of_valid : flatten ⟨root, front ++ (dirs ++ [picture])⟩ dirs.length
    = .ok ⟨root, front ++ [String.ofList (flatName (dirs ++ [picture]))]⟩ := by
  have hmoved := (fileName_moved hdirs hvalid h).valid (by decide)
  rw [flatten_eq, Path.join_of_valid _ hmoved]

end

end Moved

theorem exists_moved {p : Path} (h : n < p.parts.length) :
    ∃ front dirs, p = ⟨p.root, front ++ (dirs ++ [p.name])⟩ ∧ dirs.length = n
    ∧ p.parts.drop (p.parts.length - (n + 1)) = dirs ++ [p.name] := by
  have hparts := p.parts_concat (length_pos_iff.mp (by omega))
  have hlength : p.parts.length - (n + 1) ≤ p.parts.dropLast.length := by
    rw [length_dropLast]
    omega
  refine ⟨p.parts.dropLast.take (p.parts.length - (n + 1)), p.parts.dropLast.drop (p.parts.length - (n + 1)), ?_, ?_, ?_⟩
  · rw [← append_assoc, take_append_drop, ← hparts]
  · rw [length_drop, length_dropLast]
    omega
  · rw [← drop_append_of_le_length hlength, ← hparts]

theorem lt_of_flatten {p q : Path} (h : flatten p n = .ok q) : n < p.parts.length := by
  by_contra hn
  rw [flatten, ancestor_eq, if_neg hn] at h
  cases hjoin : joinFolders p 0 (n : Int).toNat p.name with
  | error e => rw [hjoin] at h; cases h
  | ok name => rw [hjoin] at h; cases h

section Homes

variable {version : String} {kind : Subject} {p q : Path}

theorem homes_iff {front dirs : List String} (hp : p = ⟨p.root, front ++ (dirs ++ [p.name])⟩)
    (hplus : ∀ d ∈ p.parts.dropLast, '+' ∉ d.toList) (hroom : ¬ (version = "4" ∧ kind = .room))
    (hmoved : movedNames version p = dirs ++ [p.name]) :
    Homes version kind p ↔ (∀ n ∈ dirs ++ [p.name], '+' ∉ n.toList) ∧ Unmarked (flatName (dirs ++ [p.name])) := by
  have hdirs : ∀ d ∈ dirs, '+' ∉ d.toList := by
    intro d hd
    apply hplus
    rw [hp, ← append_assoc, dropLast_concat]
    exact mem_append_right _ hd
  rw [Homes, hmoved]
  constructor
  · rintro ⟨-, hname, hunmarked⟩
    exact ⟨forall_mem_append.mpr ⟨hdirs, forall_mem_singleton.mpr hname⟩, hunmarked⟩
  · rintro ⟨hnames, hunmarked⟩
    exact ⟨hroom, hnames _ (mem_append_right _ (mem_singleton_self _)), hunmarked⟩

def Pictures (version : String) (kind : Subject) (p q : Path) : Prop :=
  ∃ target, picturePath version kind p = .ok target ∧ (q = target ∨ version = "4" ∧ q = target.rename (swap · "_image" "_zplane"))

theorem parts_eq (hname : p.name ≠ "") : p = ⟨p.root, p.parts.dropLast ++ [p.name]⟩ := by
  rw [← p.parts_concat fun hnil => hname (by rw [Path.name, hnil]; rfl)]

theorem name_of_ends (hvalid : ∀ n ∈ p.parts, ValidName n) (hends : ends p.name ".dmp" = true) :
    p.name ≠ "" ∧ FileName ".dmp" p.name := by
  have hname : p.name ≠ "" := by
    intro hempty
    rw [hempty] at hends
    exact absurd hends (by decide)
  refine ⟨hname, (hvalid p.name ?_).2.2.2, hends⟩
  rw [parts_eq hname]
  exact mem_append_right _ (by simp [Path.name])

theorem rename_swap (root : String) (front : List String) {name pattern new : String} (h : FileName ".png" (swap name pattern new)) :
    Path.rename ⟨root, front ++ [name]⟩ (swap · pattern new) = ⟨root, front ++ [swap name pattern new]⟩ :=
  Path.rename_of_valid root front name (h.valid (by decide))

/-- What the new ending of a picture does to the name of an image. -/
structure PictureName (name picture : String) : Prop extends FileName ".png" picture where
  made : Made name.toList picture.toList

section

variable (h : FileName ".dmp" name)

include h

theorem pictureName_layer : PictureName name (swap name ".dmp" ".png") := by
  refine ⟨h.swap (by decide), ?_⟩
  rw [toList_swap (by decide)]
  exact Made.layer _

theorem pictureName_picture : PictureName name (swap name ".dmp" "_image.png") := by
  have hfile : FileName "_image.png" (swap name ".dmp" "_image.png") := h.swap (by decide)
  refine ⟨hfile.of_suffix (by decide), ?_⟩
  rw [toList_swap (by decide)]
  exact Made.picture _

theorem pictureName_mask : PictureName name (swap (swap name ".dmp" "_image.png") "_image" "_zplane") := by
  refine ⟨(pictureName_picture h).swap (by decide), ?_⟩
  rw [toList_swap (by decide), toList_swap (by decide)]
  exact Made.masked_picture _

end

theorem valid_moved {front dirs : List String} (hp : p = ⟨p.root, front ++ (dirs ++ [p.name])⟩) (hvalid : ∀ n ∈ p.parts, ValidName n) :
    ∀ n ∈ dirs ++ [p.name], ValidName n := by
  rw [hp] at hvalid
  exact (forall_mem_append.mp hvalid).2

section

variable {front dirs : List String} (hdirs : dirs ≠ []) (hp : p = ⟨p.root, front ++ (dirs ++ [p.name])⟩)
  (hvalid : ∀ n ∈ p.parts, ValidName n)

include hdirs hp hvalid

theorem encodedPath_moved {picture : String} (hpicture : PictureName p.name picture)
    (hq : flatten ⟨p.root, front ++ (dirs ++ [picture])⟩ dirs.length = .ok q) :
    q = ⟨p.root, front ++ [String.ofList (flatName (dirs ++ [picture]))]⟩
    ∧ (encodedPath q = p ↔ (∀ n ∈ dirs ++ [p.name], '+' ∉ n.toList) ∧ Unmarked (flatName (dirs ++ [p.name]))) := by
  have hnames := valid_moved hp hvalid
  rw [flatten_of_valid hdirs hnames hpicture.toFileName] at hq
  obtain rfl := Except.ok.inj hq
  refine ⟨rfl, ?_⟩
  have hmade : Made (flatName (dirs ++ [p.name])) (String.ofList (flatName (dirs ++ [picture]))).toList := by
    rw [String.toList_ofList, flatName_concat hdirs, flatName_concat hdirs]
    exact (Made.refl _).append hpicture.made
  have hiff := encodedPath_iff_of_made p.root front hmade (fileName_moved hdirs hnames hpicture.toFileName) (by simp) hnames
  rwa [← hp] at hiff

theorem encodedPath_moved_mask (hends : ends p.name ".dmp" = true)
    (hq : flatten ⟨p.root, front ++ (dirs ++ [swap p.name ".dmp" "_image.png"])⟩ dirs.length = .ok q) :
    encodedPath (q.rename (swap · "_image" "_zplane")) = p
    ↔ (∀ n ∈ dirs ++ [p.name], '+' ∉ n.toList) ∧ Unmarked (flatName (dirs ++ [p.name])) := by
  have hnames := valid_moved hp hvalid
  have hname := (hnames p.name (mem_append_right _ (mem_singleton_self _))).2.2.2
  have hpicture := pictureName_picture ⟨hname, hends⟩
  obtain ⟨rfl, -⟩ := encodedPath_moved hdirs hp hvalid hpicture hq
  let moved := String.ofList (flatName (dirs ++ [swap p.name ".dmp" "_image.png"]))
  have hmoved : FileName ".png" (swap moved "_image" "_zplane") := (fileName_moved hdirs hnames hpicture.toFileName).swap (by decide)
  rw [rename_swap _ _ hmoved]
  have hiff := encodedPath_iff_of_made p.root front (made_masked hdirs) hmoved (by simp) hnames
  rwa [← hp] at hiff

end

section

variable (hfile : FileName ".dmp" p.name) (hname : p.name ≠ "") (hq : Pictures "4" .room p q)

include hfile hname hq

theorem pictures_room : ∃ picture, q = ⟨p.root, p.parts.dropLast ++ [picture]⟩ ∧ PictureName p.name picture
    ∧ (picture = swap p.name ".dmp" "_image.png" ∨ picture = swap (swap p.name ".dmp" "_image.png") "_image" "_zplane") := by
  have hpicture := pictureName_picture hfile
  have hmask := pictureName_mask hfile
  have htarget : p.rename (swap · ".dmp" "_image.png") = ⟨p.root, p.parts.dropLast ++ [swap p.name ".dmp" "_image.png"]⟩ := by
    conv_lhs => rw [parts_eq hname]
    exact rename_swap _ _ hpicture.toFileName
  obtain ⟨target, hok, hq⟩ := hq
  rw [picturePath, htarget] at hok
  obtain rfl := Except.ok.inj hok
  rcases hq with hq | ⟨-, hq⟩
  · exact ⟨_, hq, hpicture, Or.inl rfl⟩
  · rw [rename_swap _ _ hmask.toFileName] at hq
    exact ⟨_, hq, hmask, Or.inr rfl⟩

theorem encodedPath_room : encodedPath q ≠ p := by
  obtain ⟨picture, hq, hpicture, -⟩ := pictures_room hfile hname hq
  have hne := encodedPath_ne_of_made p.root p.parts.dropLast hpicture.made hpicture.toFileName hname
  rwa [← hq, ← parts_eq hname] at hne

end

/-- An image other than that of a room of version 4 has its picture moved. -/
theorem exists_moving (hfile : FileName ".dmp" p.name) (hroom : ¬ (version = "4" ∧ kind = .room))
    (hq : picturePath version kind p = .ok q) : ∃ new, PictureName p.name (swap p.name ".dmp" new)
    ∧ flatten (p.rename (swap · ".dmp" new)) (raised version) = .ok q ∧ (version = "4" → new = "_image.png") := by
  rw [picturePath] at hq
  by_cases hfour : version = "4"
  · have hobject : kind = .object := by
      cases kind with
      | room => exact absurd ⟨hfour, rfl⟩ hroom
      | object => rfl
    rw [if_pos hfour, if_pos hobject] at hq
    rw [raised, if_pos hfour]
    exact ⟨_, pictureName_picture hfile, hq, fun _ => rfl⟩
  · rw [if_neg hfour] at hq
    rw [raised, if_neg hfour]
    exact ⟨_, pictureName_layer hfile, hq, fun h => absurd h hfour⟩

theorem exists_flatten {new : String} (hpicture : PictureName p.name (swap p.name ".dmp" new))
    (hname : p.name ≠ "") (hq : flatten (p.rename (swap · ".dmp" new)) n = .ok q) :
    ∃ front dirs, p = ⟨p.root, front ++ (dirs ++ [p.name])⟩ ∧ dirs.length = n
    ∧ p.parts.drop (p.parts.length - (n + 1)) = dirs ++ [p.name]
    ∧ flatten ⟨p.root, front ++ (dirs ++ [swap p.name ".dmp" new])⟩ dirs.length = .ok q := by
  have hrename {front : List String} (hp : p = ⟨p.root, front ++ [p.name]⟩) :
      p.rename (swap · ".dmp" new) = ⟨p.root, front ++ [swap p.name ".dmp" new]⟩ := by
    conv_lhs => rw [hp]
    exact rename_swap _ _ hpicture.toFileName
  have hparts := parts_eq hname
  have hlength : n < p.parts.length := by
    have hlt := lt_of_flatten hq
    rw [hrename hparts] at hlt
    rw [hparts]
    simpa using hlt
  obtain ⟨front, dirs, hp, hdirs, hdrop⟩ := exists_moved hlength
  refine ⟨front, dirs, hp, hdirs, hdrop, ?_⟩
  rw [← append_assoc] at hp
  rw [hrename hp, ← hdirs, append_assoc] at hq
  exact hq

theorem encodedPath_iff (hvalid : ∀ n ∈ p.parts, ValidName n) (hplus : ∀ d ∈ p.parts.dropLast, '+' ∉ d.toList)
    (hends : ends p.name ".dmp" = true) (hq : Pictures version kind p q) : encodedPath q = p ↔ Homes version kind p := by
  obtain ⟨hname, hfile⟩ := name_of_ends hvalid hends
  by_cases hroom : version = "4" ∧ kind = .room
  · obtain ⟨rfl, rfl⟩ := hroom
    constructor
    · exact fun hback => absurd hback (encodedPath_room hfile hname hq)
    · exact fun hhomes => absurd ⟨rfl, rfl⟩ hhomes.1
  · obtain ⟨target, hok, hq⟩ := hq
    obtain ⟨new, hpicture, hok, hnew⟩ := exists_moving hfile hroom hok
    obtain ⟨front, dirs, hp, hdirs, hdrop, hflat⟩ := exists_flatten hpicture hname hok
    have hne : dirs ≠ [] := length_pos_iff.mp (hdirs ▸ raised_pos version)
    rw [homes_iff hp hplus hroom hdrop]
    rcases hq with rfl | ⟨hfour, rfl⟩
    · exact (encodedPath_moved hne hp hvalid hpicture hflat).2
    · obtain rfl := hnew hfour
      exact encodedPath_moved_mask hne hp hvalid hends hflat

end Homes

end ScummKit
