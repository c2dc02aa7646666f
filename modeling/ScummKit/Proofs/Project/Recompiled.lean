import ScummKit.Proofs.Project.Rejected

/-!
# Scripts that compile

What the compiler leaves in the file of a script is stored in the game and the listing is stamped, with
one exception: a script for entering or for leaving a room is compiled as a global one and has its own
tag to get. Putting a tag into a list of numbers changes nothing but the tag (`Role.retagged_retag`),
but the compiled script is a string of bytes, and into one no tag can be put. So no such script is ever
stored, whatever the compiler made of it, and its listing stays unstamped (`encode_compiled`).
-/

namespace ScummKit

open Script List

/-! ### Tags -/

/-- A list that has a tag from a position on and is otherwise the same as another one. -/
structure Retagged (start : Nat) (tag old new : List Int) : Prop where
  length : new.length = old.length
  tagged : (new.drop start).take tag.length = tag
  kept : ∀ i, i < start ∨ start + tag.length ≤ i → new[i]? = old[i]?

theorem retagged_splice {start : Nat} {tag old : List Int} (hroom : start + tag.length ≤ old.length) :
    Retagged start tag old (old.take start ++ tag ++ old.drop (start + tag.length)) := by
  have htake : (old.take start).length = start := length_take_of_le (by omega)
  constructor
  · rw [length_append, length_append, length_drop]
    omega
  · rw [append_assoc, drop_left' htake, take_left]
  · intro i hi
    rcases hi with hbefore | hbehind
    · rw [append_assoc, getElem?_append_left (by omega), getElem?_take_of_lt hbefore]
    · rw [getElem?_append_right (by rw [length_append]; omega), length_append, getElem?_drop]
      congr 1
      omega

theorem Script.Role.retagged_retag {version : String} (hversion : version = "4" ∨ version = "5")
    {r : Role} (hdoor : r = .enter ∨ r = .leave) : ∃ start tag, r.tag? version = some (start, tag) ∧ ∀ code : List Int,
    start + tag.length ≤ code.length → Retagged start tag code (r.retag version code) := by
  have htag : ∃ start tag, r.tag? version = some (start, tag) := by
    rcases hversion with rfl | rfl <;> rcases hdoor with rfl | rfl <;> exact ⟨_, _, rfl⟩
  obtain ⟨start, tag, htag⟩ := htag
  refine ⟨start, tag, htag, fun code hroom => ?_⟩
  rw [Role.retag, htag]
  exact retagged_splice hroom

namespace Site

open Work Asset

/-! ### Runs that succeed -/

section Delivered

variable {s : Site} {front : List String} {name version : String} {w v v' : Workspace}
  {source code : List UInt8} {c : Content} {time : Int}

theorem stored_of_fixed (hversion : version = "4" ∨ version = "5") (hname : Text.ends name ".txt" = true)
    (hrole : Role.ofName name ≠ .unknown) (hown : s.programs.own = false)
    (hfixed : s.programs.compiled = some code) (h : s.Ready v) (hrel : ∀ n ∈ front ++ [name], ValidName n)
    (hmiddle : v.files.lookup (s.src ++ (front ++ [middleName version name])) = some (.file c time)) :
    ∃ v', Gives (Work.compile version (compiledPath version (s.path (front ++ [name])))) v () v'
    ∧ Delivered s version front name code v v' := by
  have hout := output_middleName hversion hname hrole hrel
  have hdir : v.files.IsDir (s.src ++ front) :=
    h.sound.isDir_of_lookup ((append_assoc _ _ _).symm ▸ hmiddle) (by simp)
  have hfolder : ¬ v.files.IsDir (s.src ++ (front ++ [middleName version name])) := by
    rintro ⟨_, hfolder⟩
    rw [hmiddle] at hfolder
    cases hfolder
  -- the command is noted before the file is written
  let line := v.programs.compiler ++ " " ++ s!"-v {version} -l \"{(compiledPath version (s.path (front ++ [name]))).text}\""
  let noted : Workspace := { v with commands := v.commands ++ [line] }
  have hnoted : s.Ready noted := ⟨h.root, h.programs, h.sound, h.agree, h.tidy, h.noted⟩
  obtain ⟨written, hwrite, stored, hlookup⟩ := hnoted.exists_writeBytes hout.1 hdir hfolder code
  obtain ⟨files, hfiles, heq⟩ := gives_change.mp hwrite
  obtain rfl : files = written := congrArg Workspace.files heq
  obtain ⟨hsound, hagree⟩ := FileTree.agree_write (fun n => Watched n ∨ n = ScriptFile.codeName (Role.ofName name) name) h.sound
    (by rw [name_path]; exact hout.1)
    (by rw [name_path]; exact not_or.mpr ⟨hout.2, middleName_ne_codeName hversion hname hrole⟩) hfiles
  have hready : s.Ready { noted with files } :=
    ⟨h.root, h.programs, hsound, h.agree.trans
      ⟨hagree.base, hagree.dirs, fun rel n hn => hagree.files rel n (Or.inl hn)⟩, h.tidy, h.noted⟩
  refine ⟨{ noted with files }, ?_, hready, ?_, ?_⟩
  · have hrecord : Gives (record line) v () noted := gives_modify.mpr rfl
    rw [← compiledPath_eq hout.1] at hwrite
    rw [Work.compile, Gives, result_get, hrecord.result_bind, congrArg Programs.own h.programs, hown,
      congrArg Programs.compiled h.programs, hfixed]
    exact hwrite
  · rw [compiledPath_eq hout.1, FileTree.bytes, FileTree.content, hready.get hlookup]
    rfl
  · exact ⟨hagree.base, hagree.dirs, fun rel n hn => hagree.files rel n (Or.inr hn)⟩

/-- The compiler was run on a script and left its result. A script for entering or for leaving a room
is not stored, and nothing is stamped, although its tag could be put in. Any other script is stored in
the game, and its listing is stamped. -/
theorem encode_compiled (hversion : version = "4" ∨ version = "5")
    (hname : Text.ends name ".txt" = true) (hrole : Role.ofName name ≠ .unknown) (hready : s.Ready w)
    (hfile : w.files.lookup (s.src ++ (front ++ [name])) = some (.file c time))
    {fields : List (String × Json)} (htable : table w = .record fields)
    (hstart : Gives (sourceOf version (s.path (front ++ [name]))) w source v)
    (hrun : Gives (Work.compile version (compiledPath version (s.path (front ++ [name])))) v () v')
    (hdelivered : Delivered s version front name code v v') : if Role.ofName name = .enter ∨ Role.ofName name = .leave then
    result (ScriptFile.encode version true (s.path (front ++ [name]))) w = (.error .wrongKind, v') ∧ table v' = table w
    ∧ (∀ c time, v'.files.lookup (codeNames s front name) = some (.file c time)
    ↔ w.files.lookup (codeNames s front name) = some (.file c time))
    ∧ ∃ start tag, (Role.ofName name).tag? version = some (start, tag) ∧ ∀ numbers : List Int,
    start + tag.length ≤ numbers.length → Retagged start tag numbers ((Role.ofName name).retag version numbers)
    else ¬ v'.files.IsDir (codeNames s front name) →
    ∃ w', Gives (ScriptFile.encode version true (s.path (front ++ [name]))) w () w'
    ∧ (∃ time, w'.files.lookup (codeNames s front name) = some (.file (.data code) time))
    ∧ table w' = .record (Table.put (ledgerName (front ++ [name])) (stampOf time) fields) := by
  have h := encode_delivered hversion hname hrole hready hfile htable hstart hrun hdelivered
  split
  · rename_i hdoor
    rw [if_pos hdoor] at h
    exact ⟨h.1, h.2.1, h.2.2, Role.retagged_retag hversion hdoor⟩
  · rename_i hdoor
    rwa [if_neg hdoor] at h

def doorTree : FileTree :=
  ⟨[], [(["src"], .folder 1), (["src", "ENCD.txt"], .file (.data [63]) 2),
    (["src", "ENCD.dmp"], .file (.data [69, 78, 67, 68, 0, 0, 0, 9, 128]) 3)], 4⟩

def doorSite : Site where
  tree := doorTree
  src := ["src"]
  programs := { (default : Programs) with compiled := some [83, 67, 82, 80, 0, 0, 0, 10, 128, 128] }
  sound := ⟨by decide, by decide⟩
  valid := by decide

def doorWork : Workspace :=
  { (default : Workspace) with
    files := doorTree, programs := doorSite.programs, ledger := ⟨⟨"/", ["src"]⟩, none, false⟩,
    stamps := .record [] }

theorem ready_doorWork : doorSite.Ready doorWork := ⟨rfl, rfl, doorSite.sound, .refl _, nodup_nil, fun _ => ⟨_, rfl⟩⟩

/-- The script compiles, but the game keeps the old one and the listing is not stamped. -/
theorem encode_compiled_door : ∃ v', result (ScriptFile.encode "5" true (doorSite.path ["ENCD.txt"])) doorWork
    = (.error .wrongKind, v') ∧ v'.files.lookup ["src", "ENCD.dmp"] = some (.file (.data [69, 78, 67, 68, 0, 0, 0, 9, 128]) 3)
    ∧ table v' = .record [] := by
  have hstart : Gives (sourceOf "5" (doorSite.path ([] ++ ["ENCD.txt"]))) doorWork [63] _ :=
    Prod.ext (by decide +kernel) rfl
  have hready := ready_sourceOf (Or.inr rfl) (by decide) (by decide) ready_doorWork (by decide) hstart
  obtain ⟨⟨stored, hmiddle⟩, -⟩ :=
    stored_sourceOf (Or.inr rfl) (by decide) (by decide) ready_doorWork (by decide) hstart
  obtain ⟨v', hrun, hdelivered⟩ := stored_of_fixed (Or.inr rfl) (by decide) (by decide) rfl rfl hready (by decide) hmiddle
  have h := encode_compiled (Or.inr rfl) (by decide) (by decide) ready_doorWork rfl rfl hstart hrun hdelivered
  rw [if_pos (by decide)] at h
  obtain ⟨hfails, htable, hcode, -⟩ := h
  exact ⟨v', hfails, (hcode _ _).mpr rfl, htable⟩

end Delivered

end Site

end ScummKit
