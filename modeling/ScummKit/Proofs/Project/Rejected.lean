import ScummKit.Proofs.Project.Encoders

/-!
# Scripts that do not compile

The compiler finds a script in a file and is to put its result in the same file. Nothing else shows
whether it did: a file that is left as it was is taken for a compiled script. So the text of a script
that does not compile takes the place of the script in the game, and its listing is stamped as dealt
with (`encode_uncompiled`). Only the scripts for entering and for leaving a room are spared, since no
such script is ever stored.
-/

namespace ScummKit.Site

open Work Asset Script List

/-! ### Before and after the compiler runs -/

def sourceOf (version : String) (p : Path) : Work (List UInt8) := do
  say s!"Encoding {p.text}"
  let _ ← ScriptFile.role p
  let script ← text p
  if Role.ofName p.name = .object ∧ script.length ≤ 12 then
    giveUp s!"Empty object script {p.text} cannot be encoded"
  let source ← (Listing.unescape script : Except Fault (List UInt8))
  writeBytes (compiledPath version p) source
  return source

def codePath (p : Path) : Path := p.rename (ScriptFile.codeName (Role.ofName p.name))

def storeCode (version : String) (stamped : Bool) (p : Path) : Work Unit := do
  let code ← bytes (compiledPath version p)
  let code ← ((Role.ofName p.name).retagBytes version code : Except Fault (List UInt8))
  writeBytes (codePath p) code
  if stamped then stamp p

theorem role_bind (p : Path) (f : Role → Work α) :
    ScriptFile.role p >>= f = ScriptFile.role p >>= fun _ => f (Role.ofName p.name) := by
  unfold ScriptFile.role
  dsimp only
  split
  · rfl
  · rfl

theorem encode_eq (version : String) (stamped : Bool) (p : Path) : ScriptFile.encode version stamped p = (do
      let _ ← sourceOf version p
      compile version (compiledPath version p)
      storeCode version stamped p) := by
  unfold ScriptFile.encode sourceOf storeCode
  simp only [bind_assoc]
  apply bind_congr
  intro _
  rw [role_bind]
  apply bind_congr
  intro _
  apply bind_congr
  intro script
  split
  · rfl
  · simp only [bind_assoc]
    rfl

theorem gives_sourceOf {version : String} {p : Path} {w v : Workspace} {source : List UInt8}
    (h : Gives (sourceOf version p) w source v) :
    ∃ said files, w.files.write (compiledPath version p) (.data source) = .ok files ∧ v = { w with said, files } := by
  obtain ⟨_, v₁, hsay, h⟩ := gives_bind.mp h
  obtain rfl := gives_say.mp hsay
  obtain ⟨r, v₂, hrole, h⟩ := gives_bind.mp h
  have hsaid : ∃ said, v₂ = { w with said } := by
    unfold ScriptFile.role at hrole
    dsimp only at hrole
    split at hrole
    · obtain ⟨_, v₃, hsay, hrole⟩ := gives_bind.mp hrole
      obtain rfl := gives_say.mp hsay
      exact ⟨_, (gives_pure.mp hrole).2.symm⟩
    · exact ⟨_, (gives_pure.mp hrole).2.symm⟩
  obtain ⟨said, rfl⟩ := hsaid
  obtain ⟨script, _, htext, h⟩ := gives_bind.mp h
  obtain ⟨-, rfl⟩ := gives_look.mp htext
  have hrest : Gives (do
      let source ← Listing.unescape script
      writeBytes (compiledPath version p) source
      return source) { w with said } source v := by
    split at h
    · obtain ⟨_, _, hstop, -⟩ := gives_bind.mp h
      exact (gives_throw.mp hstop).elim
    · exact h
  obtain ⟨_, _, hsource, hrest⟩ := gives_bind.mp hrest
  obtain ⟨-, rfl⟩ := gives_lift.mp hsource
  obtain ⟨_, _, hwrite, hrest⟩ := gives_bind.mp hrest
  obtain ⟨files, hfiles, rfl⟩ := gives_change.mp hwrite
  obtain ⟨rfl, rfl⟩ := gives_pure.mp hrest
  exact ⟨said, files, hfiles, rfl⟩

/-! ### Names -/

section Names

variable {s : Site} {front : List String} {name version : String}

def middleName (version name : String) : String := Text.swap name ".txt" ((Role.ofName name).ending version)

theorem compiledPath_eq (h : ValidName (middleName version name)) :
    compiledPath version (s.path (front ++ [name])) = s.path (front ++ [middleName version name]) := by
  exact s.rename_path front name _ h

theorem codePath_eq (h : ValidName (ScriptFile.codeName (Role.ofName name) name)) : codePath (s.path (front ++ [name]))
    = s.path (front ++ [ScriptFile.codeName (Role.ofName name) name]) := by
  rw [codePath, name_path]
  exact s.rename_path front name _ h

theorem ends_codeName (r : Role) (h : Text.ends name ".txt" = true) : Text.ends (ScriptFile.codeName r name) ".dmp" = true := by
  have hends : Text.ends (Text.swap name ".txt" ".dmp") ".dmp" = true := Text.ends_swap h (by decide)
  rw [ScriptFile.codeName]
  split
  · exact Text.ends_swap hends (by decide)
  · exact hends

theorem middleName_ne_codeName (hversion : version = "4" ∨ version = "5") (hname : Text.ends name ".txt" = true)
    (hrole : Role.ofName name ≠ .unknown) : middleName version name ≠ ScriptFile.codeName (Role.ofName name) name := by
  intro heq
  have hcode := getLast?_of_ends (ends_codeName (Role.ofName name) hname) (by decide)
  have hlast : ∀ ending : String, Text.replaceAfter ".txt".toList ending.toList 0 ".txt".toList
        = ending.toList → ending.toList ≠ [] → ending.toList.getLast? ≠ ".dmp".toList.getLast? →
      Text.swap name ".txt" ending ≠ ScriptFile.codeName (Role.ofName name) name := by
    intro ending hreplace hne hother hsame
    have hends := getLast?_of_ends (Text.ends_swap hname ⟨by decide, by decide, hreplace⟩) hne
    rw [hsame, hcode] at hends
    exact hother hends.symm
  revert heq
  rw [middleName]
  generalize Role.ofName name = r at *
  rcases hversion with rfl | rfl <;> cases r
  all_goals first
    | exact absurd rfl hrole
    | exact hlast _ (by decide) (by decide) (by decide)

end Names

/-! ### Runs that miss -/

section Missed

variable {s : Site} {front : List String} {name version : String} {w v v' : Workspace}
  {source code : List UInt8} {c : Content} {time : Int}
variable {fields : List (String × Json)}

/-- A run of a compiler that stores nothing in the file it was to compile. The file of the game is not
its business either; what it stores elsewhere does not matter. -/
structure Missed (s : Site) (version name : String) (v v' : Workspace) : Prop where
  ready : s.Ready v'
  kept : FileTree.Agree (fun n => n = middleName version name ∨ n = ScriptFile.codeName (Role.ofName name) name) v.files v'.files

theorem missed_of_idle (hown : s.programs.own = false) (hidle : s.programs.compiled = none)
    (h : s.Ready v) (version name : String) (p : Path) :
    ∃ v', Gives (Work.compile version p) v () v' ∧ Missed s version name v v' := by
  apply Exists.intro
  constructor
  · rw [Work.compile, Gives, result_get, h.programs, hown, hidle]
    exact ((gives_modify (u := ())).mpr rfl).result_bind _
  · exact ⟨⟨h.root, h.programs, h.sound, h.agree, h.tidy, h.noted⟩, .refl _⟩

def codeNames (s : Site) (front : List String) (name : String) : List String :=
  s.src ++ (front ++ [ScriptFile.codeName (Role.ofName name) name])

theorem Ready.listing (h : s.Ready v) (hname : Text.ends name ".txt" = true) (hready : s.Ready w)
    (hfile : w.files.lookup (s.src ++ (front ++ [name])) = some (.file c time)) :
    v.files.lookup (s.src ++ (front ++ [name])) = some (.file c time) :=
  hready.lookup_eq h (.inr (status_of_ends hname (.inl rfl))) hfile

/-- A run of a compiler that leaves its result in the file it was to compile, and the file of the game
as it was. -/
structure Delivered (s : Site) (version : String) (front : List String) (name : String)
    (code : List UInt8) (v v' : Workspace) : Prop where
  ready : s.Ready v'
  result : v'.files.bytes (compiledPath version (s.path (front ++ [name]))) = .ok code
  kept : FileTree.Agree (· = ScriptFile.codeName (Role.ofName name) name) v.files v'.files

theorem retagBytes_eq (hversion : version = "4" ∨ version = "5") (r : Role) (code : List UInt8) :
    r.retagBytes version code = if r = .enter ∨ r = .leave then .error .wrongKind else .ok code := by
  rcases hversion with rfl | rfl <;> cases r <;> rfl

theorem exists_storeCode (hname : Text.ends name ".txt" = true) (h : s.Ready w)
    (hfile : w.files.lookup (s.src ++ (front ++ [name])) = some (.file c time))
    (hbytes : w.files.bytes (compiledPath version (s.path (front ++ [name]))) = .ok source)
    (hretag : (Role.ofName name).retagBytes version source = .ok source)
    (hfolder : ¬ w.files.IsDir (codeNames s front name)) (htable : table w = .record fields) :
    ∃ w', Gives (storeCode version true (s.path (front ++ [name]))) w () w'
    ∧ (∃ time, w'.files.lookup (codeNames s front name) = some (.file (.data source) time))
    ∧ table w' = .record (Table.put (ledgerName (front ++ [name])) (stampOf time) fields) := by
  have hrel := h.valid hfile
  have hcode : Output (ScriptFile.codeName (Role.ofName name) name) :=
    output_codeName _ (fileName hrel hname)
  have hdir : w.files.IsDir (s.src ++ front) :=
    h.sound.isDir_of_lookup ((append_assoc _ _ _).symm ▸ hfile) (by simp)
  -- the file of the game is stored
  obtain ⟨files, hstored, hlookup⟩ := h.exists_writeBytes hcode.1 hdir hfolder source
  rw [← codePath_eq hcode.1] at hstored
  have hgentle := calm_writeBytes (by rw [codePath_eq hcode.1, name_path]; exact hcode) source w ()
    _ h hstored
  have hlisting : files.lookup (s.src ++ (front ++ [name])) = some (.file c time) :=
    hgentle.ready.listing hname h hfile
  -- and its listing is stamped
  obtain ⟨w', hstamp⟩ := hgentle.ready.exists_stamp (by simp) hlisting htable
  obtain ⟨fields', stamped, hold, hnew, hfiles, -, -, -, -, -, htime⟩ :=
    hgentle.ready.gives_stamp (by simp) hstamp
  obtain rfl : fields = fields' := Json.record.inj (htable.symm.trans hold)
  refine ⟨w', ?_, ?_, ?_⟩
  · have hread : Gives (bytes (compiledPath version (s.path (front ++ [name])))) w source w :=
      gives_look.mpr ⟨hbytes, rfl⟩
    rw [storeCode, Gives, hread.result_bind, name_path, (gives_lift.mpr ⟨hretag, rfl⟩).result_bind, hstored.result_bind]
    exact hstamp
  · rw [hfiles]
    exact hlookup
  · rw [hnew, htime c time hlisting]

section Listings

variable (hversion : version = "4" ∨ version = "5") (hname : Text.ends name ".txt" = true) (hrole : Role.ofName name ≠ .unknown)

include hversion hname hrole

theorem output_middleName (hrel : ∀ n ∈ front ++ [name], ValidName n) : Output (middleName version name) :=
  output_middle (fileName hrel hname) hversion fun h => absurd h hrole

section Starting

variable (hready : s.Ready w) (hrel : ∀ n ∈ front ++ [name], ValidName n)
  (hstart : Gives (sourceOf version (s.path (front ++ [name]))) w source v)

include hready hrel hstart

theorem ready_sourceOf : s.Ready v := by
  have hmiddle := output_middleName hversion hname hrole hrel
  obtain ⟨said, files, hwrite, rfl⟩ := gives_sourceOf hstart
  rw [compiledPath_eq hmiddle.1] at hwrite
  obtain ⟨hsound, hagree⟩ := FileTree.agree_write Watched hready.sound
    (by rw [name_path]; exact hmiddle.1) (by rw [name_path]; exact hmiddle.2) hwrite
  exact ⟨hready.root, hready.programs, hsound, hready.agree.trans hagree, hready.tidy, hready.noted⟩

/-- Before the compiler runs, the file to be compiled holds the source, and the file of the game is as
it was. -/
theorem stored_sourceOf : (∃ time, v.files.lookup (s.src ++ (front ++ [middleName version name]))
    = some (.file (.data source) time)) ∧ FileTree.Agree (· = ScriptFile.codeName (Role.ofName name) name) w.files v.files := by
  have hmiddle := output_middleName hversion hname hrole hrel
  obtain ⟨said, files, hwrite, rfl⟩ := gives_sourceOf hstart
  have hdots := s.dots (valid_beside hrel hmiddle.1)
  rw [compiledPath_eq hmiddle.1] at hwrite
  obtain ⟨-, hagree⟩ := FileTree.agree_write
    (· = ScriptFile.codeName (Role.ofName name) name) hready.sound (by rw [name_path]; exact hmiddle.1)
    (by rw [name_path]; exact middleName_ne_codeName hversion hname hrole) hwrite
  refine ⟨?_, hagree⟩
  rw [path, ← hready.base, ← append_assoc s.src] at hwrite
  rw [← hready.base, ← append_assoc s.src] at hdots
  rw [← append_assoc]
  exact FileTree.lookup_of_write hdots hwrite

/-- After a run that missed, the file to be compiled still holds the source. -/
theorem Missed.delivered (hmissed : Missed s version name v v') : Delivered s version front name source v v' := by
  have hmiddle := output_middleName hversion hname hrole hrel
  obtain ⟨⟨stored, hstored⟩, -⟩ := stored_sourceOf hversion hname hrole hready hrel hstart
  refine ⟨hmissed.ready, ?_, hmissed.kept.base, hmissed.kept.dirs, fun rel n hn => hmissed.kept.files rel n (Or.inr hn)⟩
  rw [← append_assoc] at hstored
  have hhere := (hmissed.kept.files _ _ (Or.inl rfl) _ _).mpr hstored
  rw [append_assoc] at hhere
  rw [compiledPath_eq hmiddle.1, FileTree.bytes, FileTree.content, hmissed.ready.get hhere]
  rfl

/-- The file of the game is as it was before the script was looked at. -/
theorem Delivered.lookup_code (h : Delivered s version front name code v v') (c : Content) (time : Int) :
    v'.files.lookup (codeNames s front name) = some (.file c time)
    ↔ w.files.lookup (codeNames s front name) = some (.file c time) := by
  have hagree := (stored_sourceOf hversion hname hrole hready hrel hstart).2
  rw [codeNames, ← append_assoc]
  exact (h.kept.files _ _ rfl c time).trans (hagree.files _ _ rfl c time)

end Starting

/-- Whatever the compiler left is stored in the game and the listing is stamped, unless the script is one
for entering or for leaving a room. -/
theorem encode_delivered (hready : s.Ready w) (hfile : w.files.lookup (s.src ++ (front ++ [name])) = some (.file c time))
    (htable : table w = .record fields) (hstart : Gives (sourceOf version (s.path (front ++ [name]))) w source v)
    (hrun : Gives (Work.compile version (compiledPath version (s.path (front ++ [name])))) v () v')
    (hdelivered : Delivered s version front name code v v') : if Role.ofName name = .enter ∨ Role.ofName name = .leave then
    result (ScriptFile.encode version true (s.path (front ++ [name]))) w = (.error .wrongKind, v') ∧ table v' = table w
    ∧ ∀ c time, v'.files.lookup (codeNames s front name) = some (.file c time)
    ↔ w.files.lookup (codeNames s front name) = some (.file c time) else ¬ v'.files.IsDir (codeNames s front name) →
    ∃ w', Gives (ScriptFile.encode version true (s.path (front ++ [name]))) w () w'
    ∧ (∃ time, w'.files.lookup (codeNames s front name) = some (.file (.data code) time))
    ∧ table w' = .record (Table.put (ledgerName (front ++ [name])) (stampOf time) fields) := by
  have hrest : result (ScriptFile.encode version true (s.path (front ++ [name]))) w
      = result (storeCode version true (s.path (front ++ [name]))) v' := by
    rw [encode_eq, hstart.result_bind, hrun.result_bind]
  have hsame : table v' = table w := by
    obtain ⟨said, files, -, rfl⟩ := gives_sourceOf hstart
    exact congrArg (fun r => r.1.own.getD r.2.1) (apart_compile _ _ _ _ _ hrun)
  have hretag := retagBytes_eq hversion (Role.ofName name) code
  split
  · rename_i hdoor
    refine ⟨?_, hsame, hdelivered.lookup_code hversion hname hrole hready (hready.valid hfile) hstart⟩
    have hread : Gives (bytes (compiledPath version (s.path (front ++ [name])))) v' code v' :=
      gives_look.mpr ⟨hdelivered.result, rfl⟩
    rw [if_pos hdoor] at hretag
    rw [hrest, storeCode, hread.result_bind, name_path, result_bind, result_lift, hretag]
  · rename_i hdoor
    intro hfolder
    rw [if_neg hdoor] at hretag
    obtain ⟨w', hgives, hcode, hstamped⟩ := exists_storeCode hname hdelivered.ready
      (hdelivered.ready.listing hname hready hfile) hdelivered.result hretag hfolder (hsame.trans htable)
    exact ⟨w', hrest.trans hgives, hcode, hstamped⟩

/-- The compiler was run on a script and missed. A script for entering or for leaving a room is not
stored, and nothing is stamped. Of any other script the source takes the place of the compiled script
in the game, and its listing is stamped. -/
theorem encode_uncompiled (hready : s.Ready w) (hfile : w.files.lookup (s.src ++ (front ++ [name])) = some (.file c time))
    {fields : List (String × Json)} (htable : table w = .record fields)
    (hstart : Gives (sourceOf version (s.path (front ++ [name]))) w source v)
    (hrun : Gives (Work.compile version (compiledPath version (s.path (front ++ [name])))) v () v')
    (hmissed : Missed s version name v v') : if Role.ofName name = .enter ∨ Role.ofName name = .leave then
    result (ScriptFile.encode version true (s.path (front ++ [name]))) w = (.error .wrongKind, v') ∧ table v' = table w
    ∧ ∀ c time, v'.files.lookup (codeNames s front name) = some (.file c time)
    ↔ w.files.lookup (codeNames s front name) = some (.file c time) else ¬ v'.files.IsDir (codeNames s front name) →
    ∃ w', Gives (ScriptFile.encode version true (s.path (front ++ [name]))) w () w'
    ∧ (∃ time, w'.files.lookup (codeNames s front name) = some (.file (.data source) time))
    ∧ table w' = .record (Table.put (ledgerName (front ++ [name])) (stampOf time) fields) :=
  encode_delivered hversion hname hrole hready hfile htable hstart hrun
    (hmissed.delivered hversion hname hrole hready (hready.valid hfile) hstart)

end Listings

def nonsenseTree : FileTree :=
  ⟨[], [(["src"], .folder 1), (["src", "LSCR_200.txt"], .file (.data [63]) 2),
    (["src", "LSCR_200.dmp"], .file (.data [76, 83, 67, 82, 0, 0, 0, 9, 200]) 3)], 4⟩

def nonsenseSite : Site where
  tree := nonsenseTree
  src := ["src"]
  programs := default
  sound := ⟨by decide, by decide⟩
  valid := by decide

def nonsenseWork : Workspace :=
  { (default : Workspace) with
    files := nonsenseTree, ledger := ⟨⟨"/", ["src"]⟩, none, false⟩, stamps := .record [] }

theorem ready_nonsenseWork : nonsenseSite.Ready nonsenseWork :=
  ⟨rfl, rfl, nonsenseSite.sound, .refl _, nodup_nil, fun _ => ⟨_, rfl⟩⟩

/-- The listing takes the place of the script. -/
theorem encode_uncompiled_nonsense :
    ∃ w', Gives (ScriptFile.encode "5" true (nonsenseSite.path ["LSCR_200.txt"])) nonsenseWork () w'
    ∧ (∃ time, w'.files.lookup ["src", "LSCR_200.dmp"] = some (.file (.data [63]) time))
    ∧ table w' = .record [("LSCR_200.txt", stampOf 2)] := by
  have hstart : Gives (sourceOf "5" (nonsenseSite.path ([] ++ ["LSCR_200.txt"]))) nonsenseWork [63] _ :=
    Prod.ext (by decide +kernel) rfl
  have hready := ready_sourceOf (Or.inr rfl) (by decide) (by decide) ready_nonsenseWork (by decide) hstart
  obtain ⟨v', hrun, hmissed⟩ := missed_of_idle rfl rfl hready "5" "LSCR_200.txt"
    (compiledPath "5" (nonsenseSite.path ([] ++ ["LSCR_200.txt"])))
  have h := encode_uncompiled (Or.inr rfl) (by decide) (by decide) ready_nonsenseWork rfl rfl hstart hrun hmissed
  rw [if_neg (by decide)] at h
  apply h
  rintro ⟨time, hfolder⟩
  have hdelivered := hmissed.delivered (Or.inr rfl) (by decide) (by decide) ready_nonsenseWork (by decide) hstart
  have hcode := (hdelivered.lookup_code (Or.inr rfl) (by decide) (by decide) ready_nonsenseWork (by decide) hstart _ _).mpr rfl
  rw [hcode] at hfolder
  cases hfolder

end Missed

end ScummKit.Site
