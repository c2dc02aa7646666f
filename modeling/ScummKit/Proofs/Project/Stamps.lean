import ScummKit.Proofs.Json.Stored
import ScummKit.Proofs.Project.Names

/-!
# Time stamps of files

`Gives x w a w'` says that work succeeds on a workspace, gives `a` and leaves another workspace.

A `Site` is a folder of a tree in which a ledger keeps its stamps. A file of the site is `Current` if
the ledger has a stamp for it that is not older than the file. Stamps of other files and files with
names that are not watched do not matter to that, so most work is `Calm`: what is current stays so.
-/

namespace ScummKit

open List

variable {x : Work α} {f : α → Work β} {u : Unit}
variable {name : String} {p : Path} {front : List String} (e : Except Fault α) {separator : Char}

namespace Work

variable {a : α}

/-! ### What work gives -/

/-- The result of work on a workspace, and what it leaves of the workspace. -/
def result (x : Work α) (w : Workspace) : Except Fault α × Workspace := x.run.run w

/-- Work succeeds on `w`, gives `a` and leaves `w'`. -/
def Gives (x : Work α) (w : Workspace) (a : α) (w' : Workspace) : Prop := result x w = (.ok a, w')

variable {w w' : Workspace}

theorem result_bind (x : Work α) (f : α → Work β) (w : Workspace) : result (x >>= f) w = match result x w with
      | (.ok a, v) => result (f a) v
      | (.error e, v) => (.error e, v) := by
  rw [result, ExceptT.run_bind, StateT.run_bind, result]
  rcases x.run.run w with ⟨r, v⟩
  cases r <;> rfl

theorem Gives.result_bind (h : Gives x w a w') (f : α → Work β) : result (x >>= f) w = result (f a) w' := by
  rw [Work.result_bind, h]

theorem gives_bind {b : β} : Gives (x >>= f) w b w' ↔ ∃ a v, Gives x w a v ∧ Gives (f a) v b w' := by
  rw [Gives, result_bind]
  rcases hx : result x w with ⟨r, v⟩
  cases r with
  | error e => simp [Gives, hx]
  | ok a => simp [Gives, hx]

theorem gives_pure {b : α} : Gives (pure a) w b w' ↔ a = b ∧ w = w' := by
  change (Except.ok a, w) = (.ok b, w') ↔ _
  simp

theorem gives_get {v : Workspace} : Gives get w v w' ↔ w = v ∧ w = w' := by
  change (Except.ok w, w) = (.ok v, w') ↔ _
  simp

theorem gives_modify {f : Workspace → Workspace} : Gives (modify f) w u w' ↔ f w = w' := by
  change (Except.ok (), f w) = (.ok u, w') ↔ _
  simp

theorem gives_throw {e : Fault} : Gives (throw e) w a w' ↔ False := by
  change (Except.error e, w) = (.ok a, w') ↔ _
  simp

theorem result_get (f : Workspace → Work β) (w : Workspace) : result (get >>= f) w = result (f w) w :=
  (gives_get.mpr ⟨rfl, rfl⟩).result_bind f

theorem result_lift (w : Workspace) : result (liftM e) w = (e, w) := by cases e <;> rfl

theorem gives_lift {e : Except Fault α} : Gives (liftM e) w a w' ↔ e = .ok a ∧ w = w' := by
  rw [Gives, result_lift]
  simp

theorem result_look (f : FileTree → Except Fault α) (w : Workspace) : result (look f) w = (f w.files, w) := by
  rw [look, result_get]
  cases f w.files <;> rfl

theorem gives_look {f : FileTree → Except Fault α} : Gives (look f) w a w' ↔ f w.files = .ok a ∧ w = w' := by
  rw [Gives, result_look]
  simp

theorem gives_ask {f : FileTree → α} : Gives (ask f) w a w' ↔ f w.files = a ∧ w = w' := by
  change (Except.ok (f w.files), w) = (.ok a, w') ↔ _
  simp

theorem result_ask (f : FileTree → α) (g : α → Work β) (w : Workspace) : result (ask f >>= g) w = result (g (f w.files)) w :=
  (gives_ask.mpr ⟨rfl, rfl⟩).result_bind g

theorem gives_change {f : FileTree → Except Fault FileTree} :
    Gives (change f) w u w' ↔ ∃ files, f w.files = .ok files ∧ { w with files } = w' := by
  simp only [change, gives_bind, gives_look, gives_modify]
  constructor
  · rintro ⟨files, v, ⟨h, rfl⟩, rfl⟩
    exact ⟨files, h, rfl⟩
  · rintro ⟨files, h, rfl⟩
    exact ⟨files, w, ⟨h, rfl⟩, rfl⟩

theorem gives_say {line : String} : Gives (say line) w u w' ↔ { w with said := w.said ++ line ++ "\n" } = w' := gives_modify

def table (w : Workspace) : Json := w.ledger.own.getD w.stamps

theorem gives_stamps {t : Json} : Gives stamps w t w' ↔ table w = t ∧ w = w' := by
  change (Except.ok (table w), w) = (.ok t, w') ↔ _
  simp

theorem gives_setStamps {t : Json} : Gives (setStamps t) w u w' ↔ (match w.ledger.own with
      | some _ => { w with ledger := { w.ledger with own := some t } }
      | none => { w with stamps := t }) = w' := gives_modify

theorem gives_stampName : Gives (stampName p) w name w' ↔ (∃ q, p.relativeTo w.ledger.root = .ok q ∧ q.text = name) ∧ w = w' := by
  simp only [stampName, gives_bind, gives_get, gives_lift, gives_pure]
  constructor
  · rintro ⟨v, _, ⟨rfl, rfl⟩, q, _, ⟨hq, rfl⟩, hname, rfl⟩
    exact ⟨⟨q, hq, hname⟩, rfl⟩
  · rintro ⟨⟨q, hq, hname⟩, rfl⟩
    exact ⟨w, w, ⟨rfl, rfl⟩, q, w, ⟨hq, rfl⟩, hname, rfl⟩

/-! ### Work that only looks -/

/-- The same workspace on another walk. -/
def walking (c : Crawl) (q : List Path) (w : Workspace) : Workspace := { w with crawl := c, queue := q }

/-- Work that changes nothing, and to which the walk does not matter. -/
def Looks (x : Work α) : Prop := ∀ w, (result x w).2 = w ∧ ∀ c q, (result x (walking c q w)).1 = (result x w).1

theorem Looks.eq (hx : Looks x) (h : Gives x w a w') : w = w' := by
  have hw := (hx w).1
  rw [h] at hw
  exact hw.symm

theorem Looks.gives (hx : Looks x) (h : (result x w).1 = .ok a) : Gives x w a w := Prod.ext h (hx w).1

@[grind ←] theorem looks_pure (a : α) : Looks (pure a) := fun _ => ⟨rfl, fun _ _ => rfl⟩

@[grind ←] theorem looks_throw (e : Fault) : Looks (throw e : Work α) := fun _ => ⟨rfl, fun _ _ => rfl⟩

@[grind ←] theorem looks_ask (f : FileTree → α) : Looks (ask f) := fun _ => ⟨rfl, fun _ _ => rfl⟩

@[grind ←] theorem looks_lift : Looks (liftM e) := by
  intro w
  simp [result_lift]

@[grind ←] theorem looks_look (f : FileTree → Except Fault α) : Looks (look f) := by
  intro w
  simp [result_look, walking]

@[grind ←] theorem looks_bind (hx : Looks x) (hf : ∀ a, Looks (f a)) : Looks (x >>= f) := by
  have hpair (v : Workspace) {r : Except Fault α} (h : (result x v).1 = r) : result x v = (r, v) :=
    Prod.ext h (hx v).1
  intro w
  cases h : (result x w).1 with
  | error e => simp [result_bind, hpair w h, fun c q => hpair (walking c q w) (((hx w).2 c q).trans h)]
  | ok a =>
    simp only [result_bind, hpair w h, fun c q => hpair (walking c q w) (((hx w).2 c q).trans h)]
    exact hf a w

theorem looks_get {f : Workspace → Work β} (hsame : ∀ c q w, f (walking c q w) = f w)
    (hf : ∀ w, Looks (f w)) : Looks (get >>= f) := by
  intro w
  simp only [result_get, hsame]
  exact hf w w

@[grind ←] theorem looks_stamps : Looks stamps := looks_get (fun _ _ _ => rfl) fun _ => looks_pure _

@[grind ←] theorem looks_stampName (p : Path) : Looks (stampName p) :=
  looks_get (fun _ _ _ => rfl) fun _ => looks_bind (looks_lift _) fun _ => looks_pure _

@[grind ←] theorem looks_timeOf (p : Path) : Looks (timeOf p) := by grind [timeOf]

theorem looks_outdated (p : Path) : Looks (outdated p) := by grind [outdated]

end Work

/-! ### Names in a ledger -/

theorem Text.splitBy_cons_of_not_mem {xs : List Char} (h : separator ∉ xs)
    (ys : List Char) : splitBy separator (xs ++ separator :: ys) = xs :: splitBy separator ys := by
  induction xs with
  | nil => simp [splitBy]
  | cons x xs ih =>
    rw [mem_cons, not_or] at h
    rw [cons_append, splitBy, if_neg (by simpa using Ne.symm h.1), ih h.2]

theorem Text.splitBy_intercalate {pieces : List (List Char)} (hne : pieces ≠ [])
    (h : ∀ piece ∈ pieces, separator ∉ piece) : splitBy separator ([separator].intercalate pieces) = pieces := by
  induction pieces with
  | nil => exact absurd rfl hne
  | cons piece pieces ih =>
    have hpiece := h piece mem_cons_self
    cases pieces with
    | nil =>
      rw [intercalate_singleton]
      exact splitBy_of_not_mem hpiece
    | cons next pieces =>
      have hrest := ih (cons_ne_nil next pieces) fun k hk => h k (mem_cons_of_mem piece hk)
      rw [intercalate_cons_cons, append_assoc, singleton_append, splitBy_cons_of_not_mem hpiece, hrest]

theorem split_intercalate {names : List String} (hne : names ≠ [])
    (h : ∀ n ∈ names, '/' ∉ n.toList) : Text.split ("/".intercalate names) '/' = names := by
  have hchars : Text.splitBy '/' (['/'].intercalate (names.map String.toList)) = names.map String.toList := by
    apply Text.splitBy_intercalate (by simpa using hne)
    intro piece hpiece
    obtain ⟨n, hn, rfl⟩ := mem_map.mp hpiece
    exact h n hn
  rw [Text.split, String.toList_intercalate]
  change (Text.splitBy '/' (['/'].intercalate _)).map _ = _
  rw [hchars]
  simp

def ledgerName (rel : List String) : String := "/".intercalate rel

theorem ledgerName_inj {rel rel' : List String} (hne : rel ≠ []) (hne' : rel' ≠ [])
    (h : ∀ n ∈ rel, ValidName n) (h' : ∀ n ∈ rel', ValidName n) (heq : ledgerName rel = ledgerName rel') : rel = rel' := by
  rw [← split_intercalate hne fun n hn => (h n hn).2.2.2, ← split_intercalate hne' fun n hn => (h' n hn).2.2.2]
  exact congrArg (Text.split · '/') heq

/-! ### Sites -/

/-- A folder of a tree, named from the base of the tree on, and the programs that work on it. -/
structure Site where
  tree : FileTree
  src : List String
  programs : Programs
  sound : tree.Sound
  valid : ∀ n ∈ tree.base ++ src, ValidName n

namespace Site

open Work Asset

variable {c : Content} {time : Int}

def root (s : Site) : Path := ⟨"/", s.tree.base ++ s.src⟩

def path (s : Site) (rel : List String) : Path := ⟨"/", s.tree.base ++ (s.src ++ rel)⟩

/-- The ledger of a workspace is that of the site, its programs are those of the site, and the watched
files of the site are as they were. A ledger in which a stamp was set has a table with a row for
each name. -/
structure Ready (s : Site) (w : Workspace) : Prop where
  root : w.ledger.root = s.root
  programs : w.programs = s.programs
  sound : w.files.Sound
  agree : FileTree.Agree Watched s.tree w.files
  tidy : (table w).Tidy
  noted : w.ledger.changed = true → ∃ fields, table w = .record fields

def stampOf (time : Int) : Json := .real ⟨time < 0, time.natAbs, 0⟩

/-- A file of the site is stamped with a time that is not before its own. -/
def Current (s : Site) (w : Workspace) (rel : List String) : Prop :=
  ∃ c time fields v, w.files.lookup (s.src ++ rel) = some (.file c time)
    ∧ table w = .record fields ∧ Table.find? (ledgerName rel) fields = some v
    ∧ later (stampOf time) v = .ok false

variable {s : Site} {w w' : Workspace} {rel : List String}

theorem dots (s : Site) (hrel : ∀ n ∈ rel, ValidName n) : ".." ∉ s.tree.base ++ (s.src ++ rel) := by
  intro hmem
  rw [← append_assoc] at hmem
  rcases mem_append.mp hmem with hmem | hmem
  · exact (s.valid _ hmem).2.2.1 rfl
  · exact (hrel _ hmem).2.2.1 rfl

theorem relativeTo_path (s : Site) (rel : List String) : (s.path rel).relativeTo s.root = .ok ⟨"", rel⟩ := by
  rw [Path.relativeTo, if_pos, path, root]
  · simp [← append_assoc]
  · simp [path, root]

section

variable (h : s.Ready w)

include h

theorem Ready.base : w.files.base = s.tree.base := h.agree.base

theorem Ready.valid {n : Node} (hn : w.files.lookup (s.src ++ rel) = some n) : ∀ name ∈ rel, ValidName name :=
  fun name hname => h.sound.valid hn name (mem_append_right _ hname)

theorem Ready.lookup_tree (hw : Watched name) : w.files.lookup (s.src ++ (front ++ [name])) = some (.file c time)
    ↔ s.tree.lookup (s.src ++ (front ++ [name])) = some (.file c time) := by
  rw [← append_assoc]
  exact h.agree.files _ name hw c time

theorem Ready.lookup_eq (h' : s.Ready w') (hw : Watched name)
    (hfile : w.files.lookup (s.src ++ (front ++ [name])) = some (.file c time)) :
    w'.files.lookup (s.src ++ (front ++ [name])) = some (.file c time) := (h'.lookup_tree hw).mpr ((h.lookup_tree hw).mp hfile)

theorem Ready.get? (hrel : ∀ n ∈ rel, ValidName n) : w.files.get? (s.path rel) = w.files.lookup (s.src ++ rel) := by
  have hdots := s.dots hrel
  rw [path]
  rw [← h.base] at *
  exact FileTree.get?_eq h.sound hdots

theorem Ready.get {n : Node} (hn : w.files.lookup (s.src ++ rel) = some n) : w.files.get (s.path rel) = .ok n := by
  have hdots := s.dots (h.valid hn)
  rw [path]
  rw [← h.base] at *
  exact FileTree.get_of_lookup h.sound hdots hn

theorem Ready.gives_stampName (hne : rel ≠ []) : Gives (stampName (s.path rel)) w name w' ↔ ledgerName rel = name ∧ w = w' := by
  have htext : (⟨"", rel⟩ : Path).text = ledgerName rel := by
    rw [Path.text, if_neg (by simp [hne])]
    exact String.empty_append
  rw [Work.gives_stampName, h.root, relativeTo_path]
  constructor
  · rintro ⟨⟨q, hq, rfl⟩, rfl⟩
    cases hq
    exact ⟨htext.symm, rfl⟩
  · rintro ⟨rfl, rfl⟩
    exact ⟨⟨_, rfl, htext⟩, rfl⟩

theorem Ready.gives_timeOf {j : Json} (hfile : w.files.lookup (s.src ++ rel) = some (.file c time)) :
    Gives (timeOf (s.path rel)) w j w' ↔ stampOf time = j ∧ w = w' := by
  have hfolder : w.files.isFolder (s.path rel) = false := by
    rw [FileTree.isFolder, h.get? (h.valid hfile), hfile]
  rw [timeOf, gives_bind]
  simp only [gives_ask, hfolder]
  constructor
  · rintro ⟨_, _, ⟨rfl, rfl⟩, hlook⟩
    simp only [Bool.false_eq_true, if_false, gives_bind, gives_look, gives_pure, h.get hfile] at hlook
    obtain ⟨n, _, ⟨hn, rfl⟩, hj, rfl⟩ := hlook
    cases hn
    exact ⟨hj, rfl⟩
  · rintro ⟨rfl, rfl⟩
    refine ⟨false, w, ⟨rfl, rfl⟩, ?_⟩
    simp only [Bool.false_eq_true, if_false, gives_bind, gives_look, gives_pure, h.get hfile]
    exact ⟨_, w, ⟨rfl, rfl⟩, rfl, rfl⟩

/-- A file is taken for one that has not changed if and only if it is current. -/
theorem Ready.gives_outdated_iff (hne : rel ≠ []) (hfile : w.files.lookup (s.src ++ rel) = some (.file c time)) :
    Gives (outdated (s.path rel)) w false w' ↔ s.Current w rel ∧ w = w' := by
  have hcurrent : s.Current w rel ↔ knows (ledgerName rel) (table w) = .ok true
      ∧ ∃ v, (table w).field (ledgerName rel) = .ok v ∧ later (stampOf time) v = .ok false := by
    -- only a record has a field to be asked for
    cases htable : table w with
    | record fields =>
      cases hfind : Table.find? (ledgerName rel) fields
      all_goals simp [Current, hfile, htable, hfind, knows, Table.has, Json.field]
    | _ => simp [Current, htable, Json.field]
  simp only [outdated, gives_bind, h.gives_stampName hne, gives_stamps, gives_lift, and_assoc, exists_and_left, exists_eq_left', hcurrent]
  rcases knows (ledgerName rel) (table w) with fault | _ | _
  · simp
  · simp [gives_pure]
  · simp [gives_bind, gives_lift, h.gives_timeOf hfile, and_assoc, and_comm]

theorem Ready.gives_outdated (hne : rel ≠ []) (hcurrent : s.Current w rel) : Gives (outdated (s.path rel)) w false w := by
  obtain ⟨c, time, -, -, hfile, -⟩ := id hcurrent
  exact (h.gives_outdated_iff hne hfile).mpr ⟨hcurrent, rfl⟩

end

/-! ### Calm work -/

/-- What work leaves alone. -/
structure Gentle (s : Site) (w w' : Workspace) : Prop where
  ready : s.Ready w'
  current : ∀ rel name, Watched name → s.Current w (rel ++ [name]) → s.Current w' (rel ++ [name])
  changed : w.ledger.changed = true → w'.ledger.changed = true
  crawl : w'.crawl = w.crawl
  queue : w'.queue = w.queue

theorem Ready.gentle (h : s.Ready w) : s.Gentle w w := ⟨h, fun _ _ _ hc => hc, id, rfl, rfl⟩

theorem Gentle.trans {w'' : Workspace} (h : s.Gentle w w') (h' : s.Gentle w' w'') : s.Gentle w w'' :=
  ⟨h'.ready, fun rel name hw hc => h'.current rel name hw (h.current rel name hw hc),
    fun hc => h'.changed (h.changed hc), h'.crawl.trans h.crawl, h'.queue.trans h.queue⟩

def Calm (s : Site) (x : Work α) : Prop := ∀ w a w', s.Ready w → Gives x w a w' → s.Gentle w w'

@[grind ←] theorem calm_of_looks (hx : Looks x) : s.Calm x := by
  intro w a w' h hg
  obtain rfl := hx.eq hg
  exact h.gentle

@[grind ←] theorem calm_bind (hx : s.Calm x) (hf : ∀ a, s.Calm (f a)) : s.Calm (x >>= f) := by
  intro w b w' h hg
  obtain ⟨a, v, ha, hb⟩ := gives_bind.mp hg
  have hv := hx w a v h ha
  exact hv.trans (hf a v b w' hv.ready hb)

/-- Work that leaves the ledger alone, and watched files as they are in the site. -/
theorem Ready.kept (h : s.Ready w) (hsound : w'.files.Sound) (hagree : FileTree.Agree Watched s.tree w'.files)
    (hledger : w'.ledger = w.ledger) (hstamps : w'.stamps = w.stamps) (hprograms : w'.programs = w.programs) :
    s.Ready w' ∧ ∀ front name, Watched name → s.Current w (front ++ [name]) → s.Current w' (front ++ [name]) := by
  have htable : table w' = table w := by rw [table, table, hledger, hstamps]
  have hready : s.Ready w' := by
    refine ⟨hledger ▸ h.root, hprograms.trans h.programs, hsound, hagree, htable ▸ h.tidy, ?_⟩
    rw [hledger, htable]
    exact h.noted
  refine ⟨hready, ?_⟩
  rintro front name hw ⟨c, time, fields, v, hfile, hrest⟩
  exact ⟨c, time, fields, v, h.lookup_eq hready hw hfile, htable ▸ hrest⟩

/-- What of a workspace is neither files nor messages. -/
def rest (w : Workspace) : Ledger × Json × Programs × Crawl × List Path :=
  (w.ledger, w.stamps, w.programs, w.crawl, w.queue)

theorem Ready.gentle_of (h : s.Ready w) (hsound : w'.files.Sound) (hagree : FileTree.Agree Watched s.tree w'.files)
    (hrest : rest w' = rest w) : s.Gentle w w' := by
  simp only [rest, Prod.mk.injEq] at hrest
  obtain ⟨hledger, hstamps, hprograms, hcrawl, hqueue⟩ := hrest
  obtain ⟨hready, hcurrent⟩ := h.kept hsound hagree hledger hstamps hprograms
  exact ⟨hready, hcurrent, by rw [hledger]; exact id, hcrawl, hqueue⟩

theorem calm_modify {f : Workspace → Workspace}
    (hf : ∀ w, (f w).files = w.files ∧ rest (f w) = rest w) : s.Calm (modify f : Work Unit) := by
  intro w a w' h hg
  obtain rfl := gives_modify.mp hg
  obtain ⟨hfiles, hrest⟩ := hf w
  exact h.gentle_of (hfiles ▸ h.sound) (hfiles ▸ h.agree) hrest

@[grind ←] theorem calm_say (line : String) : s.Calm (say line) := calm_modify fun _ => ⟨rfl, rfl⟩

@[grind ←] theorem calm_writeBytes (hp : Output p.name) (bs : List UInt8) : s.Calm (writeBytes p bs) := by
  intro w a w' h hg
  obtain ⟨files, hwrite, rfl⟩ := gives_change.mp hg
  obtain ⟨hsound, hagree⟩ := FileTree.agree_write Watched h.sound hp.1 hp.2 hwrite
  exact h.gentle_of hsound (h.agree.trans hagree) rfl

theorem Ready.exists_writeBytes (h : s.Ready w) (hname : ValidName name)
    (hdir : w.files.IsDir (s.src ++ front)) (hnot : ¬ w.files.IsDir (s.src ++ (front ++ [name])))
    (bs : List UInt8) : ∃ files, Gives (writeBytes (s.path (front ++ [name])) bs) w () { w with files }
    ∧ ∃ time, files.lookup (s.src ++ (front ++ [name])) = some (.file (.data bs) time) := by
  have hrel : ∀ n ∈ front ++ [name], ValidName n := by
    obtain ⟨time, hfolder⟩ := hdir
    exact forall_mem_append.mpr ⟨h.valid hfolder, forall_mem_singleton.mpr hname⟩
  have hdots := s.dots hrel
  rw [← h.base, ← append_assoc s.src] at hdots
  rw [← append_assoc] at hnot
  obtain ⟨files, hwrite⟩ : ∃ files, w.files.write ⟨"/", w.files.base ++ (s.src ++ front ++ [name])⟩ (.data bs)
      = .ok files := ⟨_, FileTree.write_of_isDir _ h.sound hdots hdir hnot⟩
  refine ⟨files, gives_change.mpr ⟨files, ?_, rfl⟩, ?_⟩
  · rw [path, ← h.base, ← append_assoc s.src]
    exact hwrite
  · rw [← append_assoc]
    exact FileTree.lookup_of_write hdots hwrite

@[grind ←] theorem calm_writeOctets (hp : Output p.name) (xs : List Json) : s.Calm (writeOctets p xs) :=
  calm_bind (calm_writeBytes hp _) fun _ =>
    calm_bind (calm_of_looks (looks_lift _)) fun _ => calm_writeBytes hp _

/-! ### Stamping -/

theorem later_self (time : Int) : later (stampOf time) (stampOf time) = .ok false := by
  have hless : ∀ r : Ratio, r.less r = false := fun r => decide_eq_false (Int.lt_irrefl _)
  rw [later, stampOf, Json.ratio]
  · simp only [Bind.bind, Except.bind, hless]
    rfl
  · exact fun h => nomatch h
  · exact fun _ h => nomatch h

theorem Ready.gives_stamp (h : s.Ready w) (hne : rel ≠ [])
    (hg : Gives (stamp (s.path rel)) w u w') : ∃ fields v, table w = .record fields
    ∧ table w' = .record (Table.put (ledgerName rel) v fields)
    ∧ w'.files = w.files ∧ w'.ledger.root = w.ledger.root ∧ w'.programs = w.programs
    ∧ w'.ledger.changed = true ∧ w'.crawl = w.crawl ∧ w'.queue = w.queue
    ∧ ∀ c time, w.files.lookup (s.src ++ rel) = some (.file c time) → v = stampOf time := by
  rw [stamp, gives_bind] at hg
  obtain ⟨name, _, hname, hg⟩ := hg
  obtain ⟨rfl, rfl⟩ := (h.gives_stampName hne).mp hname
  obtain ⟨v, v', hv, hg⟩ := gives_bind.mp hg
  obtain rfl := (looks_timeOf _).eq hv
  obtain ⟨_, _, ht, hg⟩ := gives_bind.mp hg
  obtain ⟨rfl, rfl⟩ := gives_stamps.mp ht
  obtain ⟨new, _, hnew, hg⟩ := gives_bind.mp hg
  obtain ⟨hnew, rfl⟩ := gives_lift.mp hnew
  obtain ⟨_, w₁, hset, hflag⟩ := gives_bind.mp hg
  rw [gives_setStamps] at hset
  rw [gives_modify] at hflag
  have hfields : ∃ fields, table w = .record fields ∧ new = .record (Table.put (ledgerName rel) v fields) := by
    cases htable : table w with
    | record fields => rw [htable] at hnew; cases hnew; exact ⟨fields, rfl, rfl⟩
    | _ => rw [htable, withField] at hnew; cases hnew; simp
  obtain ⟨fields, hold, rfl⟩ := hfields
  refine ⟨fields, v, hold, ?_⟩
  have htime : ∀ c time, w.files.lookup (s.src ++ rel) = some (.file c time) → v = stampOf time :=
    fun c time hfile => ((h.gives_timeOf hfile).mp hv).1.symm
  subst hflag
  cases hown : w.ledger.own with
  | none =>
    rw [hown] at hset
    subst hset
    refine ⟨?_, rfl, rfl, rfl, rfl, rfl, rfl, htime⟩
    simp [table, hown]
  | some _ =>
    rw [hown] at hset
    subst hset
    exact ⟨rfl, rfl, rfl, rfl, rfl, rfl, rfl, htime⟩

theorem Ready.exists_stamp (h : s.Ready w) (hne : rel ≠ [])
    (hfile : w.files.lookup (s.src ++ rel) = some (.file c time)) {fields : List (String × Json)}
    (htable : table w = .record fields) : ∃ w', Gives (stamp (s.path rel)) w () w' := by
  have hnew : withField (ledgerName rel) (stampOf time) (table w)
      = .ok (.record (Table.put (ledgerName rel) (stampOf time) fields)) := by
    rw [htable]
    rfl
  apply Exists.intro
  rw [stamp, Gives, ((h.gives_stampName hne).mpr ⟨rfl, rfl⟩).result_bind,
    ((h.gives_timeOf hfile).mpr ⟨rfl, rfl⟩).result_bind, (gives_stamps.mpr ⟨rfl, rfl⟩).result_bind,
    (gives_lift.mpr ⟨hnew, rfl⟩).result_bind]
  exact gives_modify.mpr rfl

theorem calm_stamp (hne : rel ≠ []) (hrel : ∀ n ∈ rel, ValidName n) : s.Calm (stamp (s.path rel)) := by
  intro w u w' h hg
  obtain ⟨fields, v, hold, hnew, hfiles, hroot, hprograms, hchanged, hcrawl, hqueue, htime⟩ :=
    h.gives_stamp hne hg
  have htidy : (table w').Tidy := by
    have htidy := h.tidy
    rw [hold] at htidy
    rw [hnew]
    exact Table.nodup_put _ _ htidy
  refine ⟨⟨hroot.trans h.root, hprograms.trans h.programs, hfiles ▸ h.sound, hfiles ▸ h.agree, htidy,
    fun _ => ⟨_, hnew⟩⟩, ?_, fun _ => hchanged, hcrawl, hqueue⟩
  rintro front name - ⟨c, time, fields', v', hfile, htable, hfind, hlater⟩
  rw [hold] at htable
  cases htable
  by_cases hsame : rel = front ++ [name]
  · -- the stamp of the file itself is renewed
    subst hsame
    obtain rfl := htime c time hfile
    refine ⟨c, time, _, stampOf time, ?_, hnew, ?_, later_self time⟩
    · rw [hfiles]
      exact hfile
    · rw [Table.find?_put, if_pos rfl]
  · have hother : ledgerName rel ≠ ledgerName (front ++ [name]) := fun heq =>
      hsame (ledgerName_inj hne (by simp) hrel (h.valid hfile) heq)
    refine ⟨c, time, _, v', ?_, hnew, ?_, hlater⟩
    · rw [hfiles]
      exact hfile
    · rw [Table.find?_put, if_neg hother, hfind]

def HasFile (s : Site) (w : Workspace) (rel : List String) : Prop :=
  ∃ c time, w.files.lookup (s.src ++ rel) = some (.file c time)

theorem Gentle.hasFile (h : s.Ready w) (hg : s.Gentle w w') (hw : Watched name) (hfile : s.HasFile w (front ++ [name])) :
    s.HasFile w' (front ++ [name]) := by
  obtain ⟨c, time, hfile⟩ := hfile
  exact ⟨c, time, h.lookup_eq hg.ready hw hfile⟩

def Settles (s : Site) (x : Work α) (rel : List String) : Prop :=
  ∀ w a w', s.Ready w → s.HasFile w rel → Gives x w a w' → s.Gentle w w' ∧ s.Current w' rel ∧ w'.ledger.changed = true

section Settles

variable {front : List String} {name : String}

@[grind ←] theorem settles_stamp (hrel : ∀ n ∈ front ++ [name], ValidName n) :
    s.Settles (stamp (s.path (front ++ [name]))) (front ++ [name]) := by
  have hne : front ++ [name] ≠ [] := by simp
  rintro w u w' h ⟨c, time, hfile⟩ hg
  obtain ⟨fields, v, -, hnew, hfiles, -, -, hchanged, -, -, htime⟩ := h.gives_stamp hne hg
  refine ⟨calm_stamp hne hrel w u w' h hg, ?_, hchanged⟩
  obtain rfl := htime c time hfile
  refine ⟨c, time, _, stampOf time, hfiles ▸ hfile, hnew, ?_, later_self time⟩
  rw [Table.find?_put, if_pos rfl]

theorem settles_knowing {P : α → Prop} (hw : Watched name) (hx : s.Calm x) (hP : ∀ {w a w'}, Gives x w a w' → P a)
    (hf : ∀ a, P a → s.Settles (f a) (front ++ [name])) : s.Settles (x >>= f) (front ++ [name]) := by
  intro w b w' h hfile hg
  obtain ⟨a, v, ha, hb⟩ := gives_bind.mp hg
  have hv := hx w a v h ha
  obtain ⟨hg', hcurrent, hchanged⟩ := hf a (hP ha) v b w' hv.ready (hv.hasFile h hw hfile) hb
  exact ⟨hv.trans hg', hcurrent, hchanged⟩

@[grind ←] theorem settles_after (hw : Watched name) (hx : s.Calm x)
    (hf : ∀ a, s.Settles (f a) (front ++ [name])) : s.Settles (x >>= f) (front ++ [name]) :=
  settles_knowing hw hx (fun _ => trivial) fun a _ => hf a

theorem settles_before (hw : Watched name) (hx : s.Settles x (front ++ [name])) (hf : ∀ a, s.Calm (f a)) :
    s.Settles (x >>= f) (front ++ [name]) := by
  intro w b w' h hfile hg
  obtain ⟨a, v, ha, hb⟩ := gives_bind.mp hg
  obtain ⟨hv, hcurrent, hchanged⟩ := hx w a v h hfile ha
  have hrest := hf a v b w' hv.ready hb
  exact ⟨hv.trans hrest, hrest.current front name hw hcurrent, hrest.changed hchanged⟩

end Settles

end Site

end ScummKit
