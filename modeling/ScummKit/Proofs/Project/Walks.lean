import ScummKit.Proofs.Project.Visits

/-!
# Walks of a build

`walkIn` is the walk through folders with the entries of each folder in some order. A walk that
succeeds has visited every file below its folder that lies in no folder of costumes. After it each
header and each edited file is current, or it waits; and none waits any more behind the folder of a
room.
-/

namespace ScummKit

open List
variable {names : List String} {f : α → Work PUnit} {way : List String} {files : List Path}
variable {w w' : Workspace}

namespace Work

/-! ### Orders -/

/-- An order for the entries of each folder. -/
structure Order where
  arrange : Path → List String → List String
  perm : ∀ folder names, (arrange folder names).Perm names

def Order.listed : Order := ⟨fun _ names => names, fun _ _ => .refl _⟩

def meet (enter : Path → Work Unit) (folder : Path) (name : String) : Work Unit := do
  let p := folder.join name
  if ← ask (·.isFolder p) then enter p
  else if ← ask (·.isFile p) then visit p

theorem result_meet (enter : Path → Work Unit) (folder : Path) (name : String) (w : Workspace) :
    result (meet enter folder name) w = match w.files.get? (folder.join name) with
      | none => (.ok (), w)
      | some (.folder _) => result (enter (folder.join name)) w
      | some (.file _ _) => result (visit (folder.join name)) w := by
  rw [meet, result_ask, FileTree.isFolder]
  rcases hget : w.files.get? (folder.join name) with _ | ⟨c, time⟩ | time
  · rw [if_neg Bool.false_ne_true, result_ask, FileTree.isFile, hget]
    rfl
  · rw [if_neg Bool.false_ne_true, result_ask, FileTree.isFile, hget]
    rfl
  · rfl

/-- Visits everything below a folder, with the entries of each folder in some order. -/
def walkIn (order : Order) : Nat → Path → Work Unit
  | 0, _ => return
  | depth + 1, folder => do
    let kind := Asset.FolderKind.ofName (← get).crawl.version folder.name
    if kind = .costume then return
    (order.arrange folder (← look (·.list folder))).forM (meet (walkIn order depth) folder)
    if kind = .room then leaveRoom

theorem walkIn_listed (depth : Nat) (folder : Path) : walkIn .listed depth folder = walk depth folder := by
  induction depth generalizing folder with
  | zero => rfl
  | succ depth ih =>
    have henter : walkIn .listed depth = walk depth := funext ih
    rw [walkIn, henter]
    rfl

theorem gives_forM_nil {u : PUnit} : Gives (([] : List α).forM f) w u w' ↔ w = w' := by
  change Gives (pure PUnit.unit) w u w' ↔ _
  rw [gives_pure]
  simp

theorem gives_forM_cons {x : α} {xs : List α} {u : PUnit} :
    Gives ((x :: xs).forM f) w u w' ↔ ∃ v, Gives (f x) w ⟨⟩ v ∧ Gives (xs.forM f) v u w' := by
  change Gives (f x >>= fun _ => xs.forM f) w u w' ↔ _
  rw [gives_bind]
  constructor
  · rintro ⟨_, v, hx, hxs⟩
    exact ⟨v, hx, hxs⟩
  · rintro ⟨v, hx, hxs⟩
    exact ⟨_, v, hx, hxs⟩

end Work

namespace Site

open Work Asset

variable {s : Site} {e : Game.Edition} {w w' : Workspace} {rel : List String}
variable {name n : String} {enter : Path → Work Unit} {below : List String} {u : Unit} {depth : Nat}

theorem path_inj {rel rel' : List String} (h : s.path rel = s.path rel') : rel = rel' := by
  rw [Path.mk.injEq] at h
  exact append_cancel_left (append_cancel_left h.2)

theorem join_path (rel : List String) (h : ValidName name) : (s.path rel).join name = s.path (rel ++ [name]) := by
  rw [Path.join_of_valid _ h, path, path]
  simp

/-! ### Leaving a room -/

theorem visited_queue (hs : s.Workable e) (hqueued : ∀ p ∈ files, s.Queued e p)
    (h : s.Going e w) (hg : Gives (files.forM visit) w u w') :
    s.Onward e w w' ∧ ∃ extra, queueOf w' = queueOf w ++ extra ∧ (extra = [] →
    ∀ front name, s.path (front ++ [name]) ∈ files → s.Current w' (front ++ [name])) := by
  induction files generalizing w with
  | nil =>
    obtain rfl := gives_forM_nil.mp hg
    exact ⟨h.onward, [], by simp, fun _ _ _ hmem => absurd hmem not_mem_nil⟩
  | cons p files ih =>
    obtain ⟨v, hvisit, hrest⟩ := gives_forM_cons.mp hg
    obtain ⟨front, name, c, time, k, rfl, htree, hstatus, hkind, hwaits⟩ :=
      hqueued p mem_cons_self
    have hw : Watched name := Or.inr hstatus
    have hother : k ≠ .other := by
      rintro rfl
      simp [waits] at hwaits
    have hwanted : Wanted e name := wanted_of_decoded hstatus hkind hother
    have hv := visited_file h hvisit hs ⟨c, time, (h.ready.lookup_tree hw).mpr htree⟩
    obtain ⟨extra, hextra, hdone⟩ := hv.queue
    obtain ⟨honward, extra', hextra', hcurrent⟩ :=
      ih (fun q hq => hqueued q (mem_cons_of_mem _ hq)) hv.onward.going hrest
    refine ⟨hv.onward.trans honward, extra ++ extra', by rw [hextra', hextra, append_assoc], ?_⟩
    intro hnil front' name' hmem
    obtain ⟨rfl, rfl⟩ := append_eq_nil_iff.mp hnil
    rcases mem_cons.mp hmem with heq | hmem
    · obtain ⟨rfl, hname⟩ := append_inj' (path_inj heq) rfl
      obtain rfl := singleton_inj.mp hname
      rcases hdone hwanted with hc | hc
      · exact honward.current _ _ hw hc
      · exact absurd hc not_mem_nil
    · exact hcurrent rfl front' name' hmem

theorem gives_waiting : Gives Work.waiting w files w' ↔ queueOf w = files ∧ w = w' := by
  change (Except.ok (queueOf w), w) = (.ok files, w') ↔ _
  simp

theorem left_room (hs : s.Workable e) (h : s.Going e w) (hg : Gives leaveRoom w u w') : s.Onward e w w' ∧ queueOf w' = [] := by
  obtain ⟨files, w₁, hfiles, hg⟩ := gives_bind.mp hg
  obtain ⟨rfl, rfl⟩ := gives_waiting.mp hfiles
  obtain ⟨_, v, hvisit, hg⟩ := gives_bind.mp hg
  obtain ⟨honward, extra, hextra, hcurrent⟩ := visited_queue hs h.queue h hvisit
  obtain ⟨files, v₁, hfiles, hg⟩ := gives_bind.mp hg
  obtain ⟨rfl, rfl⟩ := gives_waiting.mp hfiles
  split at hg
  · obtain ⟨_, _, hthrow, -⟩ := gives_bind.mp hg
    exact (gives_throw.mp hthrow).elim
  · rename_i hlength
    have hnil : extra = [] := by
      rw [hextra, length_append] at hlength
      exact length_eq_zero_iff.mp (by omega)
    obtain rfl := gives_modify.mp hg
    have hv := honward.going
    refine ⟨⟨⟨?_, ?_, ?_⟩, ?_, ?_, honward.changed, honward.still⟩, rfl⟩
    · exact ⟨hv.ready.root, hv.ready.programs, hv.ready.sound, hv.ready.agree, hv.ready.tidy, hv.ready.noted⟩
    · have hb := hv.building
      exact ⟨hb.building, hb.version, hb.video, hb.targets⟩
    · exact fun p hp => absurd hp not_mem_nil
    · intro front name hw hc
      exact honward.current front name hw hc
    · intro front name _ hq
      exact Or.inr (hcurrent hnil front name hq)

/-! ### Coverage -/

/-- What is known of a file after a walk. -/
structure Settled (s : Site) (e : Game.Edition) (w : Workspace) (front : List String) (name : String) : Prop where
  done : Wanted e name → s.Current w (front ++ [name]) ∨ s.path (front ++ [name]) ∈ queueOf w
  palette : Status.ofName name = .decoded → Kind.ofName? e.version name = some .palette → s.Readable (front ++ [name])

theorem Wanted.watched (h : Wanted e name) : Watched name := h.imp_right And.left

theorem Settled.onward {front : List String} (h : s.Settled e w front name)
    (ho : s.Onward e w w') : s.Settled e w' front name := by
  refine ⟨fun hwanted => ?_, h.palette⟩
  rcases h.done hwanted with hc | hq
  · exact Or.inl (ho.current front name hwanted.watched hc)
  · exact (ho.waiting front name hwanted.watched hq).symm

/-- A folder of some kind is on a way. -/
def Passes (e : Game.Edition) (kind : FolderKind) (way : List String) : Prop :=
  ∃ n ∈ way, FolderKind.ofName e.version n = kind

/-- A file of the tree that lies below `rel`, behind some folders that are not folders of costumes. -/
structure Reached (s : Site) (e : Game.Edition) (rel below : List String) (name : String) : Prop where
  file : ∃ c time, s.tree.lookup (s.src ++ (rel ++ below ++ [name])) = some (.file c time)
  free : ¬ Passes e .costume below

/-- A file below `rel` is settled, and even current if a room is on the way. -/
structure Covered (s : Site) (e : Game.Edition) (w : Workspace) (rel way below : List String) (name : String) : Prop where
  settled : s.Settled e w (rel ++ below) name
  room : Passes e .room way → Wanted e name → s.Current w (rel ++ below ++ [name])

theorem Covered.onward (h : s.Covered e w rel way below name) (ho : s.Onward e w w') : s.Covered e w' rel way below name :=
  ⟨h.settled.onward ho, fun hroom hwanted =>
    ho.current (rel ++ below) name hwanted.watched (h.room hroom hwanted)⟩

theorem covered_of_watched (h : Watched name → s.Covered e w rel way below name) : s.Covered e w rel way below name :=
  ⟨⟨fun hwanted => (h hwanted.watched).settled.done hwanted, fun hdecoded => (h (Or.inr hdecoded)).settled.palette hdecoded⟩,
    fun hroom hwanted => (h hwanted.watched).room hroom hwanted⟩

/-- What a walk through a folder achieves for the files below it. -/
def Covers (s : Site) (e : Game.Edition) (depth : Nat) (enter : Path → Work Unit) : Prop :=
  ∀ rel w u w', (∀ n ∈ rel, ValidName n) → s.Going e w → Gives (enter (s.path rel)) w u w' →
    s.Onward e w w' ∧ ∀ below name, below.length < depth → s.Reached e rel below name →
      FolderKind.ofName e.version (s.path rel).name ≠ .costume →
      s.Covered e w' rel ((s.path rel).name :: below) below name

theorem Reached.lookup (h : s.Reached e rel below name)
    (hready : s.Ready w) (hw : Watched name) (hhead : (below ++ [name]).head? = some n) :
    below = [] ∧ name = n ∧ s.HasFile w (rel ++ [n]) ∨ ∃ more, below = n :: more ∧ w.files.IsDir (s.src ++ (rel ++ [n])) := by
  obtain ⟨c, time, hfile⟩ := h.file
  cases below with
  | nil =>
    obtain rfl : name = n := by simpa using hhead
    rw [append_nil] at hfile
    exact Or.inl ⟨rfl, rfl, c, time, (hready.lookup_tree hw).mpr hfile⟩
  | cons m more =>
    obtain rfl : m = n := by simpa using hhead
    have hbelow : s.tree.lookup (s.src ++ (rel ++ [m]) ++ (more ++ [name])) = some (.file c time) := by
      rw [← hfile]
      simp
    have hdir := s.sound.isDir_of_lookup hbelow (by simp)
    exact Or.inr ⟨more, rfl, hready.agree.dirs _ hdir⟩

section

variable (hs : s.Workable e) (henter : s.Covers e depth enter) (hrel : ∀ n ∈ rel, ValidName n) (h : s.Going e w)

include hs henter hrel h

theorem covered_meet (hn : ValidName n) (hg : Gives (meet enter (s.path rel) n) w u w') :
    s.Onward e w w' ∧ ∀ below name, below.length < depth + 1 → s.Reached e rel below name →
    (below ++ [name]).head? = some n → s.Covered e w' rel below below name := by
  have hrel' : ∀ m ∈ rel ++ [n], ValidName m := forall_mem_append.mpr ⟨hrel, forall_mem_singleton.mpr hn⟩
  rw [Gives, result_meet, join_path rel hn, h.ready.get? hrel'] at hg
  rcases hlookup : w.files.lookup (s.src ++ (rel ++ [n])) with _ | ⟨c, time⟩ | time
  · -- nothing is there, so the tree has nothing to offer
    rw [hlookup] at hg
    obtain ⟨-, rfl⟩ := Prod.mk.inj hg
    refine ⟨h.onward, fun below name _ hreached hhead => covered_of_watched fun hw => ?_⟩
    rcases hreached.lookup h.ready hw hhead with ⟨-, -, c, time, hfile⟩ | ⟨more, -, time, hdir⟩
    · rw [hlookup] at hfile
      cases hfile
    · rw [hlookup] at hdir
      cases hdir
  · rw [hlookup] at hg
    have hv := visited_file h hg hs ⟨c, time, hlookup⟩
    refine ⟨hv.onward, fun below name _ hreached hhead => covered_of_watched fun hw => ?_⟩
    rcases hreached.lookup h.ready hw hhead with ⟨rfl, rfl, -⟩ | ⟨more, -, time, hdir⟩
    · obtain ⟨extra, hextra, hdone⟩ := hv.queue
      rw [← append_nil rel] at hdone hv
      refine ⟨⟨fun hwanted => (hdone hwanted).imp_right fun hmem => ?_, hv.palette⟩, ?_⟩
      · rw [hextra]
        exact mem_append_right _ hmem
      · rintro ⟨m, hm, -⟩
        exact absurd hm not_mem_nil
    · rw [hlookup] at hdir
      cases hdir
  · rw [hlookup] at hg
    obtain ⟨honward, hcovers⟩ := henter (rel ++ [n]) w u w' hrel' h hg
    refine ⟨honward, fun below name hdepth hreached hhead => covered_of_watched fun hw => ?_⟩
    rcases hreached.lookup h.ready hw hhead with ⟨-, -, c, time, hfile⟩ | ⟨more, rfl, -⟩
    · rw [hlookup] at hfile
      cases hfile
    · have hfree : FolderKind.ofName e.version n ≠ .costume := fun hkind =>
        hreached.free ⟨n, mem_cons_self, hkind⟩
      have happend : rel ++ n :: more = rel ++ [n] ++ more := append_cons rel n more
      have hreached' : s.Reached e (rel ++ [n]) more name :=
        ⟨happend ▸ hreached.file, fun hpass => hreached.free (Exists.imp (fun m => And.imp_left (mem_cons_of_mem n)) hpass)⟩
      have hcovered := hcovers more name (by simpa using hdepth) hreached' (by rwa [name_path])
      rw [name_path] at hcovered
      exact ⟨happend ▸ hcovered.settled, happend ▸ hcovered.room⟩

theorem covered_entries
    (hnames : ∀ n ∈ names, ValidName n) (hg : Gives (names.forM (meet enter (s.path rel))) w u w') :
    s.Onward e w w' ∧ ∀ below name, below.length < depth + 1 → s.Reached e rel below name →
    (∃ n ∈ names, (below ++ [name]).head? = some n) → s.Covered e w' rel below below name := by
  induction names generalizing w with
  | nil =>
    obtain rfl := gives_forM_nil.mp hg
    exact ⟨h.onward, fun _ _ _ _ ⟨_, hn, _⟩ => absurd hn not_mem_nil⟩
  | cons n names ih =>
    obtain ⟨v, hmeet, hrest⟩ := gives_forM_cons.mp hg
    obtain ⟨honward, hcovered⟩ := covered_meet hs henter hrel h (hnames n mem_cons_self) hmeet
    obtain ⟨honward', hcovered'⟩ := ih honward.going (fun m hm => hnames m (mem_cons_of_mem n hm)) hrest
    refine ⟨honward.trans honward', fun below name hdepth hreached ⟨m, hm, hhead⟩ => ?_⟩
    rcases mem_cons.mp hm with rfl | hm
    · exact (hcovered below name hdepth hreached hhead).onward honward'
    · exact hcovered' below name hdepth hreached ⟨m, hm, hhead⟩

end

theorem Ready.list (h : s.Ready w) (hrel : ∀ n ∈ rel, ValidName n) (hlist : w.files.list (s.path rel) = .ok names) :
    w.files.IsDir (s.src ++ rel) ∧ names = w.files.childNames (s.src ++ rel) := by
  have hdots := s.dots hrel
  rw [path] at hlist
  rw [← h.base] at *
  have hdir := FileTree.isDir_of_list hdots hlist
  rw [FileTree.list_eq h.sound hdots hdir] at hlist
  exact ⟨hdir, (Except.ok.inj hlist).symm⟩

theorem Reached.listed (h : s.Reached e rel below name) (hready : s.Ready w) (hw : Watched name) :
    ∃ n ∈ w.files.childNames (s.src ++ rel), (below ++ [name]).head? = some n := by
  obtain ⟨n, hhead⟩ : ∃ n, (below ++ [name]).head? = some n := by
    cases below with
    | nil => exact ⟨name, rfl⟩
    | cons m more => exact ⟨m, rfl⟩
  refine ⟨n, FileTree.mem_childNames.mpr ?_, hhead⟩
  rw [append_assoc]
  rcases h.lookup hready hw hhead with ⟨-, -, c, time, hfile⟩ | ⟨-, -, time, hdir⟩
  · exact ⟨_, hfile⟩
  · exact ⟨_, hdir⟩

theorem covers_walkIn (hs : s.Workable e) (order : Order) (depth : Nat) : s.Covers e depth (walkIn order depth) := by
  induction depth with
  | zero =>
    intro rel w u w' hrel h hg
    obtain ⟨-, rfl⟩ := gives_pure.mp hg
    exact ⟨h.onward, fun _ _ hdepth => absurd hdepth (Nat.not_lt_zero _)⟩
  | succ depth ih =>
    intro rel w u w' hrel h hg
    rw [walkIn, Gives, result_get, h.building.version] at hg
    dsimp only at hg
    split at hg
    · rename_i hcostume
      obtain ⟨-, rfl⟩ := gives_pure.mp hg
      exact ⟨h.onward, fun _ _ _ _ hfree => absurd hcostume hfree⟩
    · obtain ⟨names, _, hlook, hg⟩ := gives_bind.mp hg
      obtain ⟨hlist, rfl⟩ := gives_look.mp hlook
      obtain ⟨hdir, rfl⟩ := h.ready.list hrel hlist
      obtain ⟨_, v, hentries, hg⟩ := gives_bind.mp hg
      have hmem := fun n => (order.perm (s.path rel) (w.files.childNames (s.src ++ rel))).mem_iff (a := n)
      have hnames : ∀ n ∈ order.arrange (s.path rel) (w.files.childNames (s.src ++ rel)),
          ValidName n := by
        intro n hn
        obtain ⟨node, hnode⟩ := FileTree.mem_childNames.mp ((hmem n).mp hn)
        exact h.ready.sound.valid hnode n (by simp)
      obtain ⟨honward, hcovered⟩ := covered_entries hs ih hrel h hnames hentries
      have hcovered' : ∀ below name, below.length < depth + 1 → s.Reached e rel below name →
          s.Covered e v rel below below name := by
        refine fun below name hdepth hreached => covered_of_watched fun hw => ?_
        obtain ⟨n, hn, hhead⟩ := hreached.listed h.ready hw
        exact hcovered below name hdepth hreached ⟨n, (hmem n).mpr hn, hhead⟩
      split at hg
      · -- the room of the folder itself is left
        obtain ⟨hleft, hqueue⟩ := left_room hs honward.going hg
        refine ⟨honward.trans hleft, fun below name hdepth hreached _ => ?_⟩
        have hsettled := (hcovered' below name hdepth hreached).settled.onward hleft
        refine ⟨hsettled, fun _ hwanted => (hsettled.done hwanted).resolve_right ?_⟩
        rw [hqueue]
        exact not_mem_nil
      · rename_i hplain
        obtain ⟨-, rfl⟩ := gives_pure.mp hg
        refine ⟨honward, fun below name hdepth hreached _ => ?_⟩
        have hcov := hcovered' below name hdepth hreached
        refine ⟨hcov.settled, ?_⟩
        rintro ⟨n, hn, hroom⟩
        refine hcov.room ⟨n, ?_, hroom⟩
        rcases mem_cons.mp hn with rfl | hn
        · exact absurd hroom hplain
        · exact hn

end Site

end ScummKit
