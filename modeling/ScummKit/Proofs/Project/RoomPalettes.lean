import Mathlib.Data.List.Permutation
import Mathlib.Data.List.Sublists
import ScummKit.Proofs.Project.RoomWalks

/-!
# Palettes of rooms

A walk that decodes for a display of 256 colours takes each step that is due once, and decodes each picture with the palette of its room, in whatever order entries are listed (`Outdoors.runs_walk`). Nothing of a room is left over when its folder has been walked through (`Outdoors.of_comes`). A palette must not lie outside rooms: the walk would take it for that of the next room.
-/

namespace ScummKit

open Text Asset Work Site List

variable {key room : List String} {steps : List Step}
variable {t : FileTree} {c : Crawl} {colours : List String → Palette} {rel : List String} {w : Workspace}
variable {names before after : List String} {x : Work Unit} {content : Content}

/-! ### Walking from room to room -/

/-- A file of the tree in the game's own form, and its kind. -/
def HasKind (t : FileTree) (version : String) (key : List String) (k : Kind) : Prop :=
  ∃ front name content time, key = front ++ [name] ∧ t.lookup key = some (.file content time)
    ∧ Status.ofName name = .binary ∧ Kind.ofName? version name = some k

def IsRoom (t : FileTree) (version : String) (room : List String) : Prop :=
  t.IsDir room ∧ FolderKind.ofName version (t.path room).name = .room

/-- A folder in which images and costumes lie only in rooms, and each room has one palette. No room lies in another, and no folder is one of costumes. -/
structure Orderly (t : FileTree) (version : String) (rel : List String) : Prop where
  dir : t.IsDir rel
  costumes : ∀ folder, rel <+: folder → t.IsDir folder → FolderKind.ofName version (t.path folder).name ≠ .costume
  apart : ∀ room room', rel <+: room → IsRoom t version room → IsRoom t version room' → room <+: room' → room = room'
  coloured : ∀ key k, rel <+: key → HasKind t version key k → Step.Coloured k →
    ∃ room, rel <+: room ∧ IsRoom t version room ∧ room <+: key
  palettes : ∀ room, rel <+: room → IsRoom t version room → ∃ key, room <+: key ∧ HasKind t version key .palette
    ∧ ∀ key', room <+: key' → HasKind t version key' .palette → key' = key

def Housed (t : FileTree) (version : String) (rel : List String) : Prop :=
  ∀ key, rel <+: key → HasKind t version key .palette → ∃ room, rel <+: room ∧ IsRoom t version room ∧ room <+: key

/-- The palette of the room that a file lies in. -/
def OwnPalette (t : FileTree) (version : String) (rel key : List String) (palette : Palette) : Prop :=
  ∃ room key', rel <+: room ∧ IsRoom t version room ∧ room <+: key ∧ room <+: key' ∧ HasKind t version key' .palette
    ∧ t.paletteAt version (t.path key') = .ok palette

/-- Files have the palette of their room, if there is one that can be read. -/
structure Colouring (t : FileTree) (version : String) (rel : List String) (colours : List String → Palette) : Prop where
  own : ∀ key palette, OwnPalette t version rel key palette → colours key = palette
  none : ∀ key, rel <+: key → (∀ palette, ¬ OwnPalette t version rel key palette) → colours key = []

/-- Work takes all of some steps, and leaves nothing behind. -/
def Runs (t : FileTree) (c : Crawl) (steps : List Step) (x : Work Unit) (w : Workspace) : Prop :=
  ∃ now : List Step, now.Perm steps ∧ Same (result x w) (result (now.forM (Step.run c)) w) ∧ ∀ u, Gives x w () u → Outdoors t c u

/-- A folder to be walked through, and the palettes its files have. -/
structure Tour (t : FileTree) (c : Crawl) (colours : List String → Palette) (rel : List String) : Prop where
  orderly : Orderly t c.version rel
  housed : Housed t c.version rel
  colouring : Colouring t c.version rel colours

section Outdoors

variable {depth : Nat}
variable {version n : String} {palette : Palette}

theorem IsRoom.below (h : IsRoom t version room) (hnot : ¬ IsRoom t version rel) (hroom : rel <+: room) (hkey : room <+: key)
    (hn : rel ++ [n] <+: key) : rel ++ [n] <+: room := by
  have hne : room ≠ rel := fun heq => hnot (heq ▸ h)
  obtain ⟨more, rfl⟩ := hroom
  cases more with
  | nil => exact absurd (append_nil rel) hne
  | cons m more =>
    obtain ⟨a, rfl⟩ := hkey
    obtain ⟨b, hb⟩ := hn
    have hboth : rel ++ n :: b = rel ++ (m :: more ++ a) := by simpa using hb
    rw [(List.cons.inj (append_cancel_left hboth)).1]
    exact ⟨more, by simp⟩

theorem OwnPalette.unique {palette' : Palette} (ho : Orderly t version rel)
    (h : OwnPalette t version rel key palette) (h' : OwnPalette t version rel key palette') : palette = palette' := by
  obtain ⟨room, q, hrel, hroom, hkey, hq, hkind, hat⟩ := h
  obtain ⟨room', q', hrel', hroom', hkey', hq', hkind', hat'⟩ := h'
  obtain rfl : room = room' := by
    rcases prefix_or_prefix_of_prefix hkey hkey' with hp | hp
    · exact ho.apart room room' hrel hroom hroom' hp
    · exact (ho.apart room' room hrel' hroom' hroom hp).symm
  obtain ⟨own, -, -, honly⟩ := ho.palettes room hrel hroom
  rw [honly q hq hkind] at hat
  rw [honly q' hq' hkind', hat] at hat'
  exact Except.ok.inj hat'

theorem OwnPalette.above (h : OwnPalette t version (rel ++ [n]) key palette) : OwnPalette t version rel key palette := by
  obtain ⟨room, q, hrel, hrest⟩ := h
  exact ⟨room, q, (prefix_append rel [n]).trans hrel, hrest⟩

theorem Tour.below (h : Tour t c colours rel) (hnot : ¬ IsRoom t c.version rel) (hdir : t.IsDir (rel ++ [n])) :
    Tour t c colours (rel ++ [n]) := by
  have habove {folder : List String} (hf : rel ++ [n] <+: folder) : rel <+: folder := (prefix_append rel [n]).trans hf
  refine ⟨⟨hdir, fun folder hf => h.orderly.costumes folder (habove hf), fun room room' hr => h.orderly.apart room room' (habove hr),
    fun key k hkey hkind hk => ?_, fun room hr => h.orderly.palettes room (habove hr)⟩, fun key hkey hkind => ?_,
    fun key palette hown => h.colouring.own key palette hown.above, fun key hkey hnone => h.colouring.none key (habove hkey) ?_⟩
  · obtain ⟨room, hrel, hroom, hprefix⟩ := h.orderly.coloured key k (habove hkey) hkind hk
    exact ⟨room, hroom.below hnot hrel hprefix hkey, hroom, hprefix⟩
  · obtain ⟨room, hrel, hroom, hprefix⟩ := h.housed key (habove hkey) hkind
    exact ⟨room, hroom.below hnot hrel hprefix hkey, hroom, hprefix⟩
  · rintro palette ⟨room, q, hrel, hroom, hprefix, hrest⟩
    exact hnone palette ⟨room, q, hroom.below hnot hrel hprefix hkey, hroom, hprefix, hrest⟩

theorem Outdoors.inRoom (h : Outdoors t c w) (palette : Palette) : InRoom t c palette w := by
  refine ⟨h.toRoaming, fun hfound => ?_⟩
  rw [h.found] at hfound
  cases hfound

theorem Clears.runs (h : Clears t c steps x w) : Runs t c steps x w := by
  obtain ⟨now, later, hperm, hsame, hout⟩ := h
  refine ⟨now ++ later, hperm, ?_, fun u hu => (hout u hu).2⟩
  have hrest : Same (result (do x; pure ()) w) (result (do now.forM (Step.run c); later.forM (Step.run c)) w) := by
    refine same_bind hsame (Step.blind_forM c later) fun u hu => ?_
    rw [(hout u hu).1]
    exact same_refl _
  rwa [bind_pure_unit, ← Step.forM_append] at hrest

theorem Follows.clears (h : Follows t c palette steps x w) (hout : Outdoors t c w) (hpalette : ∀ p, .palette p ∉ steps)
    (hcoloured : ∀ p k colours, .decode p k colours ∈ steps → ¬ Step.Coloured k) : Clears t c steps x w := by
  obtain ⟨now, later, hperm, hsame, hadvances⟩ := h
  refine ⟨now, later, hperm, hsame, fun u hu => ?_⟩
  have hadv := hadvances u hu
  have hnone : later = [] := by
    rw [eq_nil_iff_forall_not_mem]
    intro y hy
    obtain ⟨-, p, k, rfl, hk⟩ := hadv.waits y hy
    exact hcoloured p k palette (hperm.mem_iff.mp (mem_append_right now hy)) hk
  have hfound : u.crawl.found = false := by
    rw [← Bool.not_eq_true, hadv.found, hout.found]
    rintro (hfound | ⟨p, hp⟩)
    · cases hfound
    · exact hpalette p (hperm.mem_iff.mp (mem_append_left later hp))
  have hqueue : queueOf u = [] := by
    rw [hadv.queue, hout.queue, hnone]
    rfl
  exact ⟨hnone, hadv.room.toRoaming, hfound, hqueue⟩

theorem Outdoors.clears_forM {f : α → Work PUnit} {steps : α → List Step} {xs : List α} (h : Outdoors t c w)
    (hf : ∀ x ∈ xs, ∀ v, Outdoors t c v → Clears t c (steps x) (f x) v) : Clears t c (xs.flatMap steps) (xs.forM f) w := by
  induction xs generalizing w with
  | nil => exact takes_nil rfl ⟨rfl, h⟩
  | cons x xs ih =>
    obtain ⟨now, hperm, hsame, hout⟩ := (hf x mem_cons_self w h).runs
    exact takes_bind (hperm.append_right _) hsame fun v hv => ih (hout v hv) fun y hy => hf y (mem_cons_of_mem x hy)

theorem Orderly.indoors (ho : Orderly t c.version rel) (hcolours : Colouring t c.version rel colours)
    (hroom : IsRoom t c.version rel) : ∃ palette, Indoors t c colours palette rel := by
  obtain ⟨key, hkey, hkind, honly⟩ := ho.palettes rel (prefix_refl rel) hroom
  have hplain (n : String) (more : List String) (hdir : t.IsDir (rel ++ n :: more)) :
      FolderKind.ofName c.version (t.path (rel ++ n :: more)).name = .other := by
    have hbelow : rel <+: rel ++ n :: more := prefix_append rel (n :: more)
    cases hfolder : FolderKind.ofName c.version (t.path (rel ++ n :: more)).name with
    | room =>
      have heq := ho.apart rel _ (prefix_refl rel) hroom ⟨hdir, hfolder⟩ hbelow
      simp at heq
    | costume => exact absurd hfolder (ho.costumes _ hbelow hdir)
    | other => rfl
  by_cases hread : ∃ palette, t.paletteAt c.version (t.path key) = .ok palette
  · obtain ⟨palette, hat⟩ := hread
    refine ⟨palette, hplain, fun key' hkey' => ?_, fun front name content time hprefix hfile hbinary hk colours' hat' => ?_⟩
    · exact hcolours.own key' palette ⟨rel, key, prefix_refl rel, hroom, hkey', hkey, hkind, hat⟩
    · rw [honly _ hprefix ⟨front, name, content, time, rfl, hfile, hbinary, hk⟩, hat] at hat'
      exact (Except.ok.inj hat').symm
  · -- a palette that cannot be read is the palette of no file
    refine ⟨[], hplain, fun key' hkey' => hcolours.none key' hkey' ?_,
      fun front name content time hprefix hfile hbinary hk colours' hat' => ?_⟩
    · rintro palette ⟨room, q, hrel, hroom', -, hq, hqkind, hat⟩
      obtain rfl := ho.apart rel room (prefix_refl rel) hroom hroom' hrel
      exact hread ⟨palette, honly q hq hqkind ▸ hat⟩
    · rw [honly _ hprefix ⟨front, name, content, time, rfl, hfile, hbinary, hk⟩] at hat'
      exact absurd ⟨colours', hat'⟩ hread

theorem not_prefix_of_file {time : Int}
    (hplain : ¬ IsRoom t version rel) (hfile : t.lookup (rel ++ [n]) = some (.file content time)) (hrel : rel <+: room)
    (hroom : IsRoom t version room) : ¬ room <+: rel ++ [n] := by
  intro hprefix
  obtain ⟨more, rfl⟩ := hroom.below hplain hrel hprefix (prefix_refl _)
  obtain rfl : more = [] := by simpa using hprefix.length_le
  obtain ⟨⟨time', hdir⟩, -⟩ := hroom
  rw [append_nil, hfile] at hdir
  cases hdir

section

variable (hc : Settings c) (ht : t.Placed) (order : Order)

include hc ht

section

variable (htour : Tour t c colours rel) (h : Outdoors t c w)

include htour h

theorem Outdoors.clears_room (hroom : IsRoom t c.version rel) (hdepth : Shallow t (depth + 1) rel) : Clears t c (dues t c colours rel) (walkIn order (depth + 1) (t.path rel)) w := by
  have ho := htour.orderly
  obtain ⟨palette, hin⟩ := ho.indoors htour.colouring hroom
  obtain ⟨key, hkey, ⟨front, name, content, time, rfl, hfile, hbinary, hkind⟩, -⟩ := ho.palettes rel (prefix_refl rel) hroom
  have hwalk := h.result_walkIn ht ho.dir (by rw [hroom.2]; decide) order depth
  rw [if_pos hroom.2] at hwalk
  obtain ⟨now, later, hperm, hsame, hadvances⟩ := (h.inRoom palette).follows_entries hc ht hin ho.dir order
    fun n v hv hdir => hv.follows_walk hc ht (hin.below n) hdir order (hin.plain n [] hdir) (hdepth.below n)
  -- the palette of the room turns up on the way
  have hpalette : Step.palette (t.path (front ++ [name])) ∈ dues t c colours rel := by
    refine mem_dues.mpr ⟨_, hkey, ?_⟩
    simp [stepAt, hfile, Step.ofFile, hbinary, hkind]
  refine Takes.congr hwalk (takes_bind hperm hsame fun u hu => ?_)
  have hadv := hadvances u hu
  have hfound : u.crawl.found = true := by
    refine hadv.found.mpr (Or.inr ⟨_, (mem_append.mp (hperm.mem_iff.mpr hpalette)).resolve_right fun hlater => ?_⟩)
    obtain ⟨-, p, k, heq, -⟩ := hadv.waits _ hlater
    cases heq
  have hqueue : queueOf u = later.map Step.path := by rw [hadv.queue, h.queue, nil_append]
  refine hadv.room.clears_leaveRoom hc hadv.waits (fun x hx => ?_) hfound hqueue
  obtain ⟨key, -, hstep⟩ := mem_dues.mp (hperm.mem_iff.mp (mem_append_right now hx))
  obtain ⟨⟨content, time, hlookup⟩, hpath, -⟩ := stepAt_eq_some hstep
  rw [hpath]
  exact ht.parts hlookup

theorem Outdoors.clears_visit (hplain : ¬ IsRoom t c.version rel) {time : Int} (hfile : w.files.lookup (rel ++ [n]) = some (.file content time)) :
    Clears t c (Step.ofFile c (colours (rel ++ [n])) (t.path (rel ++ [n]))).toList (visit (t.path (rel ++ [n]))) w := by
  have hlookup (horiginal : Original n) := (h.kept.agree.files rel n horiginal content time).mp hfile
  have hkind {k : Kind} (hbinary : Status.ofName n = .binary) (hk : Kind.ofName? c.version n = some k) :
      HasKind t c.version (rel ++ [n]) k := ⟨rel, n, content, time, rfl, hlookup (Or.inl hbinary), hbinary, hk⟩
  have hnone (hbinary : Status.ofName n = .binary) : Kind.ofName? c.version n ≠ some .palette := by
    intro hk
    obtain ⟨room, hrel, hroom, hprefix⟩ := htour.housed _ (prefix_append rel [n]) (hkind hbinary hk)
    exact not_prefix_of_file hplain (hlookup (Or.inl hbinary)) hrel hroom hprefix
  refine Follows.clears ((h.inRoom (colours (rel ++ [n]))).follows_visit hc.video hc.version ?_ ?_) h ?_ ?_
  · rw [t.name_path]
    exact fun horiginal => ht.parts (hlookup horiginal)
  · rw [t.name_path]
    exact fun hbinary hk => absurd hk (hnone hbinary)
  · intro p hp
    obtain ⟨hbinary, hk⟩ := Step.ofFile_eq_palette (Option.mem_toList.mp hp)
    rw [t.name_path] at hbinary hk
    exact hnone hbinary hk
  · intro p k palette hp hcoloured
    obtain ⟨hbinary, hk⟩ := Step.ofFile_eq_decode (Option.mem_toList.mp hp)
    rw [t.name_path] at hbinary hk
    obtain ⟨room, hrel, hroom, hprefix⟩ := htour.orderly.coloured _ k (prefix_append rel [n]) (hkind hbinary hk) hcoloured
    exact not_prefix_of_file hplain (hlookup (Or.inl hbinary)) hrel hroom hprefix

theorem Outdoors.clears_meet (hplain : ¬ IsRoom t c.version rel) (hn : ValidName n)
    {enter : Path → Work Unit}
    (henter : t.IsDir (rel ++ [n]) → Clears t c (dues t c colours (rel ++ [n])) (enter (t.path (rel ++ [n]))) w) :
    Clears t c (dues t c colours (rel ++ [n])) (meet enter (t.path rel) n) w :=
  h.takes_meet ht htour.orderly.dir hn ⟨rfl, h⟩ (fun _ _ hlookup => h.clears_visit hc ht htour hplain hlookup) henter

theorem Outdoors.clears_walk (hdepth : Shallow t depth rel) : Clears t c (dues t c colours rel) (walkIn order depth (t.path rel)) w := by
  have ho := htour.orderly
  induction depth generalizing rel w with
  | zero =>
    rw [dues_of_shallow ht ho.dir hdepth]
    exact takes_nil rfl ⟨rfl, h⟩
  | succ depth ih =>
    by_cases hroom : IsRoom t c.version rel
    · exact h.clears_room hc ht order htour hroom hdepth
    have hplain : FolderKind.ofName c.version (t.path rel).name ≠ .room := fun hkind => hroom ⟨ho.dir, hkind⟩
    have hwalk := h.result_walkIn ht ho.dir (ho.costumes rel (prefix_refl rel) ho.dir) order depth
    rw [if_neg hplain, bind_pure_unit] at hwalk
    refine Takes.congr hwalk (Takes.perm (h.clears_forM fun n hn v hv => ?_)
      (dues_of_folder h.kept ht ho.dir (h.nodup_entriesOf order) fun n => mem_entriesOf))
    exact hv.clears_meet hc ht htour hroom (h.valid_entriesOf hn) fun hdir =>
      ih (htour.below hroom hdir) hv (hdepth.below n) (htour.below hroom hdir).orderly

end

theorem Outdoors.runs_walk (ho : Orderly t c.version rel)
    (hh : Housed t c.version rel) (hcolours : Colouring t c.version rel colours) (hdepth : Shallow t depth rel)
    (h : Outdoors t c w) : Runs t c (dues t c colours rel) (walkIn order depth (t.path rel)) w :=
  (h.clears_walk hc ht order ⟨ho, hh, hcolours⟩ hdepth).runs

end

/-! ### Folders on the way -/

/-- A walk through a folder comes to a folder: it has met the entries that are listed before it. -/
inductive Comes (order : Order) : Nat → Path → Workspace → Nat → Path → Workspace → Prop
  | here {depth : Nat} {folder : Path} {w : Workspace} : Comes order depth folder w depth folder w
  | enter {depth depth' : Nat} {folder folder' : Path} {w v w' : Workspace} {names before after : List String} {n : String}
      (hkind : FolderKind.ofName w.crawl.version folder.name ≠ .costume) (hlist : w.files.list folder = .ok names)
      (hsplit : order.arrange folder names = before ++ n :: after)
      (hbefore : Gives (before.forM (meet (walkIn order depth) folder)) w () v)
      (hfolder : v.files.isFolder (folder.join n) = true) (hcomes : Comes order depth (folder.join n) v depth' folder' w') :
      Comes order (depth + 1) folder w depth' folder' w'

section Comes

variable {order : Order} {depth' : Nat} {folder' : Path} {w' v : Workspace}

theorem Roaming.valid_listed (h : Roaming t c w) (ht : t.Placed) (hdir : t.IsDir rel)
    (hlist : w.files.list (t.path rel) = .ok names) (hsplit : order.arrange (t.path rel) names = before ++ n :: after) {m : String}
    (hm : m ∈ before ++ [n]) : ValidName m := by
  rw [h.kept.list ht hdir] at hlist
  rw [← Except.ok.inj hlist, append_cons] at hsplit
  have hmem : m ∈ entriesOf order t w rel := by rw [entriesOf, hsplit]; exact mem_append_left after hm
  exact h.valid_entriesOf hmem

theorem Roaming.isDir_of_isFolder (h : Roaming t c w) (ht : t.Placed) (hdir : t.IsDir rel) (hn : ValidName n)
    (hfolder : w.files.isFolder (t.path (rel ++ [n])) = true) : t.IsDir (rel ++ [n]) := by
  rw [FileTree.isFolder, h.kept.get? ht (ht.sound.valid_concat hdir hn)] at hfolder
  rcases hlookup : w.files.lookup (rel ++ [n]) with _ | ⟨content, time'⟩ | time'
  · rw [hlookup] at hfolder
    cases hfolder
  · rw [hlookup] at hfolder
    cases hfolder
  · exact h.kept.dirs _ ⟨time', hlookup⟩

variable (hc : Settings c) (ht : t.Placed)

include hc ht

theorem InRoom.enters (hin : Indoors t c colours palette rel)
    (hdir : t.IsDir rel) (hdepth : Shallow t (depth + 1) rel) (h : InRoom t c palette w)
    (hlist : w.files.list (t.path rel) = .ok names) (hsplit : order.arrange (t.path rel) names = before ++ n :: after)
    (hbefore : Gives (before.forM (meet (walkIn order depth) (t.path rel))) w () v)
    (hfolder : v.files.isFolder ((t.path rel).join n) = true) :
    (t.path rel).join n = t.path (rel ++ [n]) ∧ t.IsDir (rel ++ [n]) ∧ InRoom t c palette v := by
  have hvalid {m : String} (hm : m ∈ before ++ [n]) : ValidName m := h.valid_listed ht hdir hlist hsplit hm
  have hn := hvalid (mem_append_right before (mem_singleton_self n))
  have hfollows : Follows t c palette (before.flatMap fun m => dues t c colours (rel ++ [m]))
      (before.forM (meet (walkIn order depth) (t.path rel))) w :=
    h.follows_forM fun m hm u hu => hu.follows_meet hc ht hin hdir (hvalid (mem_append_left [n] hm)) fun hd =>
      hu.follows_walk hc ht (hin.below m) hd order (hin.plain m [] hd) (hdepth.below m)
  obtain ⟨now, later, -, -, hadvances⟩ := hfollows
  have hv := (hadvances v hbefore).room
  rw [t.join_path rel hn] at hfolder
  exact ⟨t.join_path rel hn, hv.isDir_of_isFolder ht hdir hn hfolder, hv⟩

theorem InRoom.other_of_comes (hin : Indoors t c colours palette rel)
    (hdir : t.IsDir rel) (hplain : FolderKind.ofName c.version (t.path rel).name = .other) (hdepth : Shallow t depth rel)
    (h : InRoom t c palette w) (hcomes : Comes order depth (t.path rel) w depth' folder' w') :
    FolderKind.ofName c.version folder'.name = .other := by
  generalize hp : t.path rel = folder at hcomes
  induction hcomes generalizing rel with
  | here => exact hp ▸ hplain
  | @enter depth depth' folder folder' w v w' names before after n hkind hlist hsplit hbefore hfolder hcomes ih =>
    subst hp
    obtain ⟨hjoin, hsub, hv⟩ := h.enters hc ht hin hdir hdepth hlist hsplit hbefore hfolder
    exact ih (hin.below n) hsub (hin.plain n [] hsub) (hdepth.below n) hv hjoin.symm

theorem Outdoors.of_comes (ho : Orderly t c.version rel) (hh : Housed t c.version rel)
    (hcolours : Colouring t c.version rel colours) (hdepth : Shallow t depth rel) (h : Outdoors t c w)
    (hcomes : Comes order depth (t.path rel) w depth' folder' w') (hroom : FolderKind.ofName c.version folder'.name = .room)
    {u : Workspace} (hu : Gives (walkIn order depth' folder') w' () u) : Outdoors t c u := by
  have htour : Tour t c colours rel := ⟨ho, hh, hcolours⟩
  generalize hp : t.path rel = folder at hcomes
  induction hcomes generalizing rel with
  | here =>
    subst hp
    obtain ⟨-, -, -, hout⟩ := h.runs_walk hc ht order ho hh hcolours hdepth
    exact hout u hu
  | @enter depth depth' folder folder' w v w' names before after n hkind hlist hsplit hbefore hfolder hcomes ih =>
    subst hp
    by_cases hrel : IsRoom t c.version rel
    · obtain ⟨palette, hin⟩ := ho.indoors hcolours hrel
      obtain ⟨hjoin, hsub, hv⟩ := (h.inRoom palette).enters hc ht hin ho.dir hdepth hlist hsplit hbefore hfolder
      rw [hjoin] at hcomes
      have hother := hv.other_of_comes hc ht (hin.below n) hsub (hin.plain n [] hsub) (hdepth.below n) hcomes
      rw [hroom] at hother
      cases hother
    · have hvalid {m : String} (hm : m ∈ before ++ [n]) : ValidName m := h.valid_listed ht ho.dir hlist hsplit hm
      have hn := hvalid (mem_append_right before (mem_singleton_self n))
      have hclears : Clears t c (before.flatMap fun m => dues t c colours (rel ++ [m]))
          (before.forM (meet (walkIn order depth) (t.path rel))) w :=
        h.clears_forM fun m hm u hu => hu.clears_meet hc ht htour hrel (hvalid (mem_append_left [n] hm)) fun hd =>
          hu.clears_walk hc ht order (htour.below hrel hd) (hdepth.below m)
      obtain ⟨-, -, -, hout⟩ := hclears.runs
      have hv := hout v hbefore
      rw [t.join_path rel hn] at hfolder
      have hsub := hv.isDir_of_isFolder ht ho.dir hn hfolder
      have hbelow := htour.below hrel hsub
      exact ih hbelow.1 hbelow.2 hbelow.3 (hdepth.below n) hv hroom hu hbelow (t.join_path rel hn).symm

end Comes

end Outdoors

/-! ### Pictures and their palettes -/

/-- Visits everything below a folder, with the entries of each folder in some order. -/
def Work.crawlIn (order : Order) (folder : Path) : Work Unit := do
  walkIn order ((← get).files.entries.length + 1) folder

theorem Work.crawlIn_listed (folder : Path) : crawlIn .listed folder = crawlFolder folder := by
  simp only [crawlIn, crawlFolder, walkIn_listed]

theorem Work.result_crawlIn (order : Order) (folder : Path) (w : Workspace) :
    result (crawlIn order folder) w = result (walkIn order (w.files.entries.length + 1) folder) w :=
  result_get _ w

/-- Steps that files below a folder call for, none twice. Each picture that is wanted is decoded once, with the palette of its room. -/
structure Schedule (t : FileTree) (c : Crawl) (rel : List String) (steps : List Step) : Prop where
  nodup : steps.Nodup
  due : ∀ x ∈ steps, ∃ key content time palette, rel <+: key ∧ t.lookup key = some (.file content time)
    ∧ Step.ofFile c palette (t.path key) = some x ∧ ∀ own, OwnPalette t c.version rel key own → palette = own
  pictures : ∀ key k, rel <+: key → HasKind t c.version key k → Step.Coloured k → k.label ∈ c.targets →
    ∃ palette, steps.filter (·.path = t.path key) = [.decode (t.path key) k palette]
      ∧ ∀ own, OwnPalette t c.version rel key own → palette = own

/-- A walk through a folder does what a schedule says, and leaves nothing behind after each room and at its end: no file waits, and no palette is known. -/
structure KeepsToRooms (order : Order) (w : Workspace) (rel : List String) : Prop where
  schedule : ∃ steps, Schedule w.files w.crawl rel steps
    ∧ Same (result (crawlIn order (w.files.path rel)) w) (result (steps.forM (Step.run w.crawl)) w)
  rooms : ∀ depth folder v u, Comes order (w.files.entries.length + 1) (w.files.path rel) w depth folder v →
    FolderKind.ofName w.crawl.version folder.name = .room → Gives (walkIn order depth folder) v () u →
      u.crawl.found = false ∧ queueOf u = []
  ends : ∀ u, Gives (crawlIn order (w.files.path rel)) w () u → u.crawl.found = false ∧ queueOf u = []

theorem Orderly.exists_colouring {version : String} (ho : Orderly t version rel) : ∃ colours, Colouring t version rel colours := by
  classical
  refine ⟨fun key => if h : ∃ palette, OwnPalette t version rel key palette then h.choose else [], fun key palette hown => ?_,
    fun key _ hnone => ?_⟩
  · have hsome : ∃ palette, OwnPalette t version rel key palette := ⟨palette, hown⟩
    rw [dif_pos hsome]
    exact hsome.choose_spec.unique ho hown
  · rw [dif_neg]
    rintro ⟨palette, hown⟩
    exact hnone palette hown

theorem FileTree.Sound.shallow (h : t.Sound) (rel : List String) : Shallow t (t.entries.length + 1) rel := by
  intro more n hn
  have hlength := h.length_le hn
  rw [length_append] at hlength
  omega

theorem Colouring.schedule (hcolours : Colouring t c.version rel colours) (ht : t.Placed)
    (hperm : steps.Perm (dues t c colours rel)) : Schedule t c rel steps := by
  have hnodup : steps.Nodup := hperm.nodup_iff.mpr (nodup_dues ht.unique rel)
  refine ⟨hnodup, fun x hx => ?_, fun key k hrel hkind hcoloured htarget => ⟨colours key, ?_, fun own => ?_⟩⟩
  · obtain ⟨key, hrel, hstep⟩ := mem_dues.mp (hperm.mem_iff.mp hx)
    obtain ⟨⟨content, time, hfile⟩, -⟩ := stepAt_eq_some hstep
    rw [stepAt, hfile] at hstep
    exact ⟨key, content, time, colours key, hrel, hfile, hstep, hcolours.own key⟩
  · obtain ⟨front, name, content, time, rfl, hfile, hbinary, hk⟩ := hkind
    have hstep : stepAt t c colours (front ++ [name])
        = some (.decode (t.path (front ++ [name])) k (colours (front ++ [name]))) := by
      rcases hcoloured with rfl | rfl
      · simp [stepAt, hfile, Step.ofFile, hbinary, hk, htarget, Step.Coloured]
      · simp [stepAt, hfile, Step.ofFile, hbinary, hk, htarget, Step.Coloured]
    rw [← perm_singleton, perm_ext_iff_of_nodup (hnodup.filter _) (nodup_singleton _)]
    intro x
    rw [mem_filter, decide_eq_true_eq, mem_singleton]
    constructor
    · rintro ⟨hx, hpath⟩
      obtain ⟨key, -, hkey⟩ := mem_dues.mp (hperm.mem_iff.mp hx)
      obtain rfl : key = front ++ [name] := t.path_inj ((stepAt_eq_some hkey).2.1.symm.trans hpath)
      exact Option.some.inj (hkey.symm.trans hstep)
    · rintro rfl
      exact ⟨hperm.mem_iff.mpr (mem_dues.mpr ⟨_, hrel, hstep⟩), rfl⟩
  · exact hcolours.own key own

/-! ### Trees that can be checked -/

section Check

variable (t : FileTree) (version : String)

def FileTree.keys : List (List String) := [] :: t.entries.map Prod.fst

def kindAt? (key : List String) : Option Kind :=
  match t.lookup key, key.getLast? with
  | some (.file _ _), some name => if Status.ofName name = .binary then Kind.ofName? version name else none
  | _, _ => none

variable {t version} {rel : List String}

theorem FileTree.mem_keys {n : Node} (h : t.lookup key = some n) : key ∈ t.keys := by
  by_cases hkey : key = []
  · rw [hkey]
    exact mem_cons_self
  · rw [FileTree.lookup_of_ne_nil t hkey] at h
    exact mem_cons_of_mem [] (mem_map.mpr ⟨_, Table.mem_of_find? h, rfl⟩)

theorem hasKind_iff {k : Kind} : HasKind t version key k ↔ kindAt? t version key = some k := by
  constructor
  · rintro ⟨front, name, content, time, rfl, hfile, hbinary, hk⟩
    simp [kindAt?, hfile, hbinary, hk]
  · intro h
    unfold kindAt? at h
    split at h
    · rename_i content time name hfile hname
      split at h
      · rename_i hbinary
        obtain ⟨front, rfl⟩ := getLast?_eq_some_iff.mp hname
        exact ⟨front, name, content, time, rfl, hfile, hbinary, h⟩
      · cases h
    · cases h

theorem HasKind.mem_keys {k : Kind} (h : HasKind t version key k) : key ∈ t.keys := by
  obtain ⟨front, name, content, time, -, hfile, -⟩ := h
  exact FileTree.mem_keys hfile

theorem IsRoom.mem_keys (h : IsRoom t version room) : room ∈ t.keys := by
  obtain ⟨⟨time, hfolder⟩, -⟩ := h
  exact FileTree.mem_keys hfolder

instance (key : List String) (k : Kind) : Decidable (HasKind t version key k) := decidable_of_iff _ hasKind_iff.symm

instance (room : List String) : Decidable (IsRoom t version room) := inferInstanceAs (Decidable (_ ∧ _))

instance (key : List String) : Decidable (∃ room, rel <+: room ∧ IsRoom t version room ∧ room <+: key) :=
  decidable_of_iff (∃ room ∈ t.keys, rel <+: room ∧ IsRoom t version room ∧ room <+: key)
    ⟨fun ⟨room, _, h⟩ => ⟨room, h⟩, fun ⟨room, hrel, hroom, hkey⟩ => ⟨room, hroom.mem_keys, hrel, hroom, hkey⟩⟩

instance : Decidable (Housed t version rel) :=
  decidable_of_iff (∀ key ∈ t.keys, rel <+: key → HasKind t version key .palette →
      ∃ room, rel <+: room ∧ IsRoom t version room ∧ room <+: key)
    ⟨fun h key hrel hkind => h key hkind.mem_keys hrel hkind, fun h key _ => h key⟩

theorem orderly_iff : Orderly t version rel ↔ t.IsDir rel
    ∧ (∀ folder ∈ t.keys, rel <+: folder → t.IsDir folder → FolderKind.ofName version (t.path folder).name ≠ .costume)
    ∧ (∀ room ∈ t.keys, ∀ room' ∈ t.keys, rel <+: room → IsRoom t version room → IsRoom t version room' → room <+: room' →
    room = room') ∧ (∀ key ∈ t.keys, ∀ k ∈ [Kind.image, Kind.costume], rel <+: key → HasKind t version key k →
    ∃ room, rel <+: room ∧ IsRoom t version room ∧ room <+: key)
    ∧ ∀ room ∈ t.keys, rel <+: room → IsRoom t version room → ∃ key ∈ t.keys, room <+: key ∧ HasKind t version key .palette
    ∧ ∀ key' ∈ t.keys, room <+: key' → HasKind t version key' .palette → key' = key := by
  constructor
  · intro h
    refine ⟨h.dir, fun folder _ => h.costumes folder, fun room _ room' _ => h.apart room room', fun key _ k hk hrel hkind => ?_,
      fun room _ hrel hroom => ?_⟩
    · exact h.coloured key k hrel hkind (by simpa [Step.Coloured] using hk)
    · obtain ⟨key, hkey, hkind, honly⟩ := h.palettes room hrel hroom
      exact ⟨key, hkind.mem_keys, hkey, hkind, fun key' _ => honly key'⟩
  · rintro ⟨hdir, hcostumes, hapart, hcoloured, hpalettes⟩
    refine ⟨hdir, fun folder hrel hfolder => ?_, fun room room' hrel hroom hroom' => ?_, fun key k hrel hkind hk => ?_,
      fun room hrel hroom => ?_⟩
    · obtain ⟨time, hlookup⟩ := id hfolder
      exact hcostumes folder (FileTree.mem_keys hlookup) hrel hfolder
    · exact hapart room hroom.mem_keys room' hroom'.mem_keys hrel hroom hroom'
    · exact hcoloured key hkind.mem_keys k (by simpa [Step.Coloured] using hk) hrel hkind
    · obtain ⟨key, -, hkey, hkind, honly⟩ := hpalettes room hroom.mem_keys hrel hroom
      exact ⟨key, hkey, hkind, fun key' hkey' hkind' => honly key' hkind'.mem_keys hkey' hkind'⟩

set_option synthInstance.maxSize 256 in
instance : Decidable (Orderly t version rel) := decidable_of_iff _ orderly_iff.symm

end Check

/-- In whatever order entries are listed, pictures are decoded with the palette of their room, and with no other. -/
theorem crawlIn_keeps_to_rooms (order : Order) (w : Workspace) (rel : List String) (hfiles : w.files.Placed)
    (hdecoding : w.crawl.building = false) (hsettings : Settings w.crawl) (hfound : w.crawl.found = false)
    (hqueue : queueOf w = []) (ho : Orderly w.files w.crawl.version rel) (hh : Housed w.files w.crawl.version rel) :
    KeepsToRooms order w rel := by
  obtain ⟨colours, hcolours⟩ := ho.exists_colouring
  have hout : Outdoors w.files w.crawl w := ⟨⟨hfiles.kept, hdecoding, rfl, rfl, rfl⟩, hfound, hqueue⟩
  have hdepth := hfiles.sound.shallow rel
  have hcrawl := result_crawlIn order (w.files.path rel) w
  obtain ⟨steps, hperm, hsame, hends⟩ := hout.runs_walk hsettings hfiles order ho hh hcolours hdepth
  refine ⟨⟨steps, hcolours.schedule hfiles hperm, ?_⟩, fun depth folder v u hcomes hroom hu => ?_, fun u hu => ?_⟩
  · rw [hcrawl]
    exact hsame
  · have hafter := hout.of_comes hsettings hfiles ho hh hcolours hdepth hcomes hroom hu
    exact ⟨hafter.found, hafter.queue⟩
  · rw [Gives, hcrawl] at hu
    exact ⟨(hends u hu).found, (hends u hu).queue⟩

/-! ### A room with one picture -/

def study (beside : List (List String × Node)) : FileTree where
  base := []
  entries := beside ++ [ (["LF_001"], .folder 1),
    (["LF_001", "BM.dmp"], .file (.data [23, 0, 0, 0, 66, 77, 17, 0, 0, 0, 8, 0, 0, 0, 1, 1, 1, 1, 1, 1, 1, 1, 1]) 1),
    (["LF_001", "HD.xml"], .file (.data (Text.toUtf8 "<r><width>8</width><height>1</height></r>")) 1),
    (["LF_001", "PA.dmp"], .file (.data [0, 0, 0, 0, 80, 65, 6, 0, 0, 0, 0, 0, 255, 0]) 1)]
  clock := 9

def studyWork (beside : List (List String × Node)) : Workspace :=
  { (default : Workspace) with
    files := study beside, ledger := ⟨⟨"/", []⟩, none, false⟩, stamps := .record []
    crawl := ⟨false, "4", "vga", ["image"], [], false, none⟩ }

def attic : List (List String × Node) := [
  (["LF_000"], .folder 1),
  (["LF_000", "0.PA.dmp"], .file (.data [0, 0, 0, 0, 80, 65, 6, 0, 0, 0, 0, 255, 0, 0]) 1),
  (["LF_000", "BM.dmp"], .file (.data [23, 0, 0, 0, 66, 77, 17, 0, 0, 0, 8, 0, 0, 0, 1, 1, 1, 1, 1, 1, 1, 1, 1]) 1),
  (["LF_000", "HD.xml"], .file (.data (Text.toUtf8 "<r><width>8</width><height>1</height></r>")) 1)]

theorem placed_attic : (study attic).Placed where
  sound := ⟨by decide, by decide⟩
  unique := by unfold FileTree.Unique; decide
  base := by decide

/-- Two rooms with a picture each. -/
theorem crawlIn_keeps_to_rooms_attic : Orderly (study attic) "4" [] ∧ Housed (study attic) "4" []
    ∧ ∀ order, KeepsToRooms order (studyWork attic) [] :=
  have horderly : Orderly (study attic) "4" [] := by decide
  have hhoused : Housed (study attic) "4" [] := by decide
  ⟨horderly, hhoused, fun order => crawlIn_keeps_to_rooms order (studyWork attic) [] placed_attic rfl ⟨Or.inl rfl, rfl⟩ rfl rfl
    horderly hhoused⟩

/-! ### A palette in no room -/

def stray : List (List String × Node) :=
  [(["A.PA.dmp"], .file (.data [0, 0, 0, 0, 80, 65, 6, 0, 0, 0, 0, 255, 0, 0]) 1)]

def green : Palette := [.bands [0, 0, 0, 255], .bands [0, 255, 0, 255]]

def studySteps : List Step := [.palette ⟨"/", ["A.PA.dmp"]⟩, .decode ⟨"/", ["LF_001", "BM.dmp"]⟩ .image green,
  .stamp ⟨"/", ["LF_001", "HD.xml"]⟩, .palette ⟨"/", ["LF_001", "PA.dmp"]⟩]

def isRed (w : Workspace) : Bool :=
  (w.files.picture ⟨"/", ["LF_001", "BM_image.png"]⟩).toOption = some ⟨.rgb, 8, 1, (List.replicate 8 [255, 0, 0]).toArray⟩

theorem placed_stray : (study stray).Placed where
  sound := ⟨by decide, by decide⟩
  unique := by unfold FileTree.Unique; decide
  base := by decide

theorem childNames_stray : (study stray).childNames [] = ["A.PA.dmp", "LF_001"] := mergeSort_of_pairwise (by decide)

theorem childNames_stray_room : (study stray).childNames ["LF_001"] = ["BM.dmp", "HD.xml", "PA.dmp"] :=
  mergeSort_of_pairwise (by decide)

def strayFound : Workspace :=
  { studyWork stray with
    crawl := { (studyWork stray).crawl with palette := [.bands [0, 0, 0, 255], .bands [255, 0, 0, 255]], found := true } }

theorem roaming_stray : Roaming (study stray) (studyWork stray).crawl (studyWork stray) := ⟨placed_stray.kept, rfl, rfl, rfl, rfl⟩

theorem gives_visit_stray : Gives (visit ⟨"/", ["A.PA.dmp"]⟩) (studyWork stray) () strayFound := by
  have hpalette : (study stray).paletteAt "4" ⟨"/", ["A.PA.dmp"]⟩ = .ok [.bands [0, 0, 0, 255], .bands [255, 0, 0, 255]] := by
    decide
  have hread : Gives (Step.usePalette (studyWork stray).crawl ⟨"/", ["A.PA.dmp"]⟩) (studyWork stray)
      [.bands [0, 0, 0, 255], .bands [255, 0, 0, 255]] (studyWork stray) := by
    exact Prod.ext hpalette rfl
  rw [Gives, roaming_stray.result_palette (by decide) (by decide)]
  exact hread.result_bind _

theorem isRed_walk : isRed (result (crawlIn .listed ((study stray).path [])) (studyWork stray)).2 = true := by
  have hfound : Roaming (study stray) (studyWork stray).crawl strayFound := ⟨placed_stray.kept, rfl, rfl, rfl, rfl⟩
  have hroot := (study stray).isDir_nil
  have hroom : (study stray).IsDir ["LF_001"] := ⟨1, rfl⟩
  have hfirst : Gives (meet (walkIn .listed 5) ((study stray).path []) "A.PA.dmp") (studyWork stray) () strayFound :=
    (roaming_stray.result_meet placed_stray hroot (by decide) _).trans gives_visit_stray
  have hsecond : result (meet (walkIn .listed 5) ((study stray).path []) "LF_001") strayFound
      = result (do ["BM.dmp", "HD.xml", "PA.dmp"].forM (meet (walkIn .listed 4) ((study stray).path ["LF_001"])); leaveRoom)
        strayFound := by
    refine (hfound.result_walkIn placed_stray hroom (by decide) .listed 4).trans ?_
    change result (do ((study stray).childNames ["LF_001"]).forM _; leaveRoom) strayFound = _
    rw [childNames_stray_room]
  have hwalk : result (walkIn .listed 6 ((study stray).path [])) (studyWork stray)
      = result (do ["A.PA.dmp", "LF_001"].forM (meet (walkIn .listed 5) ((study stray).path []))) (studyWork stray) := by
    refine (roaming_stray.result_walkIn placed_stray hroot (by decide) .listed 5).trans ?_
    rw [if_neg (by decide), bind_pure_unit]
    change result (((study stray).childNames []).forM _) (studyWork stray) = _
    rw [childNames_stray]
  have hall : result (crawlIn .listed ((study stray).path [])) (studyWork stray)
      = result (do ["BM.dmp", "HD.xml", "PA.dmp"].forM (meet (walkIn .listed 4) ((study stray).path ["LF_001"])); leaveRoom)
        strayFound := by
    refine (result_crawlIn _ _ _).trans (hwalk.trans ?_)
    refine (hfirst.result_bind _).trans ?_
    change result (meet _ _ "LF_001" >>= fun _ => pure ()) strayFound = _
    rw [bind_pure_unit, hsecond]
  rw [hall]
  decide +kernel

theorem mem_studySteps (h : Schedule (study stray) (studyWork stray).crawl [] steps) :
    steps ∈ studySteps.sublists.flatMap List.permutations' := by
  have hgreen : OwnPalette (study stray) "4" [] ["LF_001", "BM.dmp"] green :=
    ⟨["LF_001"], ["LF_001", "PA.dmp"], by decide, by decide, by decide, by decide, by decide, by decide⟩
  have hpalette {p : Path} {palette : Palette} {x : Step} (hbinary : Status.ofName p.name = .binary)
      (hkind : Kind.ofName? "4" p.name = some .palette) (hstep : Step.ofFile (studyWork stray).crawl palette p = some x) :
      x = .palette p := by
    have hversion : (studyWork stray).crawl.version = "4" := rfl
    simpa [Step.ofFile, hbinary, hversion, hkind, eq_comm] using hstep
  have hsubset : steps ⊆ studySteps := by
    intro x hx
    obtain ⟨key, content, time, palette, -, hfile, hstep, hown⟩ := h.due x hx
    have hkey := FileTree.mem_keys hfile
    simp only [FileTree.keys, study, stray, map_cons, map_nil, cons_append, nil_append, mem_cons, not_mem_nil, or_false] at hkey
    rcases hkey with rfl | rfl | rfl | rfl | rfl | rfl
    · cases hfile
    · rw [hpalette (by decide) (by decide) hstep]
      decide
    · cases hfile
    · obtain rfl := hown green hgreen
      have hdecode : Step.ofFile (studyWork stray).crawl green ((study stray).path ["LF_001", "BM.dmp"])
        = some (.decode ⟨"/", ["LF_001", "BM.dmp"]⟩ .image green) := by decide
      rw [← Option.some.inj (hdecode.symm.trans hstep)]
      decide
    · have hheader : Status.ofName ((study stray).path ["LF_001", "HD.xml"]).name = .header := by decide
      simp only [Step.ofFile, hheader, Option.some.injEq] at hstep
      rw [← hstep]
      decide
    · rw [hpalette (by decide) (by decide) hstep]
      decide
  obtain ⟨some, hperm, hsub⟩ := subperm_of_subset h.nodup hsubset
  exact mem_flatMap.mpr ⟨some, mem_sublists.mpr hsub, mem_permutations'.mpr hperm.symm⟩

theorem not_isRed_steps : ∀ steps ∈ studySteps.sublists.flatMap List.permutations',
    isRed (result (steps.forM (Step.run (studyWork stray).crawl)) (studyWork stray)).2 = false := by decide +kernel

/-- A palette that lies in no room spoils the picture of a room. -/
theorem not_keeps_to_rooms_stray : ¬ ∀ (order : Order) (w : Workspace) (rel : List String), w.files.Placed →
    w.crawl.building = false → Settings w.crawl → w.crawl.found = false → queueOf w = [] →
    Orderly w.files w.crawl.version rel → KeepsToRooms order w rel := by
  intro h
  have horderly : Orderly (study stray) "4" [] := by decide
  obtain ⟨⟨steps, hschedule, -, hsame⟩, -, -⟩ := h .listed (studyWork stray) [] placed_stray rfl ⟨Or.inl rfl, rfl⟩ rfl rfl horderly
  have hfiles := congrArg Workspace.files hsame
  change (result (crawlIn .listed ((study stray).path [])) (studyWork stray)).2.files
    = (result (steps.forM (Step.run (studyWork stray).crawl)) (studyWork stray)).2.files at hfiles
  have hred := isRed_walk
  rw [isRed, hfiles, ← isRed, not_isRed_steps steps (mem_studySteps hschedule)] at hred
  cases hred

end ScummKit
