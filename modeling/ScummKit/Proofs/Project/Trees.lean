import Mathlib.Data.List.Induction
import Mathlib.Data.List.Nodup
import Mathlib.Data.List.Perm.Subperm
import ScummKit.FileTree

/-!
# Trees of files as they are found on a disk

In a tree that comes from a disk every entry lies in a folder of the tree and has a name that leads
to it. Such a tree is `Sound`, and in it a path without `..` leads to an entry exactly if the tree has
one under its names. Storing a file keeps a tree sound; besides the file itself only the time of its
folder changes.

`Agree` compares a tree before and after some work: folders stay, and the files whose names are
watched stay as they are, with their time.
-/

namespace ScummKit

open List
variable {above rest names : List String} {before after : List String} {other : List String}
variable {o : Option Node} {g : Node → Node} {κ α : Type} {table : List (κ × α)}

/-- A name that an entry of a folder can have. -/
def ValidName (n : String) : Prop := n ≠ "" ∧ n ≠ "." ∧ n ≠ ".." ∧ '/' ∉ n.toList

instance (n : String) : Decidable (ValidName n) :=
  inferInstanceAs (Decidable (n ≠ "" ∧ n ≠ "." ∧ n ≠ ".." ∧ '/' ∉ n.toList))

theorem Table.mem_of_find? [DecidableEq κ] {key : κ} {v : α} (h : Table.find? key table = some v) : (key, v) ∈ table := by
  induction table with
  | nil => cases h
  | cons entry rest ih =>
    obtain ⟨k, w⟩ := entry
    rw [Table.find?] at h
    split at h
    · rename_i hk
      cases h
      rw [hk]
      exact mem_cons_self
    · exact mem_cons_of_mem _ (ih h)

theorem Table.find?_isSome_of_mem [DecidableEq κ] {key : κ} {v : α} (h : (key, v) ∈ table) :
    ∃ w, Table.find? key table = some w := by
  induction table with
  | nil => cases h
  | cons entry rest ih =>
    obtain ⟨k, w⟩ := entry
    rw [Table.find?]
    split
    · exact ⟨w, rfl⟩
    · rename_i hk
      rcases mem_cons.mp h with h | h
      · cases h
        exact absurd rfl hk
      · exact ih h

theorem Table.find?_map {κ α β : Type} [DecidableEq κ] {f : κ × α → κ × β} (hf : ∀ e, (f e).1 = e.1)
    (key : κ) (table : List (κ × α)) : Table.find? key (table.map f) = (Table.find? key table).map fun v => (f (key, v)).2 := by
  induction table with
  | nil => rfl
  | cons entry rest ih =>
    obtain ⟨k, v⟩ := entry
    have hk : f (k, v) = (k, (f (k, v)).2) := Prod.ext (hf (k, v)) rfl
    rw [map_cons, hk, Table.find?, Table.find?]
    split
    · rename_i heq
      rw [heq]
      rfl
    · exact ih

theorem Path.parts_concat (p : Path) (h : p.parts ≠ []) : p.parts = p.parts.dropLast ++ [p.name] := by
  obtain hnil | ⟨front, last, hlast⟩ := eq_nil_or_concat p.parts
  · exact absurd hnil h
  · rw [Path.name, hlast]
    simp

namespace FileTree

variable {n : Node} {t : FileTree} {rel : List String} {root name : String} {c : Content}

/-! ### Entries -/

def lookup (t : FileTree) : List String → Option Node
  | [] => some (.folder t.clock)
  | rel => Table.find? rel t.entries

theorem lookup_of_ne_nil (t : FileTree) (h : rel ≠ []) : t.lookup rel = Table.find? rel t.entries := by
  cases rel with
  | nil => exact absurd rfl h
  | cons n ns => rfl

def IsDir (t : FileTree) (rel : List String) : Prop := ∃ time, t.lookup rel = some (.folder time)

instance (t : FileTree) (key : List String) : Decidable (t.IsDir key) :=
  match h : t.lookup key with
  | some (.folder time) => isTrue ⟨time, h⟩
  | some (.file _ _) => isFalse fun ⟨_, h'⟩ => nomatch h.symm.trans h'
  | none => isFalse fun ⟨_, h'⟩ => nomatch h.symm.trans h'

theorem isDir_nil (t : FileTree) : t.IsDir [] := ⟨t.clock, rfl⟩

/-- Every entry lies in a folder, under a name that leads to it. -/
structure Sound (t : FileTree) : Prop where
  names : ∀ e ∈ t.entries, e.1 ≠ [] ∧ ∀ n ∈ e.1, ValidName n
  parents : ∀ e ∈ t.entries, t.IsDir e.1.dropLast

theorem below?_base (t : FileTree) (rel : List String) : t.below? (t.base ++ rel) = some rel := by
  have hprefix : t.base.isPrefixOf (t.base ++ rel) = true := by simp
  rw [below?, if_pos hprefix, drop_left]

theorem node?_base (t : FileTree) (rel : List String) : t.node? (t.base ++ rel) = t.lookup rel := by
  rw [node?, below?_base]
  cases rel <;> rfl

theorem Sound.valid (h : t.Sound) (hrel : t.lookup rel = some n) : ∀ name ∈ rel, ValidName name := by
  cases rel with
  | nil => exact fun _ hn => absurd hn not_mem_nil
  | cons x xs => exact (h.names _ (Table.mem_of_find? hrel)).2

theorem Sound.isDir_of_lookup (h : t.Sound) {rel more : List String}
    (hentry : t.lookup (rel ++ more) = some n) (hmore : more ≠ []) : t.IsDir rel := by
  induction more using List.reverseRecOn generalizing n with
  | nil => exact absurd rfl hmore
  | append_singleton more x ih =>
    have hne : rel ++ (more ++ [x]) ≠ [] := by simp
    rw [lookup_of_ne_nil t hne] at hentry
    have hdir := h.parents _ (Table.mem_of_find? hentry)
    have hdrop : (rel ++ (more ++ [x])).dropLast = rel ++ more := by
      rw [← append_assoc, dropLast_concat]
    simp only [hdrop] at hdir
    by_cases hm : more = []
    · rw [hm, append_nil] at hdir
      exact hdir
    · obtain ⟨time, htime⟩ := hdir
      exact ih htime hm

theorem Sound.isDir_take (hs : t.Sound) (h : t.lookup rel = some n) {i : Nat} (hi : i < rel.length) : t.IsDir (rel.take i) := by
  rw [← take_append_drop i rel] at h
  apply hs.isDir_of_lookup h
  rw [Ne, drop_eq_nil_iff]
  omega

/-! ### Following paths -/

theorem node?_of_base_eq (t : FileTree) (h : before ++ after = t.base)
    (hafter : after ≠ []) : ∃ time, t.node? before = some (.folder time) := by
  have hbelow : t.below? before = none := by
    rw [below?, if_neg]
    rw [ isPrefixOf_iff_prefix]
    intro hp
    have hlength := hp.length_le
    rw [← h, length_append] at hlength
    have := length_pos_iff.mpr hafter
    omega
  have hprefix : before.isPrefixOf t.base = true := by
    rw [ isPrefixOf_iff_prefix]
    exact ⟨after, h⟩
  rw [node?, hbelow]
  exact ⟨t.clock, if_pos hprefix⟩

theorem walk_base (t : FileTree) (h : before ++ after = t.base) (hdots : ".." ∉ after) (rest : List String) :
    t.walk before.reverse (after ++ rest) = t.walk t.base.reverse rest := by
  induction after generalizing before with
  | nil =>
    rw [append_nil] at h
    rw [h]
    rfl
  | cons name after ih =>
    obtain ⟨time, htime⟩ := t.node?_of_base_eq h (cons_ne_nil name after)
    rw [mem_cons, not_or] at hdots
    have hnext : (before ++ [name]) ++ after = t.base := by simpa using h
    have hstep := ih hnext hdots.2
    rw [reverse_append] at hstep
    rw [cons_append, walk, reverse_reverse, htime]
    simp only [if_neg (Ne.symm hdots.1)]
    exact hstep

theorem walk_below (t : FileTree) {before rest : List String} (hdots : ".." ∉ rest)
    (hdirs : ∀ i < rest.length, t.IsDir (before ++ rest.take i)) :
    t.walk (t.base ++ before).reverse rest = .ok (t.base ++ before ++ rest) := by
  induction rest generalizing before with
  | nil => rw [walk, reverse_reverse, append_nil]
  | cons name rest ih =>
    obtain ⟨time, htime⟩ := hdirs 0 (Nat.zero_lt_succ _)
    rw [take_zero, append_nil] at htime
    rw [mem_cons, not_or] at hdots
    have hnext : ∀ i < rest.length, t.IsDir ((before ++ [name]) ++ rest.take i) := by
      intro i hi
      have hdir := hdirs (i + 1) (Nat.succ_lt_succ hi)
      rwa [take_succ_cons, append_cons] at hdir
    have hstep := ih hdots.2 hnext
    rw [walk, reverse_reverse, node?_base, htime]
    simp only [if_neg (Ne.symm hdots.1)]
    rw [← append_assoc, reverse_append] at hstep
    rw [append_cons (t.base ++ before)]
    exact hstep

theorem walk_eq (hdots : ".." ∉ rest) (h : t.walk above rest = .ok names) : names = above.reverse ++ rest := by
  induction rest generalizing above with
  | nil =>
    cases h
    rw [append_nil]
  | cons name rest ih =>
    rw [mem_cons, not_or] at hdots
    rw [walk] at h
    split at h
    · cases h
    · cases h
    · rw [if_neg (Ne.symm hdots.1)] at h
      rw [ih hdots.2 h, reverse_cons, append_assoc]
      rfl

section

variable (hs : t.Sound) (hdots : ".." ∉ t.base ++ rel)

include hdots

theorem locate_eq (hdirs : ∀ i < rel.length, t.IsDir (rel.take i)) : t.locate ⟨root, t.base ++ rel⟩ = .ok (t.base ++ rel) := by
  rw [mem_append, not_or] at hdots
  have hbelow : t.walk (t.base ++ []).reverse rel = .ok (t.base ++ [] ++ rel) := t.walk_below hdots.2 hdirs
  rw [append_nil] at hbelow
  rw [← hbelow]
  exact t.walk_base (nil_append t.base) hdots.1 rel

theorem eq_of_locate (h : t.locate ⟨root, t.base ++ rel⟩ = .ok names) : names = t.base ++ rel :=
  walk_eq hdots h

theorem lookup_of_get (h : t.get ⟨root, t.base ++ rel⟩ = .ok n) : t.lookup rel = some n := by
  obtain ⟨_, hlocate, h⟩ := bind_eq_ok.mp h
  rw [eq_of_locate hdots hlocate, node?_base] at h
  split at h
  · rename_i hentry
    cases h
    exact hentry
  · cases h

theorem isDir_of_list {names : List String} (h : t.list ⟨root, t.base ++ rel⟩ = .ok names) : t.IsDir rel := by
  obtain ⟨_, hlocate, h⟩ := bind_eq_ok.mp h
  rw [eq_of_locate hdots hlocate, node?_base] at h
  split at h
  · cases h
  · cases h
  · rename_i time hentry
    exact ⟨time, hentry⟩

include hs

theorem get_of_lookup (h : t.lookup rel = some n) : t.get ⟨root, t.base ++ rel⟩ = .ok n := by
  rw [get, locate_eq hdots fun i => hs.isDir_take h]
  simp only [Bind.bind, Except.bind, node?_base, h]

theorem get?_eq : t.get? ⟨root, t.base ++ rel⟩ = t.lookup rel := by
  rw [get?]
  cases hentry : t.lookup rel with
  | some n => rw [get_of_lookup hs hdots hentry]; rfl
  | none =>
    cases hget : t.get ⟨root, t.base ++ rel⟩ with
    | error f => rfl
    | ok n =>
      rw [lookup_of_get hdots hget] at hentry
      cases hentry

theorem list_eq (h : t.IsDir rel) : t.list ⟨root, t.base ++ rel⟩ = .ok (t.childNames rel) := by
  obtain ⟨time, htime⟩ := h
  rw [list, locate_eq hdots fun i => hs.isDir_take htime]
  simp only [Bind.bind, Except.bind, node?_base, htime, below?_base]

end

theorem childName?_eq {folder key : List String} : childName? folder key = some name ↔ key = folder ++ [name] := by
  rw [childName?]
  constructor
  · intro h
    split at h
    · rename_i hp
      obtain ⟨rest, rfl⟩ := isPrefixOf_iff_prefix.mp hp
      rw [drop_left] at h
      split at h
      · cases h
        rfl
      · cases h
    · cases h
  · rintro rfl
    rw [if_pos (by simp), drop_left]

theorem mem_childNames : name ∈ t.childNames rel ↔ ∃ n, t.lookup (rel ++ [name]) = some n := by
  rw [childNames, mem_mergeSort, mem_filterMap, lookup_of_ne_nil t (by simp)]
  constructor
  · rintro ⟨⟨key, n⟩, hmem, hname⟩
    rw [childName?_eq] at hname
    subst hname
    exact Table.find?_isSome_of_mem hmem
  · rintro ⟨n, hn⟩
    exact ⟨_, Table.mem_of_find? hn, childName?_eq.mpr rfl⟩

/-! ### Storing files -/

/-- Changes at most the times of folders. -/
structure Retimes (g : Node → Node) : Prop where
  file : ∀ c time, g (.file c time) = .file c time
  folder : ∀ time, ∃ time', g (.folder time) = .folder time'

theorem Retimes.map_file (hg : Retimes g) {time : Int} : o.map g = some (.file c time) ↔ o = some (.file c time) := by
  rcases o with _ | ⟨c', time'⟩ | time'
  · exact Iff.rfl
  · rw [Option.map_some, hg.file]
  · obtain ⟨time'', h⟩ := hg.folder time'
    simp [h]

theorem Retimes.map_folder (hg : Retimes g) : (∃ time, o.map g = some (.folder time)) ↔ ∃ time, o = some (.folder time) := by
  rcases o with _ | ⟨c', time'⟩ | time'
  · exact Iff.rfl
  · simp [hg.file]
  · obtain ⟨time'', h⟩ := hg.folder time'
    simp [h]

/-- An entry that is put into a tree is found under its names; of the others at most the time of its
folder changes. -/
theorem lookup_place (t : FileTree) (rel : List String) (hrel : rel ≠ []) (n : Node) (other : List String) : ∃ g, Retimes g
    ∧ (t.place rel n).lookup other = (if rel = other then some n else t.lookup other).map g := by
  have hput : other ≠ [] → Table.find? other (Table.put rel n t.entries) = if rel = other then some n else t.lookup other := by
    intro hother
    rw [Table.find?_put, lookup_of_ne_nil t hother]
  rcases eq_or_ne other [] with rfl | hother
  · refine ⟨id, ⟨fun _ _ => rfl, fun time => ⟨time, rfl⟩⟩, ?_⟩
    rw [place]
    split <;> rfl
  · by_cases hhas : Table.has rel t.entries = true
    · refine ⟨id, ⟨fun _ _ => rfl, fun time => ⟨time, rfl⟩⟩, ?_⟩
      rw [Option.map_id, id, ← hput hother, place, if_pos hhas, lookup_of_ne_nil _ hother]
    · rw [place, if_neg hhas, lookup_of_ne_nil _ hother, Table.find?_map, hput hother]
      · refine ⟨_, ?_, rfl⟩
        constructor
        · intro c time
          split <;> rfl
        · intro time
          split
          · exact ⟨t.clock, rfl⟩
          · exact ⟨time, rfl⟩
      · intro e
        split
        · split <;> rfl
        · rfl

theorem mem_place {e : List String × Node} (h : e ∈ (t.place rel n).entries) : e.1 = rel ∨ ∃ m, (e.1, m) ∈ t.entries := by
  rw [place] at h
  split at h
  · exact (Table.mem_put h).imp (congrArg Prod.fst) fun hmem => ⟨e.2, hmem⟩
  · obtain ⟨e', hmem, he⟩ := mem_map.mp h
    have hkey : e.1 = e'.1 := by
      rw [← he]
      split
      · split <;> rfl
      · rfl
    rw [hkey]
    exact (Table.mem_put hmem).imp (congrArg Prod.fst) fun hm => ⟨e'.2, hm⟩

section Place

variable {time : Int}

theorem file_place {c' : Content} {time' : Int} : (t.place (rel ++ [name]) (.file c time)).lookup other = some (.file c' time')
    ↔ if rel ++ [name] = other then c = c' ∧ time = time' else t.lookup other = some (.file c' time') := by
  obtain ⟨g, hg, hentry⟩ := t.lookup_place (rel ++ [name]) (by simp) (.file c time) other
  rw [hentry, hg.map_file]
  split
  · simp
  · rfl

theorem isDir_place : (t.place (rel ++ [name]) (.file c time)).IsDir other ↔ rel ++ [name] ≠ other ∧ t.IsDir other := by
  obtain ⟨g, hg, hentry⟩ := t.lookup_place (rel ++ [name]) (by simp) (.file c time) other
  rw [IsDir, hentry, hg.map_folder]
  split
  · rename_i heq
    simp [heq]
  · rename_i hne
    simp [hne, IsDir]

theorem Sound.valid_concat (hs : t.Sound) (hdir : t.IsDir rel) (hname : ValidName name) : ∀ n ∈ rel ++ [name], ValidName n := by
  obtain ⟨time, hfolder⟩ := hdir
  exact forall_mem_append.mpr ⟨hs.valid hfolder, forall_mem_singleton.mpr hname⟩

theorem Sound.place (hs : t.Sound) (hdir : t.IsDir rel) (hnot : ¬ t.IsDir (rel ++ [name]))
    (hname : ValidName name) : (t.place (rel ++ [name]) (.file c time)).Sound := by
  constructor
  · intro e he
    rcases mem_place he with hkey | ⟨m, hm⟩
    · rw [hkey]
      exact ⟨by simp, hs.valid_concat hdir hname⟩
    · exact hs.names (e.1, m) hm
  · intro e he
    rw [isDir_place]
    rcases mem_place he with hkey | ⟨m, hm⟩
    · rw [hkey, dropLast_concat]
      exact ⟨by simp, hdir⟩
    · have hparent : t.IsDir e.1.dropLast := hs.parents (e.1, m) hm
      refine ⟨?_, hparent⟩
      intro heq
      exact hnot (heq ▸ hparent)

end Place

theorem isDir_tick : t.tick.IsDir rel ↔ t.IsDir rel := by
  cases rel with
  | nil => exact ⟨fun _ => t.isDir_nil, fun _ => t.tick.isDir_nil⟩
  | cons n ns => exact Iff.rfl

theorem file_tick {time : Int} : t.tick.lookup rel = some (.file c time) ↔ t.lookup rel = some (.file c time) := by
  cases rel with
  | nil => simp [lookup]
  | cons n ns => exact Iff.rfl

theorem Sound.tick (hs : t.Sound) : t.tick.Sound :=
  ⟨hs.names, fun e he => isDir_tick.mpr (hs.parents e he)⟩

theorem walk_concat (hname : name ≠ "..") (h : t.walk above (rest ++ [name]) = .ok names) :
    ∃ before time, names = before ++ [name] ∧ t.node? before = some (.folder time) := by
  induction rest generalizing above with
  | nil =>
    rw [nil_append, walk] at h
    split at h
    · cases h
    · cases h
    · rename_i time htime
      rw [if_neg hname] at h
      cases h
      exact ⟨above.reverse, time, reverse_cons, htime⟩
  | cons x rest ih =>
    rw [cons_append, walk] at h
    split at h
    · cases h
    · cases h
    · split at h
      · exact ih h
      · exact ih h

/-- A file is stored in a folder of the tree under its own name, where there was no folder, or outside
the tree. -/
theorem write_cases {t t' : FileTree} {p : Path} (hname : ValidName p.name)
    (h : t.write p c = .ok t') : t' = t ∨ ∃ rel, t.IsDir rel ∧ ¬ t.IsDir (rel ++ [p.name])
    ∧ t' = t.tick.place (rel ++ [p.name]) (.file c (t.clock + 1)) := by
  obtain ⟨names, hlocate, h⟩ := bind_eq_ok.mp h
  rw [locate, p.parts_concat fun hnil => hname.1 (by rw [Path.name, hnil]; rfl)] at hlocate
  obtain ⟨before, time, rfl, hbefore⟩ := walk_concat hname.2.2.1 hlocate
  split at h
  · cases h
  · rename_i hfile
    split at h
    · rename_i rel hbelow
      cases h
      right
      rw [below?] at hbelow
      split at hbelow
      · rename_i hp
        obtain ⟨rest, hrest⟩ := isPrefixOf_iff_prefix.mp hp
        rw [← hrest, drop_left] at hbelow
        cases hbelow
        rcases eq_nil_or_concat rel with rfl | ⟨front, last, rfl⟩
        · rw [← hrest, node?_base] at hfile
          exact absurd rfl (hfile t.clock)
        · rw [concat_eq_append, ← append_assoc] at hrest
          obtain ⟨rfl, hlast⟩ := append_inj' hrest rfl
          obtain rfl := singleton_inj.mp hlast
          rw [node?_base] at hbefore
          rw [append_assoc, node?_base] at hfile
          rw [concat_eq_append]
          exact ⟨front, ⟨time, hbefore⟩, fun ⟨time', h'⟩ => hfile time' h', rfl⟩
      · cases hbelow
    · cases h
      exact Or.inl rfl

theorem lookup_of_write {t t' : FileTree} (hdots : ".." ∉ t.base ++ (rel ++ [name]))
    (h : t.write ⟨root, t.base ++ (rel ++ [name])⟩ c = .ok t') : ∃ time, t'.lookup (rel ++ [name]) = some (.file c time) := by
  obtain ⟨_, hlocate, h⟩ := bind_eq_ok.mp h
  rw [eq_of_locate hdots hlocate, below?_base] at h
  split at h
  · cases h
  · cases h
    refine ⟨t.clock + 1, ?_⟩
    rw [file_place, if_pos rfl]
    exact ⟨rfl, rfl⟩

theorem write_of_isDir (c : Content) (hs : t.Sound) (hdots : ".." ∉ t.base ++ (rel ++ [name])) (hdir : t.IsDir rel)
    (hnot : ¬ t.IsDir (rel ++ [name])) : t.write ⟨root, t.base ++ (rel ++ [name])⟩ c
    = .ok (t.tick.place (rel ++ [name]) (.file c (t.clock + 1))) := by
  have hdirs : ∀ i < (rel ++ [name]).length, t.IsDir ((rel ++ [name]).take i) := by
    intro i hi
    rw [length_append, length_singleton] at hi
    rw [take_append_of_le_length (by omega)]
    by_cases hlast : i = rel.length
    · rwa [hlast, take_length]
    · obtain ⟨time, htime⟩ := hdir
      exact hs.isDir_take htime (by omega)
  rw [write, locate_eq hdots hdirs]
  simp only [Bind.bind, Except.bind, node?_base, below?_base]
  split
  · rename_i time htime
    exact absurd ⟨time, htime⟩ hnot
  · rfl

theorem Sound.length_le (hs : t.Sound) (h : t.lookup rel = some n) : rel.length ≤ t.entries.length := by
  let prefixes := (List.range rel.length).map fun i => rel.take (i + 1)
  have hnodup : prefixes.Nodup := by
    apply nodup_range.map_on
    intro i hi j hj heq
    have hlength := congrArg List.length heq
    rw [mem_range] at hi hj
    rw [length_take, length_take] at hlength
    omega
  have hsub : prefixes ⊆ t.entries.map Prod.fst := by
    intro key hkey
    obtain ⟨i, hi, rfl⟩ := mem_map.mp hkey
    rw [mem_range] at hi
    have hfound : ∃ m, t.lookup (rel.take (i + 1)) = some m := by
      by_cases hlast : i + 1 = rel.length
      · rw [hlast, take_length]
        exact ⟨n, h⟩
      · obtain ⟨time, htime⟩ := hs.isDir_take h (show i + 1 < rel.length by omega)
        exact ⟨_, htime⟩
    obtain ⟨m, hm⟩ := hfound
    have hne : rel.take (i + 1) ≠ [] := by
      rw [Ne, take_eq_nil_iff, ← length_eq_zero_iff]
      omega
    rw [lookup_of_ne_nil t hne] at hm
    exact mem_map.mpr ⟨_, Table.mem_of_find? hm, rfl⟩
  have hle := (hnodup.subperm hsub).length_le
  rwa [length_map, length_range, length_map] at hle

/-! ### Comparing trees -/

/-- What work on a tree leaves alone: folders, and the files with watched names. -/
structure Agree (watched : String → Prop) (t t' : FileTree) : Prop where
  base : t'.base = t.base
  dirs : ∀ rel, t.IsDir rel → t'.IsDir rel
  files : ∀ rel name, watched name → ∀ c time,
    t'.lookup (rel ++ [name]) = some (.file c time) ↔ t.lookup (rel ++ [name]) = some (.file c time)

variable {watched : String → Prop}

theorem Agree.refl (t : FileTree) : Agree watched t t := ⟨rfl, fun _ h => h, fun _ _ _ _ _ => Iff.rfl⟩

theorem Agree.trans {t t' t'' : FileTree} (h : Agree watched t t') (h' : Agree watched t' t'') : Agree watched t t'' :=
  ⟨h'.base.trans h.base, fun rel hdir => h'.dirs rel (h.dirs rel hdir),
    fun rel name hw c time => (h'.files rel name hw c time).trans (h.files rel name hw c time)⟩

theorem agree_write (watched : String → Prop) {t t' : FileTree} {p : Path} (hs : t.Sound)
    (hname : ValidName p.name) (hwatched : ¬ watched p.name) (h : t.write p c = .ok t') : t'.Sound ∧ Agree watched t t' := by
  rcases write_cases hname h with h' | ⟨rel, hdir, hnot, h'⟩
  · rw [h']
    exact ⟨hs, Agree.refl t⟩
  · rw [← isDir_tick] at hdir hnot
    rw [h']
    refine ⟨hs.tick.place hdir hnot hname, ?_, ?_, ?_⟩
    · rw [place]
      split <;> rfl
    · intro other hother
      rw [isDir_place, isDir_tick]
      exact ⟨fun heq => hnot (heq ▸ isDir_tick.mpr hother), hother⟩
    · intro other name hw c' time'
      have hne : rel ++ [p.name] ≠ other ++ [name] := by
        intro heq
        obtain rfl := singleton_inj.mp (append_inj' heq rfl).2
        exact hwatched hw
      rw [file_place, if_neg hne, file_tick]

end FileTree

end ScummKit
