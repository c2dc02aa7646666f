import ScummKit.Pack.Directory
import ScummKit.Proofs.Pack.Runs
import ScummKit.Proofs.Project.Trees

/-!
# Directories

A directory of an index lists the places of the resources of one kind by their numbers. The number of
its entries is the greatest number of a resource, or the least number of entries that the game expects
if that is more, and the entries are those with a smaller number. So the resource with the greatest
number has an entry only if the game expects more entries anyway (`directory_entry_iff`).
-/

namespace ScummKit.Pack

open List

variable {rows : List (Key × Int)} {s : State}
variable {places : List (Int × Int)} {table : String} {least : Option Int}

/-- Rows that packing makes for the resources of one kind: the place of each resource, and its number. -/
structure Listing (rows : List (Key × Int)) : Prop where
  places : ∀ e ∈ rows, ∃ room offset : Nat, e.1 = .place room offset ∧ 0 < room + offset ∧ room < 256 ∧ offset < 4294967296
  numbers : ∀ e ∈ rows, 0 ≤ e.2 ∧ e.2 < 65536
  keys : (rows.map Prod.fst).Nodup
  distinct : (rows.map Prod.snd).Nodup

/-! ### Rows by number -/

section Rows

variable {key : Key} {i : Int} {n count : Nat}

theorem find?_foldl_put (h : (rows.map Prod.snd).Nodup) (table : List (Int × Key)) :
    Table.find? i (rows.foldl (fun t e => Table.put e.2 e.1 t) table) = some key ↔
    (key, i) ∈ rows ∨ i ∉ rows.map Prod.snd ∧ Table.find? i table = some key := by
  induction rows generalizing table with
  | nil => simp
  | cons e rows ih =>
    obtain ⟨k, j⟩ := e
    obtain ⟨hj, hrows⟩ := nodup_cons.1 h
    rw [foldl_cons, ih hrows, Table.find?_put]
    by_cases hij : j = i
    · subst hij
      have hnew : j ∉ rows.map Prod.snd := hj
      have hout : (key, j) ∉ rows := fun hmem => hnew (mem_map_of_mem hmem)
      simp only [hout, false_or, hnew, not_false_eq_true, true_and, if_true, Option.some.injEq,
        mem_cons, Prod.mk.injEq, and_true, or_false, map_cons, not_true, false_and]
      exact eq_comm
    · simp [hij, Ne.symm hij]

theorem find?_byNumber (h : (rows.map Prod.snd).Nodup) : Table.find? i ((rows.mergeSort fun a b => a.2 ≤ b.2).foldl
    (fun t e => Table.put e.2 e.1 t) ([] : List (Int × Key))) = some key ↔ (key, i) ∈ rows := by
  have hperm := mergeSort_perm rows fun a b : Key × Int => decide (a.2 ≤ b.2)
  have hnodup : ((rows.mergeSort fun a b => a.2 ≤ b.2).map Prod.snd).Nodup :=
    (hperm.map Prod.snd).nodup_iff.2 h
  rw [find?_foldl_put hnodup]
  simp [Table.find?]

theorem length_directoryRows (rows : List (Key × Int)) (count : Nat) : (Job.directoryRows rows count).length = count := by
  rw [Job.directoryRows, length_map, length_range]

theorem getElem?_directoryRows_of_mem (h : (rows.map Prod.snd).Nodup) {room offset : Int}
    (hmem : (.place room offset, (n : Int)) ∈ rows) (hn : n < count) :
    (Job.directoryRows rows count)[n]? = some (room, offset) := by
  have hfind := (find?_byNumber h).2 hmem
  rw [Job.directoryRows, getElem?_map, getElem?_range hn, Option.map_some, hfind]
  rfl

theorem getElem?_directoryRows (h : (rows.map Prod.snd).Nodup) {e : Int × Int}
    (he : (Job.directoryRows rows count)[n]? = some e) : (.place e.1 e.2, (n : Int)) ∈ rows ∨ e = (0, 0) := by
  have hn : n < count := by
    obtain ⟨hlt, -⟩ := List.getElem?_eq_some_iff.1 he
    rwa [length_directoryRows] at hlt
  rw [Job.directoryRows, List.getElem?_map, List.getElem?_range hn, Option.map_some, Option.some.injEq] at he
  split at he
  · rename_i room offset hfind
    subst he
    exact .inl ((find?_byNumber h).1 hfind)
  · exact .inr he.symm

end Rows

/-! ### Reading rows -/

namespace Job

variable {f : Format}

theorem does_times (row : Job α) (value : γ → α) {code : γ → List UInt8} {xs : List γ} {b : List UInt8}
    (hrow : ∀ x ∈ xs, ∀ (s : State) (b : List UInt8), s.ahead = code x ++ b →
    Does row s (value x) (s.past (code x).length)) (h : s.ahead = xs.flatMap code ++ b) :
    Does (times row xs.length) s (xs.map value) (s.past (xs.flatMap code).length) := by
  induction xs generalizing s with
  | nil => rfl
  | cons x xs ih =>
    obtain ⟨hx, hxs⟩ := forall_mem_cons.1 hrow
    rw [flatMap_cons, append_assoc] at h
    have hrest := ih hxs (State.ahead_past_append h rfl)
    rw [State.past_past, ← length_append] at hrest
    exact (hx s _ h).bind (hrest.bind rfl)

def noted : Nat → List (Int × Int) → List (Key × Int) → List (Key × Int)
  | _, [], table => table
  | i, e :: rest, table => noted (i + 1) rest (Table.put (.place e.1 e.2) i table)

theorem does_noteRows {i : Nat} (h : s.tables.rows table = .ok rows) :
    Does (noteRows table i places) s () (s.filed (s.tables.replace table (noted i places rows))) := by
  induction places generalizing i s rows with
  | nil =>
    rw [noted, Tables.replace_rows h]
    rfl
  | cons e places ih =>
    let first : List (Key × Int) := Table.put (.place e.1 e.2) i rows
    have hnote : Does (note table (.place e.1 e.2) i) s () (s.filed (s.tables.replace table first)) :=
      (does_get s).bind ((does_ofExcept (Tables.store_eq h) s).bind rfl)
    have hrest := ih (i := i + 1) (s := s.filed (s.tables.replace table first)) Tables.rows_replace_self
    have hsame : (s.tables.replace table first).replace table (noted (i + 1) places first)
        = s.tables.replace table (noted (i + 1) places first) := Tables.replace_replace
    rw [noted, ← hsame]
    exact hnote.bind hrest

section Noted

variable {places : List (Int × Int)} {table : List (Key × Int)} {i n : Nat} {e : Int × Int}

theorem find?_noted_of_not_mem (h : e ∉ places) :
    Table.find? (.place e.1 e.2) (noted i places table) = Table.find? (.place e.1 e.2) table := by
  induction places generalizing i table with
  | nil => rfl
  | cons p places ih =>
    obtain ⟨hp, hplaces⟩ := not_or.1 (fun h' => h (mem_cons.2 h'))
    have hkey : Key.place p.1 p.2 ≠ .place e.1 e.2 := fun hkey => hp (by
      simp only [Key.place, Key.tuple.injEq, List.cons.injEq, and_true] at hkey
      exact Prod.ext hkey.1.symm hkey.2.symm)
    rw [noted, ih hplaces, Table.find?_put, if_neg hkey]

theorem find?_noted (hn : places[n]? = some e) (hlast : ∀ m, n < m → places[m]? ≠ some e) :
    Table.find? (.place e.1 e.2) (noted i places table) = some ((i + n : Nat) : Int) := by
  induction places generalizing i n table with
  | nil => cases hn
  | cons p places ih =>
    cases n with
    | zero =>
      obtain rfl : p = e := Option.some.inj hn
      have hlater : p ∉ places := fun hmem => by
        obtain ⟨m, hm⟩ := mem_iff_getElem?.1 hmem
        exact hlast (m + 1) (Nat.succ_pos m) hm
      rw [noted, find?_noted_of_not_mem hlater, Table.find?_put, if_pos rfl]
      rfl
    | succ n =>
      rw [noted, ih hn fun m hm => hlast (m + 1) (Nat.succ_lt_succ hm)]
      congr 2
      omega

end Noted

/-! ### The bytes of a directory -/

def rowBytes (f : Format) (places : List (Int × Int)) : List UInt8 :=
  if f.isOld then places.flatMap fun e => le 1 e.1 ++ le 4 e.2
  else places.flatMap (fun e => le 1 e.1) ++ places.flatMap fun e => le 4 e.2

/-- A place that the rows of a directory can hold. -/
def Storable (e : Int × Int) : Prop := (0 ≤ e.1 ∧ e.1 < 256) ∧ 0 ≤ e.2 ∧ e.2 < 4294967296

theorem does_readDirectory {b : List UInt8} (hplaces : ∀ e ∈ places, Storable e)
    (hcount : places.length < 65536) (hrows : s.tables.rows table = .ok rows)
    (h : s.ahead = le 2 places.length ++ (rowBytes f places ++ b)) :
    Does (readDirectory f table) s () ((s.past (2 + (rowBytes f places).length)).filed
    (s.tables.replace table (noted 0 places rows))) := by
  have hnumber : Does (number 2) s places.length (s.past 2) :=
    does_number_le h (by omega) (show (places.length : Int) < 65536 by omega)
  have hahead : (s.past 2).ahead = rowBytes f places ++ b := State.ahead_past_append h (length_le _ _)
  refine hnumber.bind ?_
  rw [← State.past_past]
  rw [rowBytes] at hahead ⊢
  split at hahead
  · rename_i hold
    rw [if_pos hold, if_pos hold]
    have htimes := does_times (do
        let room ← number 1
        return (room, ← number 4)) id (fun e he t c ht => by
      obtain ⟨⟨hroom0, hroom⟩, hoffset0, hoffset⟩ := hplaces e he
      rw [append_assoc] at ht
      have hfirst := does_number_le ht hroom0 hroom
      have hsecond := does_number_le (State.ahead_past_append ht (length_le _ _)) hoffset0 hoffset
      exact hfirst.bind (hsecond.bind rfl)) hahead
    rw [map_id] at htimes
    exact htimes.bind (does_noteRows hrows)
  · rename_i hnew
    rw [append_assoc] at hahead
    have hrooms := does_times (number 1) Prod.fst (fun e he t c ht => by
      exact does_number_le ht (hplaces e he).1.1 (hplaces e he).1.2) hahead
    have hoffsets := does_times (number 4) Prod.snd (fun e he t c ht => by
      exact does_number_le ht (hplaces e he).2.1 (hplaces e he).2.2)
      (State.ahead_past_append hahead rfl)
    rw [if_neg hnew, if_neg hnew, length_append, ← State.past_past]
    refine hrooms.bind (hoffsets.bind ?_)
    rw [zip_map', map_id']
    exact does_noteRows hrows

/-! ### Reading a directory as a block -/

section Blocks

variable {name : String} {size : Int} {b : List UInt8}

theorem does_nextName (hname : Tag s.format name) (h : s.ahead = s.format.header name size ++ b) : Does nextName s name s := by
  have hlength := hname.length
  rw [Format.header] at h
  refine (does_format s).bind ?_
  cases hold : s.format.isOld with
  | true =>
    rw [Format.nameLength, hold] at hlength
    rw [hold, if_pos rfl, append_assoc] at h
    have htake := does_take (State.ahead_past_append h (length_le 4 size))
    rw [hlength] at htake
    apply (does_skip 4 s).bind
    apply htake.bind
    apply (does_skip_back 2 (s.past 4)).bind
    apply (does_skip_back 4 s).bind
    rw [hname.text]
    rfl
  | false =>
    rw [Format.nameLength, hold] at hlength
    rw [hold, if_neg Bool.false_ne_true, append_assoc] at h
    have htake := does_take h
    rw [hlength] at htake
    apply htake.bind
    apply (does_skip_back 4 s).bind
    rw [hname.text]
    rfl

theorem readIndexBody_directory (hkind : listedKind name = some table)
    (start : Int) : readIndexBody f name start = (do
      let _ ← readLabel
      readDirectory f table
      return .directory name) := by
  unfold readIndexBody
  split
  all_goals first
    | (simp [listedKind] at hkind; done)
    | rw [hkind]

theorem tag_of_mem {name : String} (h : name ∈ indexNames f) : Tag f name := by
  revert name
  cases f <;> decide

theorem does_readIndexBlock {block : IndexBlock} {t : State} (hlisted : name ∈ indexNames s.format)
    (hrooms : ¬(name = "0R" ∨ name = "DROO")) (h : s.ahead = s.format.header name size ++ b)
    (hbody : Does (readIndexBody s.format name s.resource.pos) s block t) : Does readIndexBlock s block t := by
  apply (does_nextName (tag_of_mem hlisted) h).bind
  apply (does_tell s).bind
  rwa [if_neg hrooms, if_pos (contains_iff_mem.2 hlisted)]

def directoryBytes (f : Format) (name : String) (places : List (Int × Int)) : List UInt8 :=
  f.header name (5 * places.length + 2 + f.headerLength) ++ le 2 places.length ++ rowBytes f places

theorem does_readIndexBlock_directory (hlisted : name ∈ indexNames s.format) (hkind : listedKind name = some table)
    (hplaces : ∀ e ∈ places, Storable e) (hcount : places.length < 65536)
    (hrows : s.tables.rows table = .ok rows) (h : s.ahead = directoryBytes s.format name places ++ b) :
    Does readIndexBlock s (.directory name) ((s.past (directoryBytes s.format name places).length).filed
    (s.tables.replace table (noted 0 places rows))) := by
  have hrooms : ¬(name = "0R" ∨ name = "DROO") := by
    rintro (rfl | rfl) <;> simp [listedKind] at hkind
  have hname := tag_of_mem hlisted
  rw [directoryBytes, append_assoc, append_assoc] at h
  have hsize : (5 * places.length + 2 + s.format.headerLength : Int) < 4294967296 := by
    rw [Format.headerLength, Format.nameLength]
    split <;> omega
  have hlabel := does_readLabel hname (by omega) hsize h
  have hbody := does_readDirectory (s := s.past s.format.headerLength) hplaces hcount hrows
    (State.ahead_past_append h (length_header hname _))
  have hlength : (directoryBytes s.format name places).length
      = s.format.headerLength + (2 + (rowBytes s.format places).length) := by
    rw [directoryBytes, length_append, length_append, length_header hname, length_le, Nat.add_assoc]
  rw [State.past_past, ← hlength] at hbody
  refine does_readIndexBlock hlisted hrooms h ?_
  rw [readIndexBody_directory hkind]
  exact hlabel.bind (hbody.bind rfl)

end Blocks

/-! ### Writing a directory -/

def greatest : List (Key × Int) → Int
  | [] => 0
  | e :: rest => (rest.map Prod.snd).foldl max e.2

def entryCount (least : Option Int) (rows : List (Key × Int)) : Int := max (greatest rows) (least.getD (greatest rows))

section Writing

variable {name table : String} {least : List (String × Int)}

theorem greatest_mem (h : rows ≠ []) : greatest rows ∈ rows.map Prod.snd ∧ ∀ i ∈ rows.map Prod.snd, i ≤ greatest rows := by
  cases rows with
  | nil => exact absurd rfl h
  | cons first rest => exact max?_eq_some_iff.1 max?_cons'

theorem does_directoryCount (hne : rows ≠ []) (hgame : Table.find? s.game Game.leastEntries = some least) :
    Does (directoryCount name rows) s (entryCount (Table.find? name least) rows) s := by
  have hleast : Does (leastEntries s.game) s least s := by
    rw [leastEntries, hgame]
    rfl
  cases rows with
  | nil => exact absurd rfl hne
  | cons first rest => exact (does_get s).bind (hleast.bind rfl)

theorem does_writeDirectory (hend : s.AtEnd) (hkind : listedKind name = some table)
    (hrows : s.tables.rows table = .ok rows) (hne : rows ≠ []) (hgame : Table.find? s.game Game.leastEntries = some least)
    (hcount : 0 ≤ entryCount (Table.find? name least) rows) : Does (writeDirectory name) s () (s.add (directoryBytes s.format name
    (directoryRows rows (entryCount (Table.find? name least) rows).toNat))) := by
  have hempty : ¬rows.isEmpty = true := by simpa using hne
  apply (does_get s).bind
  rw [hkind]
  apply (does_ofExcept hrows s).bind
  rw [if_neg hempty]
  apply (does_directoryCount hne hgame).bind
  generalize hplaces : directoryRows rows (entryCount (Table.find? name least) rows).toNat = places
  have hlength : entryCount (Table.find? name least) rows = places.length := by
    rw [← hplaces, length_directoryRows]
    omega
  rw [hlength, directoryBytes, ← State.add_add, ← State.add_add, rowBytes]
  apply (does_writeLabel hend _).bind
  apply (does_emit State.atEnd_add _).bind
  cases hold : s.format.isOld with
  | true =>
    exact does_emit State.atEnd_add _
  | false =>
    rw [if_neg Bool.false_ne_true, if_neg Bool.false_ne_true, ← State.add_add]
    exact (does_emit State.atEnd_add _).bind (does_emit State.atEnd_add _)

end Writing

/-! ### Which resources have an entry -/

section Entries

variable {count : Nat}

theorem storable_directoryRows (h : Listing rows) : ∀ e ∈ directoryRows rows count, Storable e := by
  intro e he
  obtain ⟨n, hn⟩ := mem_iff_getElem?.1 he
  rcases getElem?_directoryRows h.distinct hn with hmem | rfl
  · obtain ⟨room, offset, hkey, hroom0, hroom, hoffset⟩ := h.places _ hmem
    simp only [Key.place, Key.tuple.injEq, List.cons.injEq] at hkey
    simp only [Storable]
    omega
  · simp [Storable]

theorem find?_entries_iff (h : Listing rows) {e : Key × Int} (he : e ∈ rows) :
    Table.find? e.1 (noted 0 (directoryRows rows count) []) = some e.2 ↔ e.2 < count := by
  obtain ⟨key, i⟩ := e
  obtain ⟨room, offset, rfl, hroom, -, -⟩ := h.places _ he
  obtain ⟨n, rfl⟩ : ∃ n : Nat, i = n := ⟨i.toNat, by have := (h.numbers _ he).1; omega⟩
  -- an entry with this place is that of this resource
  have honly : ∀ m, (directoryRows rows count)[m]? = some ((room : Int), (offset : Int)) → m = n := by
    intro m hm
    rcases getElem?_directoryRows h.distinct hm with hmem | hzero
    · have hsame := inj_on_of_nodup_map h.keys he hmem rfl
      exact Int.ofNat.inj (Prod.ext_iff.1 hsame).2.symm
    · obtain ⟨hzeroRoom, hzeroOffset⟩ := Prod.ext_iff.1 hzero
      omega
  by_cases hlt : (n : Int) < count
  · have hn := getElem?_directoryRows_of_mem h.distinct he (show n < count by omega)
    have hfind : Table.find? (.place room offset) (noted 0 (directoryRows rows count) [])
        = some (0 + n) := find?_noted hn fun m hm heq => by
      have := honly m heq
      omega
    rw [Nat.zero_add] at hfind
    exact iff_of_true hfind hlt
  · have hnot : ((room : Int), (offset : Int)) ∉ directoryRows rows count := fun hmem => by
      obtain ⟨m, hm⟩ := List.mem_iff_getElem?.1 hmem
      obtain ⟨hbound, -⟩ := List.getElem?_eq_some_iff.1 hm
      rw [length_directoryRows] at hbound
      have := honly m hm
      omega
    have hnone : Table.find? (.place room offset) (noted 0 (directoryRows rows count) []) = none :=
      find?_noted_of_not_mem hnot
    rw [hnone]
    exact iff_of_false (by simp) hlt

theorem leastEntries_bounds {game name : String} {least : List (String × Int)} {n : Int}
    (hgame : Table.find? game Game.leastEntries = some least) (hn : Table.find? name least = some n) : 0 ≤ n ∧ n < 65536 := by
  have hall : ∀ g ∈ Game.leastEntries, ∀ e ∈ g.2, 0 ≤ e.2 ∧ e.2 < 65536 := by decide
  exact hall _ (Table.mem_of_find? hgame) _ (Table.mem_of_find? hn)

theorem entryCount_bounds (h : Listing rows) (hne : rows ≠ []) (hleast : ∀ n, least = some n → 0 ≤ n ∧ n < 65536) :
    0 ≤ entryCount least rows ∧ entryCount least rows < 65536 := by
  obtain ⟨e, he, hgreatest⟩ := mem_map.1 (greatest_mem hne).1
  have hbounds := h.numbers e he
  rw [entryCount]
  cases least with
  | none =>
    rw [Option.getD_none]
    omega
  | some n =>
    have := hleast n rfl
    rw [Option.getD_some]
    omega

theorem lt_entryCount_iff (hne : rows ≠ []) {i : Int} :
    i < entryCount least rows ↔ (∃ e ∈ rows, i < e.2) ∨ ∃ n, least = some n ∧ i < n := by
  have hgreatest : i < greatest rows ↔ ∃ e ∈ rows, i < e.2 := by
    obtain ⟨hmem, hle⟩ := greatest_mem hne
    constructor
    · intro hlt
      obtain ⟨e, he, hmax⟩ := mem_map.1 hmem
      exact ⟨e, he, hmax ▸ hlt⟩
    · rintro ⟨e, he, hlt⟩
      exact Int.lt_of_lt_of_le hlt (hle _ (mem_map_of_mem he))
  rw [entryCount, ← hgreatest]
  cases least with
  | none =>
    simp only [Option.getD_none, reduceCtorEq, false_and, exists_false, or_false]
    omega
  | some n =>
    simp only [Option.getD_some, Option.some.injEq, exists_eq_left']
    omega

end Entries

/-- A directory is written from the rows of its kind. When it is read again, a resource is found at its
place if and only if some resource has a greater number, or its number is below the number of entries
that the game expects. -/
theorem directory_entry_iff {f : Format} {name kind : String} (hlisted : name ∈ indexNames f)
    (hkind : listedKind name = some kind) (hformat : s.format = f) (hend : s.AtEnd)
    (hrows : s.tables.rows kind = .ok rows) (hne : rows ≠ []) (hlisting : Listing rows) {least : List (String × Int)}
    (hgame : Table.find? s.game Game.leastEntries = some least) : ∃ bytes, Does (writeDirectory name) s () (s.add bytes) ∧
    ∀ (t : State) (after : List UInt8), t.format = f → t.ahead = bytes ++ after → t.tables.rows kind = .ok [] →
    ∃ t' entries, Does readIndexBlock t (.directory name) t' ∧ t'.ahead = after ∧ t'.tables.rows kind = .ok entries ∧
    ∀ e ∈ rows, Table.find? e.1 entries = some e.2 ↔
    (∃ e' ∈ rows, e.2 < e'.2) ∨ ∃ n, Table.find? name least = some n ∧ e.2 < n := by
  subst hformat
  have hbounds : 0 ≤ entryCount (Table.find? name least) rows ∧ entryCount (Table.find? name least) rows < 65536 :=
    entryCount_bounds hlisting hne fun n => leastEntries_bounds hgame
  generalize hcount : entryCount (Table.find? name least) rows = count at hbounds
  have hwrite := does_writeDirectory hend hkind hrows hne hgame (by omega)
  rw [hcount] at hwrite
  refine ⟨_, hwrite, fun t after ht hahead htables => ?_⟩
  have hlength : (directoryRows rows count.toNat).length < 65536 := by
    rw [length_directoryRows]
    omega
  rw [← ht] at hlisted hahead
  refine ⟨_, _, does_readIndexBlock_directory hlisted hkind
    (storable_directoryRows hlisting) hlength htables hahead, ?_, Tables.rows_replace_self, ?_⟩
  · exact State.ahead_past_append hahead rfl
  · intro e he
    rw [find?_entries_iff hlisting he, ← lt_entryCount_iff hne, hcount]
    omega

def twoFonts : List (Key × Int) := [(.place 1 17, 2), (.place 1 90, 5)]

def fontJob (fonts : List (Key × Int)) (data : List UInt8) : State :=
  { (default : State) with
    game := "FOA", format := .five, tables := ⟨[("CHAR", fonts)]⟩, resource := .start data }

/-- The font numbered five has no entry in the directory of the game. -/
theorem directory_entry_twoFonts :
    ∃ bytes, Does (writeDirectory "DCHR") (fontJob twoFonts []) () ((fontJob twoFonts []).add bytes) ∧
    ∃ t entries, Does readIndexBlock (fontJob [] bytes) (.directory "DCHR") t ∧ t.tables.rows "CHAR" = .ok entries ∧
    Table.find? (.place 1 17) entries = some 2 ∧ Table.find? (.place 1 90) entries ≠ some 5 := by
  have hlisting : Listing twoFonts :=
    { places := by
        intro e he
        rcases mem_cons.1 he with rfl | he
        · exact ⟨1, 17, rfl, by decide⟩
        · cases mem_singleton.1 he
          exact ⟨1, 90, rfl, by decide⟩
      numbers := by decide
      keys := by decide
      distinct := by decide }
  have hgame : Table.find? (fontJob twoFonts []).game Game.leastEntries
      = some [("DSCR", 200), ("DSOU", 250), ("DCOS", 244), ("DCHR", 5)] := by decide
  obtain ⟨bytes, hwrite, hread⟩ := directory_entry_iff (f := .five) (s := fontJob twoFonts [])
    (by decide) (show listedKind "DCHR" = some "CHAR" by decide) rfl rfl rfl (by decide) hlisting hgame
  refine ⟨bytes, hwrite, ?_⟩
  obtain ⟨t, entries, hdoes, -, hentries, hfound⟩ :=
    hread (fontJob [] bytes) [] rfl (append_nil bytes).symm rfl
  refine ⟨t, entries, hdoes, hentries, ?_, ?_⟩
  · exact (hfound (.place 1 17, 2) (by decide)).2 (by decide)
  · intro hfive
    rcases (hfound (.place 1 90, 5) (by decide)).1 hfive with ⟨e, he, hlt⟩ | ⟨n, hn, hlt⟩
    · revert e
      decide
    · have hleast : n = 5 := Option.some.inj (hn.symm.trans (by decide))
      omega

end Job

end ScummKit.Pack
