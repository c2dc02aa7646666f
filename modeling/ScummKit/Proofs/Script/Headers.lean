import Mathlib.Algebra.Group.Nat.Defs
import ScummKit.Proofs.Pack.Records
import ScummKit.Proofs.Script.Declarations
import ScummKit.Proofs.Script.Jumps

/-!
# The headers of object scripts

An object's script is stored behind a header with the size of the whole, the table of its events and,
up to the fourth generation, the object's data and its name. The events are listed in ascending order,
each with the place in the whole file at which the line with its label starts
(`eventRows_eventTable`), and a reader of such files gets back what was declared (`does_readCode`).
-/

namespace ScummKit.Script

open Grammar Layout List
open Pack (le be ofLE ofBE recordCode ObjectScript)
variable {data : ObjectData} {rows : List Code} {place : Nat}

/-! ### Numbers in fields -/

section Fields

variable {n : Int} {code : Code}

theorem byte_eq_le : Field.byte n = .ok code ↔ (-128 ≤ n ∧ n ≤ 255) ∧ code = le 1 n := byte_eq_ok

theorem word_eq_le : Field.word n = .ok code ↔ (-32768 ≤ n ∧ n ≤ 65535) ∧ code = le 2 n := by
  have hlow : (n % 65536).toNat % 256 = (n % 256).toNat := by omega
  have hhigh : (n % 65536).toNat / 256 = (n / 256 % 256).toNat := by omega
  rw [word_eq_ok, wordOf, hlow, hhigh]
  rfl

end Fields

/-! ### Tables of events -/

namespace Header

def eventRows : Code → Option (List (Nat × Nat) × Code)
  | [] => none
  | key :: rest =>
    if key = 0 then some ([], rest) else
      match rest with
      | lo :: hi :: rest =>
        (eventRows rest).map fun r => ((key.toNat, ofLE [lo, hi]) :: r.1, r.2)
      | _ => none

section Events

variable {base : Nat} {events : List (Int × Nat)} {table after : Code}

def eventRow (base : Nat) (e : Int × Nat) : Nat × Nat := (e.1.toNat, e.2 + base)

theorem eventRows_zero (rest : Code) : eventRows (0 :: rest) = some ([], rest) := by
  rw [eventRows.eq_def]
  exact if_pos rfl

theorem eventRows_row {key : Int} (h0 : 1 ≤ key) (hkey : key ≤ 255)
    (hplace : place ≤ 65535) (rest : Code) : eventRows (le 1 key ++ le 2 place ++ rest)
    = (eventRows rest).map fun r => ((key.toNat, place) :: r.1, r.2) := by
  have hbyte : (UInt8.ofNat (key % 256).toNat).toNat = key.toNat := by
    rw [UInt8.toNat_ofNat']
    omega
  have hzero : UInt8.ofNat (key % 256).toNat ≠ 0 := fun h => by
    rw [h] at hbyte
    change 0 = key.toNat at hbyte
    omega
  have hword : ofLE (le 2 place) = place :=
    Int.ofNat.inj (Pack.ofLE_of_lt 2 (by omega) (show (place : Int) < 65536 by omega))
  change (if UInt8.ofNat (key % 256).toNat = 0 then _ else
    (eventRows rest).map fun r => ((_, ofLE (le 2 place)) :: r.1, r.2)) = _
  rw [if_neg hzero, hbyte, hword]

theorem row_eq_ok {e : Int × Nat} {row : Code}
    (h : (do return (← Field.byte e.1) ++ (← Field.word ((e.2 : Int) + base)) : Except Fault Code)
      = .ok row) : e.1 ≤ 255 ∧ e.2 + base ≤ 65535 ∧ row = le 1 e.1 ++ le 2 (e.2 + base : Nat) := by
  simp only [bind_eq_ok, byte_eq_le, word_eq_le] at h
  obtain ⟨_, ⟨⟨-, hkey⟩, rfl⟩, _, ⟨⟨-, hplace⟩, rfl⟩, h⟩ := h
  cases h
  exact ⟨hkey, by omega, by rw [Int.natCast_add]⟩

section

variable (h : events.mapM (fun (key, place) => do return (← Field.byte key) ++ (← Field.word ((place : Int) + base))) = .ok rows)

include h

theorem length_rows :
    rows.flatten.length = 3 * events.length := by
  induction events generalizing rows with
  | nil => rw [← Except.ok.inj h]; rfl
  | cons e events ih =>
    obtain ⟨row, rest, hrow, hrest, rfl⟩ := mapM_cons_eq_ok.1 h
    obtain ⟨-, -, rfl⟩ := row_eq_ok hrow
    simp only [flatten_cons, length_append, Pack.length_le, ih hrest, length_cons]
    omega

theorem eventRows_flatten (hkeys : ∀ e ∈ events, 1 ≤ e.1) :
    eventRows (rows.flatten ++ 0 :: after) = some (events.map (eventRow base), after) := by
  induction events generalizing rows with
  | nil => exact Except.ok.inj h ▸ eventRows_zero after
  | cons e events ih =>
    obtain ⟨row, rest, hrow, hrest, rfl⟩ := mapM_cons_eq_ok.1 h
    obtain ⟨hkey, hplace, rfl⟩ := row_eq_ok hrow
    rw [flatten_cons, append_assoc, eventRows_row (hkeys e mem_cons_self) hkey hplace,
      ih hrest fun e he => hkeys e (mem_cons_of_mem _ he)]
    rfl

end

theorem ordered_perm (events : List (Int × Nat)) : (ordered events).Perm events := mergeSort_perm _ _

theorem length_eventTable (h : eventTable base events = .ok table) : table.length = 3 * events.length + 1 := by
  obtain ⟨rows, hrows, h⟩ := bind_eq_ok.1 h
  cases h
  rw [length_append, length_rows hrows, (ordered_perm events).length_eq]
  rfl

theorem eventRows_eventTable (hkeys : ∀ e ∈ events, 1 ≤ e.1) (h : eventTable base events = .ok table) :
    eventRows (table ++ after) = some ((ordered events).map (eventRow base), after) := by
  obtain ⟨rows, hrows, h⟩ := bind_eq_ok.1 h
  cases h
  rw [append_assoc]
  exact eventRows_flatten hrows fun e he => hkeys e ((ordered_perm events).mem_iff.1 he)

theorem ascending_rows (hkeys : ∀ e ∈ events, 1 ≤ e.1) (hnodup : (events.map Prod.fst).Nodup) :
    (((ordered events).map (eventRow base)).map Prod.fst).Pairwise (· < ·) := by
  have hperm := ordered_perm events
  have hsorted : (ordered events).Pairwise fun a b => a.1 ≤ b.1 := by
    refine (pairwise_mergeSort ?_ ?_ events).imp fun h => by simpa using h
    · simp only [decide_eq_true_eq] at *
      omega
    · simp only [Bool.or_eq_true, decide_eq_true_eq]
      omega
  have hdistinct : (ordered events).Pairwise fun a b => a.1 ≠ b.1 :=
    pairwise_map.1 ((hperm.map Prod.fst).nodup_iff.2 hnodup)
  rw [map_map, pairwise_map]
  refine (hsorted.and hdistinct).imp_of_mem fun ha hb hab => ?_
  have h1 := hkeys _ (hperm.mem_iff.1 ha)
  change Int.toNat _ < Int.toNat _
  omega

end Events

/-! ### Objects -/

/-- A number among an object's data, as a field with fewer values gives it back. -/
def ObjectData.Gives (data : ObjectData) (key : String) (f : Int → Int) (value : Int) : Prop :=
  ∃ n, data.number key = .ok n ∧ value = f n

/-- An object as its data describe it. Each number is cut to its field: one that fits is as it was
declared, but the vertical position keeps seven bits and the height the upper five of eight. -/
structure ObjectData.Describes (data : ObjectData) (o : ObjectScript) : Prop where
  id : data.Gives "id" (· % 0x10000) o.id
  unknown : if Table.has "unknown" data then data.Gives "unknown" (· % 0x100) o.unknown else o.unknown = 0
  x : data.Gives "x-pos" (· % 0x100) o.x
  y : data.Gives "y-pos" (· % 0x80) o.y
  parentState : data.Gives "parent-state" (fun n => 0x80 * n.toNat) o.parentState
  width : data.Gives "width" (· % 0x100) o.width
  parent : data.Gives "parent" (· % 0x100) o.parent
  walkX : data.Gives "walk-x" (Int.bmod · 0x10000) o.walkX
  walkY : data.Gives "walk-y" (Int.bmod · 0x10000) o.walkY
  height : data.Gives "height" (fun n => n % 0x100 / 8 * 8) o.height
  facing : data.Gives "actor-dir" (· % 8) o.facing

theorem unknown_eq_ok {rest : Code → Except Fault Code} {code : Code}
    (h : (if Table.has "unknown" data then do
        let n ← data.number "unknown"
        let unknown ← Field.byte n
        rest unknown
      else do
        let unknown ← pure [0]
        rest unknown) = .ok code) :
    ∃ n, (if Table.has "unknown" data then data.number "unknown" = .ok n else n = 0) ∧ rest (le 1 n) = .ok code := by
  split at h
  · rename_i hhas
    simp only [bind_eq_ok, byte_eq_le] at h
    obtain ⟨n, hn, _, ⟨-, rfl⟩, h⟩ := h
    exact ⟨n, by rwa [if_pos hhas], h⟩
  · rename_i hhas
    exact ⟨0, by rw [if_neg hhas], h⟩

theorem lowBits_or_state {y : Int} {state : Nat} : lowBits y 0x80 ||| state <<< 7 = lowBits y 0x80 + 0x80 * state := by
  have hlow : lowBits y 0x80 < 2 ^ 7 := by
    simp only [lowBits]
    omega
  rw [Nat.or_comm, ← Nat.shiftLeft_add_eq_or_of_lt hlow]
  omega

theorem height_or_direction {height direction : Int} : lowBits height 0x100 / 8 * 8 ||| lowBits direction 8
    = lowBits height 0x100 / 8 * 8 + lowBits direction 8 := by
  have hlow : lowBits direction 8 < 2 ^ 3 := by
    simp only [lowBits]
    omega
  have hshift : lowBits height 0x100 / 8 * 8 = (lowBits height 0x100 / 8) <<< 3 := by
    rw [Nat.shiftLeft_eq]
  rw [hshift, Nat.shiftLeft_add_eq_or_of_lt hlow]

theorem objectFields_eq_ok {fields : Code} (h : objectFields data = .ok fields) (hplace : place ≤ 255) :
    ∃ numbers, Pack.Fit ObjectScript.fields numbers ∧ numbers.getLastD 0 = place ∧
    fields ++ le 1 (place : Int) = recordCode ObjectScript.fields numbers ∧ data.Describes (ObjectScript.ofNumbers numbers) := by
  obtain ⟨id, hid, h⟩ := bind_eq_ok.1 h
  obtain ⟨_, hidCode, h⟩ := bind_eq_ok.1 h
  obtain ⟨-, rfl⟩ := word_eq_le.1 hidCode
  obtain ⟨unknown, hunknown, h⟩ := unknown_eq_ok h
  simp only [bind_eq_ok, byte_eq_le, word_eq_le] at h
  obtain ⟨x, hx, _, ⟨-, rfl⟩, y, hy, state, hstate, _, ⟨hyState, rfl⟩, width, hwidth, _, ⟨-, rfl⟩, parent, hparent, _, ⟨-, rfl⟩,
    walkX, hwalkX, _, ⟨-, rfl⟩, walkY, hwalkY, _, ⟨-, rfl⟩, height, hheight, direction, hdirection, _, ⟨-, rfl⟩, h⟩ := h
  cases h
  rw [lowBits_or_state] at hyState ⊢
  rw [height_or_direction]
  refine ⟨[id % 0x10000, unknown % 0x100, x % 0x100, (lowBits y 0x80 + 0x80 * state.toNat : Nat),
    width % 0x100, parent % 0x100, Int.bmod walkX 0x10000, Int.bmod walkY 0x10000,
    (lowBits height 0x100 / 8 * 8 + lowBits direction 8 : Nat), place], ?_, rfl, ?_, ?_⟩
  · have hwalk : ∀ n, -0x8000 ≤ Int.bmod n 0x10000 ∧ Int.bmod n 0x10000 ≤ 0x7fff := by
      intro n
      rw [Int.bmod_def]
      omega
    have hlow : lowBits y 0x80 < 0x80 ∧ lowBits height 0x100 < 0x100 ∧ lowBits direction 8 < 8 := by
      simp only [lowBits]
      omega
    simp only [Pack.Fit, ObjectScript.fields, forall₂_cons, Pack.Field.least, Pack.Field.greatest, hwalk,
      forall₂_nil_right_iff, and_true, true_and]
    omega
  · have hword : ∀ n : Int, le 2 (n % 0x10000) = le 2 n := fun n => Pack.le_congr (by simp)
    have hbyte : ∀ n : Int, le 1 (n % 0x100) = le 1 n := fun n => Pack.le_congr (by simp)
    have hwalk : ∀ n : Int, le 2 (Int.bmod n 0x10000) = le 2 n := fun n => Pack.le_congr (by
      change Int.bmod n 0x10000 % 0x10000 = n % 0x10000
      rw [Int.bmod_def]
      omega)
    simp only [recordCode, ObjectScript.fields, Pack.Field.width, hword, hbyte, hwalk, append_assoc, append_nil]
  · refine ⟨⟨id, hid, rfl⟩, ?_, ⟨x, hx, rfl⟩, ⟨y, hy, ?_⟩, ⟨state, hstate, ?_⟩, ⟨width, hwidth, rfl⟩,
      ⟨parent, hparent, rfl⟩, ⟨walkX, hwalkX, rfl⟩, ⟨walkY, hwalkY, rfl⟩, ⟨height, hheight, ?_⟩,
      ⟨direction, hdirection, ?_⟩⟩
    · by_cases hhas : Table.has "unknown" data = true
      · rw [if_pos hhas] at hunknown ⊢
        exact ⟨unknown, hunknown, rfl⟩
      · rw [if_neg hhas] at hunknown ⊢
        rw [hunknown]
        rfl
    all_goals
      simp only [ObjectScript.ofNumbers, lowBits] at hyState ⊢
      omega

/-! ### Whole headers -/

section Write

variable {version : Version} {number : Option Code} {data : ObjectData} {events : List (Int × Nat)}
variable {size : Nat} {header : Code}

theorem sizeBytes_eq (n : Nat) : sizeBytes n = le 4 (n : Int) := by
  have hbyte : ∀ m : Nat, UInt8.ofNat m = UInt8.ofNat ((m : Int) % 256).toNat := fun m => by
    rw [← UInt8.ofNat_mod_size]
    congr 1
  have hdiv : (n : Int) / 256 = (n / 256 : Nat) ∧ ((n / 256 : Nat) : Int) / 256 = (n / 65536 : Nat) ∧
      ((n / 65536 : Nat) : Int) / 256 = (n / 16777216 : Nat) := by omega
  change _ = [UInt8.ofNat ((n : Int) % 256).toNat, UInt8.ofNat ((n : Int) / 256 % 256).toNat,
    UInt8.ofNat ((n : Int) / 256 / 256 % 256).toNat, UInt8.ofNat ((n : Int) / 256 / 256 / 256 % 256).toNat]
  rw [hdiv.1, hdiv.2.1, hdiv.2.2, ← hbyte, ← hbyte, ← hbyte, ← hbyte]
  rfl

theorem write_object_eq_ok (hversion : version ≠ .v5) (h : write version .object number data events size = .ok header) :
    ∃ numbers table name fields, Pack.Fit ObjectScript.fields numbers ∧
    data.Describes (ObjectScript.ofNumbers numbers) ∧ objectFields data = .ok fields ∧
    data.name = .ok name ∧ eventTable header.length events = .ok table ∧ 19 + table.length ≤ 255 ∧
    numbers.getLastD 0 = (19 + table.length : Nat) ∧
    recordCode ObjectScript.fields numbers = fields ++ le 1 (19 + table.length : Nat) ∧
    header = le 4 (header.length + size : Nat) ++ Text.toBytes "OC" ++
    recordCode ObjectScript.fields numbers ++ table ++ name ++ [0] := by
  obtain ⟨⟨inner, start⟩, hbody, h⟩ := bind_eq_ok.1 h
  rw [body, if_neg hversion] at hbody
  unfold objectPart at hbody
  split at hbody
  · cases hbody
  simp only [bind_eq_ok, byte_eq_le] at hbody
  obtain ⟨fields, hfields, name, hname, _, ⟨⟨-, hsmall⟩, rfl⟩, table, htable, hbody⟩ := hbody
  cases hbody
  obtain ⟨numbers, hfit, hlast, hrecord, hdescribes⟩ := objectFields_eq_ok hfields
    (show 19 + events.length * 3 + 1 ≤ 255 by omega)
  have htag : tagBytes (ScriptKind.object.tag version) = Text.toBytes "OC" := by
    revert hversion
    cases version <;> first | exact fun _ => rfl | exact fun h => absurd rfl h
  have hheader : header = le 4 ((19 + events.length * 3 + 1 + name.length + 1) + size : Nat) ++
      Text.toBytes "OC" ++ recordCode ObjectScript.fields numbers ++ table ++ name ++ [0] := by
    have h := Except.ok.inj h
    rw [if_neg hversion, sizeBytes_eq, hrecord, htag] at h
    rw [← h, Nat.add_comm size]
    simp only [append_assoc]
  have hlength : header.length = 19 + events.length * 3 + 1 + name.length + 1 := by
    have hwidth : Pack.widthOf ObjectScript.fields = 13 := rfl
    have hname : (Text.toBytes "OC").length = 2 := by decide
    rw [hheader]
    simp only [length_append, Pack.length_le, Pack.length_recordCode hfit, length_eventTable htable,
      length_singleton]
    omega
  have hname' : 19 + events.length * 3 + 1 = 19 + table.length := by
    rw [length_eventTable htable]
    omega
  rw [hname'] at hlast hrecord hsmall
  refine ⟨numbers, table, name, fields, hfit, hdescribes, hfields, hname, ?_, by omega, hlast, hrecord.symm, ?_⟩
  · rw [hlength]
    exact htable
  · rw [hlength]
    exact hheader

theorem write_object_five_eq_ok (h : write .v5 .object number data events size = .ok header) :
    ∃ table, eventTable header.length events = .ok table ∧
    header = Text.toBytes "VERB" ++ be 4 (header.length + size : Nat) ++ table := by
  obtain ⟨⟨inner, start⟩, hbody, h⟩ := bind_eq_ok.1 h
  obtain ⟨table, htable, hbody⟩ := bind_eq_ok.1 hbody
  obtain ⟨rfl, rfl⟩ := Prod.mk.inj (Except.ok.inj hbody)
  have hheader : header = Text.toBytes "VERB" ++ be 4 ((8 + events.length * 3 + 1) + size) ++
      table := by
    have h := Except.ok.inj h
    rw [sizeBytes_eq] at h
    rw [← h, Nat.add_comm size]
    rfl
  have hlength : header.length = 8 + events.length * 3 + 1 := by
    have hname : (Text.toBytes "VERB").length = 4 := by decide
    rw [hheader]
    simp only [length_append, Pack.length_be, length_eventTable htable]
    omega
  exact ⟨table, by rwa [hlength], by rw [hlength]; exact hheader⟩

end Write

end Header

end ScummKit.Script

/-! ### Reading headers -/

namespace ScummKit.Pack.Job

variable {name rest : List UInt8}

theorem terminated_append (h : 0 ∉ name) : terminated (name ++ 0 :: rest) = some (name, rest) := by
  induction name with
  | nil => rfl
  | cons b name ih =>
    rw [List.mem_cons, not_or] at h
    rw [List.cons_append, terminated, if_neg fun hb => h.1 hb.symm, ih h.2]
    rfl

theorem does_takeTerminated {s : State} (hname : 0 ∉ name)
    (h : s.ahead = name ++ 0 :: rest) : Does takeTerminated s name (s.past (name.length + 1)) := by
  refine (does_get s).bind ?_
  rw [show s.resource.rest = _ from h, terminated_append hname]
  exact (does_skip _ s).bind rfl

theorem does_readCode {s : State} (hold : s.format.isOld = true) {numbers : List Int}
    {table name script after : List UInt8} (hfit : Pack.Fit ObjectScript.fields numbers)
    (hplace : numbers.getLastD 0 = (19 + table.length : Nat)) (hname : 0 ∉ name) {size : Nat}
    (hsize : size = 19 + table.length + name.length + 1 + script.length) (hlarge : size < 4294967296)
    (h : s.ahead = le 4 size ++ Text.toBytes "OC" ++ recordCode ObjectScript.fields numbers ++ table ++
    name ++ [0] ++ script ++ after) (room : Int) :
    Does (readLeaf .code room) s (.leaf ⟨"OC", size⟩ (.code { ObjectScript.ofNumbers numbers with
      events := table, name := Text.ofBytes name, script })) (s.past size) := by
  have htag : Tag s.format "OC" := by
    revert hold
    cases s.format <;> first | exact fun _ => by decide | exact nofun
  have hlength : s.format.headerLength = 6 := by
    rw [Format.headerLength, Format.nameLength, if_pos hold]
  have hheader : s.format.header "OC" size = le 4 size ++ Text.toBytes "OC" := by
    rw [Format.header, if_pos hold]
  simp only [List.append_assoc] at h
  -- the head and the record
  have hlabel := does_readLabel htag (by omega) (by omega)
    (show s.ahead = s.format.header "OC" size ++ _ by rw [hheader]; exact h)
  rw [hlength] at hlabel
  have hrecord := does_record hfit (State.ahead_past_append
    (by rw [List.append_assoc]; exact h)
    (by rfl))
  have hahead : (s.past 19).ahead = table ++ (name ++ 0 :: (script ++ after)) :=
    State.ahead_past_append (a := le 4 size ++ Text.toBytes "OC" ++
        recordCode ObjectScript.fields numbers) (by exact h)
      (by rw [List.length_append, length_recordCode hfit]; rfl)
  -- the table, up to where the record says that the name starts
  have htable : Does (takeAll (s.resource.pos + numbers.getLastD 0 - (s.past 19).resource.pos))
      (s.past 19) table (s.past (19 + table.length)) := by
    rw [hplace, ← State.past_past]
    refine does_takeAll hahead ?_
    change ((s.resource.pos : Int) + (19 + table.length) - (s.resource.pos + 19)).toNat = _
    omega
  have hbehind : (s.past (19 + table.length)).ahead = name ++ 0 :: (script ++ after) := by
    rw [← State.past_past]
    exact State.ahead_past_append hahead rfl
  have hterminated := does_takeTerminated hname hbehind
  rw [State.past_past] at hterminated
  -- the script, up to the end that the head gives
  have hscript : Does (readRest s.resource.pos ⟨"OC", size⟩) (s.past (19 + table.length + (name.length + 1)))
      script (s.past size) := by
    have hend : (s.past (19 + table.length + (name.length + 1))).ahead = script ++ after := by
      rw [← State.past_past]
      exact State.ahead_past_append (a := name ++ [0]) (by rw [hbehind, List.append_assoc]; rfl) (by simp)
    have hrest := does_readRest ⟨"OC", size⟩ hend (by change _ = ((size : Int) - _).toNat; omega)
    rwa [show 19 + table.length + (name.length + 1) + script.length = size by omega] at hrest
  refine (does_format s).bind ((does_tell s).bind (hlabel.bind ?_))
  refine Does.map (hrecord.bind ?_)
  exact (does_tell _).bind (htable.bind (hterminated.bind (hscript.bind rfl)))

end ScummKit.Pack.Job
