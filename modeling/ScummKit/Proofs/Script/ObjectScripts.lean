import ScummKit.Proofs.Script.Headers
import ScummKit.Proofs.Script.Scans

/-!
# Object scripts

The script of an object is compiled to a file of a header and code. The header lists every event that
was declared with the place in the file of the line that carries its label, and a reader of the file
gets back the object as it was declared (`compile_object`).
-/

namespace ScummKit.Script

open List hiding span
open Grammar Layout Header
open Pack (le be ofLE ofBE recordCode Does ObjectScript)

/-! ### Places of events -/

section Events

variable {lines : List Code} {labels : List (String × Nat)} {table : List (Int × String)}
variable {events : List (Int × Nat)}

theorem span_zero_eq_ok {line n : Nat} (h : span lines 0 line = .ok n) : n = position lines line := by
  unfold span at h
  split at h
  · obtain rfl : line = 0 := by omega
    cases h
    rfl
  · split at h
    · cases h
      rfl
    · cases h

theorem events_eq_ok (h : Layout.events table labels lines = .ok events) : events.map Prod.fst = table.map Prod.fst ∧
    ∀ key place, (key, place) ∈ events ↔ ∃ label line, (key, label) ∈ table ∧
    Table.find? label labels = some line ∧ place = position lines line := by
  unfold Layout.events at h
  split at h
  · cases h
  -- from here on the table may be empty
  rename_i hne
  clear hne
  induction table generalizing events with
  | nil => simp [← Except.ok.inj h]
  | cons entry table ih =>
    obtain ⟨key, label⟩ := entry
    obtain ⟨event, rest, hevent, hrest, rfl⟩ := mapM_cons_eq_ok.1 h
    obtain ⟨hkeys, hmem⟩ := ih hrest
    dsimp only at hevent
    split at hevent
    · rename_i line hline
      obtain ⟨place, hplace, hevent⟩ := bind_eq_ok.1 hevent
      cases hevent
      obtain rfl := span_zero_eq_ok hplace
      refine ⟨by simp [hkeys], fun key' place' => ?_⟩
      rw [mem_cons, hmem]
      constructor
      · rintro (heq | ⟨label', line', hlabel', hfind⟩)
        · cases heq
          exact ⟨label, line, mem_cons_self, hline, rfl⟩
        · exact ⟨label', line', mem_cons_of_mem _ hlabel', hfind⟩
      · rintro ⟨label', line', hlabel', hfind, rfl⟩
        rcases mem_cons.1 hlabel' with heq | hlabel'
        · cases heq
          cases hline.symm.trans hfind
          exact .inl rfl
        · exact .inr ⟨label', line', hlabel', hfind, rfl⟩
    · cases hevent

end Events

def declaredBy (opts : Options) (words : List String) (script : String) : Assembler :=
  (readText (Statement.rules opts.version opts.legacy) (Statement.script opts.version opts.legacy opts.trailing) script
    (Assembler.start opts.version words (KnownVariable.names opts.version))).2.user

theorem compile_object_eq_ok {opts : Options} {words : List String} {script : String} {c : Compiled}
    (hcompile : (compile opts words script).1 = .ok c) (hkind : c.kind = .object) :
    (declaredBy opts words script).Scheduled opts.version ∧ c.version = opts.version ∧
    c.objectData = (declaredBy opts words script).objectData ∧
    ∃ o, SpellsScript opts.version opts.legacy (expandTabs script) opts.trailing o ∧ Lands o c.lines ∧
    Layout.events (declaredBy opts words script).events o.ledger.labels c.lines = .ok c.events ∧
    ∀ (name : Name) line, Table.find? name.text o.ledger.labels = some line ↔ (name, line) ∈ o.labels 0 := by
  obtain ⟨capture, m, o, hread, hspells, hallowed, hlabels, hlands, hevents, hc⟩ := compile_eq_ok hcompile
  have hscheduled := readText_scheduled hread
  have hobject : m.user.kind = some .object := by
    rw [hc] at hkind
    cases hk : m.user.kind with
    | none => rw [hk] at hkind; cases hkind
    | some kind => rw [hk] at hkind; exact congrArg some hkind
  rw [Assembler.eventTable, if_pos hobject, hlabels] at hevents
  rw [declaredBy, hread]
  refine ⟨hscheduled, (congrArg Compiled.version hc).trans hscheduled.version, congrArg Compiled.objectData hc, o, hspells,
    hlands, hevents, fun name line => ?_⟩
  exact (find?_label_iff hallowed).trans (o.mem_labels 0)

/-- The rows of a table that lists events with the places of their labels: `base` bytes stand in front
of the lines. -/
structure Schedules (rows : List (Nat × Nat)) (events : List (Int × String)) (o : Outline)
    (lines : List Code) (base : Nat) : Prop where
  ascending : (rows.map Prod.fst).Pairwise (· < ·)
  mem_iff : ∀ key place, (key, place) ∈ rows ↔ ∃ (name : Name) (line : Nat),
    ((key : Int), name.text) ∈ events ∧ (name, line) ∈ o.labels 0 ∧ place = base + position lines line

/-- A file of the third or fourth generation: its size stands first, the table of events behind the
fields of the object, and behind the name, which one of the fields points to, the code. -/
structure ObjectFile (file : Code) (c : Compiled) (rows : List (Nat × Nat)) : Prop where
  size : ofLE (file.take 4) = file.length
  table : ∃ name, c.objectData.name = .ok name ∧ eventRows (file.drop 19) = some (rows, name ++ 0 :: c.code) ∧
    ∃ place, file[18]? = some place ∧ file.drop place.toNat = name ++ 0 :: c.code
  /-- Wherever the file stands in a resource, the packer reads it as one block. -/
  read : ∀ (s : Pack.State) (after : Code) (room : Int), s.format.isOld = true →
    s.ahead = file ++ after → ∃ object : ObjectScript,
      Does (Pack.Job.readLeaf .code room) s (.leaf ⟨"OC", file.length⟩ (.code object)) (s.past file.length) ∧
      c.objectData.Describes object ∧ eventRows object.events = some (rows, []) ∧
      (∃ name, c.objectData.name = .ok name ∧ object.name = Text.ofBytes name) ∧ object.script = c.code

/-- A file of the fifth generation: a tag, the size, the table of events and the code. -/
structure VerbFile (file : Code) (c : Compiled) (rows : List (Nat × Nat)) : Prop where
  size : ofBE ((file.drop 4).take 4) = file.length
  table : eventRows (file.drop 8) = some (rows, c.code)

section Files

variable {c : Compiled} {header : Code} {version : Version}

theorem schedules_ordered {events : List (Int × String)} {o : Outline} {lines : List Code} {base : Nat}
    {placed : List (Int × Nat)} (hone : ∀ e ∈ placed, 1 ≤ e.1) (hnodup : (placed.map Prod.fst).Nodup)
    (hnames : ∀ e ∈ events, ∃ name : Name, name.text = e.2) (hlabels : ∀ (name : Name) line,
    Table.find? name.text o.ledger.labels = some line ↔ (name, line) ∈ o.labels 0)
    (hmem : ∀ key place, (key, place) ∈ placed ↔ ∃ label line, (key, label) ∈ events ∧
    Table.find? label o.ledger.labels = some line ∧ place = position lines line) :
    Schedules ((ordered placed).map (eventRow base)) events o lines base := by
  refine ⟨ascending_rows hone hnodup, fun key place => ?_⟩
  rw [mem_map]
  constructor
  · rintro ⟨e, he, heq⟩
    have he := (ordered_perm placed).mem_iff.1 he
    have hkey := hone e he
    obtain ⟨label, line, hlabel, hline, hplace⟩ := (hmem e.1 e.2).1 he
    obtain ⟨name, rfl⟩ := hnames _ hlabel
    obtain ⟨rfl, rfl⟩ := Prod.mk.inj heq
    refine ⟨name, line, ?_, (hlabels name line).1 hline, by rw [hplace, Nat.add_comm]⟩
    rwa [Int.toNat_of_nonneg (by omega)]
  · rintro ⟨name, line, hlabel, hline, rfl⟩
    refine ⟨(key, position lines line), (ordered_perm placed).mem_iff.2 ?_, ?_⟩
    · exact (hmem _ _).2 ⟨name.text, line, hlabel, (hlabels name line).2 hline, rfl⟩
    · rw [Nat.add_comm]
      rfl

theorem verbFile (h : Header.write .v5 .object c.number c.objectData c.events c.code.length = .ok header)
    (hsize : (header ++ c.code).length < 4294967296) (hkeys : ∀ e ∈ c.events, 1 ≤ e.1) :
    VerbFile (header ++ c.code) c ((ordered c.events).map (eventRow header.length)) := by
  obtain ⟨table, htable, hheader⟩ := write_object_five_eq_ok h
  have hfile : header ++ c.code = Text.toBytes "VERB" ++ (be 4 (header.length + c.code.length : Nat) ++
      (table ++ c.code)) := (congrArg (· ++ c.code) hheader).trans (by simp only [append_assoc])
  have htotal : (header ++ c.code).length = header.length + c.code.length := length_append
  constructor
  · rw [htotal, hfile]
    exact Int.ofNat.inj (Pack.ofLE_of_lt 4 (by omega) (show _ < 4294967296 by omega))
  · rw [hfile]
    exact eventRows_eventTable hkeys htable

section

variable (hversion : version ≠ .v5) (h : Header.write version .object c.number c.objectData c.events c.code.length = .ok header)

include hversion h

theorem places_of_write : ∃ fields name place, objectFields c.objectData = .ok fields ∧ c.objectData.name = .ok name ∧
    ((header ++ c.code).drop 4).take 2 = Text.toBytes "OC" ∧
    ((header ++ c.code).drop 6).take 12 = fields ∧ (header ++ c.code)[18]? = some place ∧
    (header ++ c.code).drop place.toNat = name ++ 0 :: c.code := by
  obtain ⟨numbers, table, name, fields, hfit, -, hfields, hdata, -, hsmall, -, hrecord, hheader⟩ :=
    write_object_eq_ok hversion h
  have hplace : le 1 (19 + table.length : Nat) = [UInt8.ofNat (19 + table.length)] := by
    change [UInt8.ofNat ((19 + table.length : Int) % 256).toNat] = _
    congr 2
    omega
  have htoNat : (UInt8.ofNat (19 + table.length)).toNat = 19 + table.length := by
    rw [UInt8.toNat_ofNat']
    omega
  have htag : (Text.toBytes "OC").length = 2 := by decide
  have hwidth : fields.length = 12 := by
    have hwidth : (recordCode ObjectScript.fields numbers).length = 13 := Pack.length_recordCode hfit
    rw [hrecord, length_append, Pack.length_le] at hwidth
    omega
  have hfile : header ++ c.code = le 4 (header.length + c.code.length : Nat) ++ (Text.toBytes "OC" ++
      (fields ++ UInt8.ofNat (19 + table.length) :: (table ++ (name ++ 0 :: c.code)))) := by
    refine (congrArg (· ++ c.code) hheader).trans ?_
    simp only [hrecord, hplace, append_assoc, cons_append, nil_append]
  have hsix : (header ++ c.code).drop 6 = fields ++ UInt8.ofNat (19 + table.length) :: (table ++ (name ++ 0 :: c.code)) := by
    rw [hfile, ← append_assoc, drop_left' (by simp [htag])]
  refine ⟨fields, name, UInt8.ofNat (19 + table.length), hfields, hdata, ?_, ?_, ?_, ?_⟩
  · rw [hfile, drop_left' (Pack.length_le _ _), take_left' htag]
  · rw [hsix, take_left' hwidth]
  · have hget : ((header ++ c.code).drop 6)[12]? = some (UInt8.ofNat (19 + table.length)) := by
      rw [hsix, getElem?_append_right (Nat.le_of_eq hwidth), hwidth]
      rfl
    rwa [getElem?_drop] at hget
  · have hdrop := congrArg (List.drop (13 + table.length)) hsix
    rw [drop_drop] at hdrop
    rw [htoNat, show 19 + table.length = 6 + (13 + table.length) by omega, hdrop,
      show fields ++ UInt8.ofNat (19 + table.length) :: (table ++ (name ++ 0 :: c.code))
        = (fields ++ UInt8.ofNat (19 + table.length) :: table) ++ (name ++ 0 :: c.code) by simp,
      drop_left' (by simp [hwidth]; omega)]

theorem objectFile (hsize : (header ++ c.code).length < 4294967296) (hkeys : ∀ e ∈ c.events, 1 ≤ e.1)
    (hname : ∀ name, c.objectData.name = .ok name → 0 ∉ name) :
    ObjectFile (header ++ c.code) c ((ordered c.events).map (eventRow header.length)) := by
  obtain ⟨numbers, table, name, _, hfit, hdescribes, -, hdata, htable, -, hlast, -, hheader⟩ :=
    write_object_eq_ok hversion h
  obtain ⟨_, name', place, -, hdata', -, -, hplace, hdrop⟩ := places_of_write hversion h
  obtain rfl : name = name' := Except.ok.inj (hdata.symm.trans hdata')
  have htag : (Text.toBytes "OC").length = 2 := by decide
  have hwidth : (recordCode ObjectScript.fields numbers).length = 13 := Pack.length_recordCode hfit
  have hfile : header ++ c.code = le 4 (header.length + c.code.length : Nat) ++ (Text.toBytes "OC" ++
      (recordCode ObjectScript.fields numbers ++ (table ++ (name ++ 0 :: c.code)))) :=
    (congrArg (· ++ c.code) hheader).trans (by simp only [append_assoc, singleton_append])
  have htotal : (header ++ c.code).length = header.length + c.code.length := length_append
  refine ⟨?_, ⟨name, hdata, ?_, place, hplace, hdrop⟩, ?_⟩
  · rw [htotal, hfile]
    exact Int.ofNat.inj (Pack.ofLE_of_lt 4 (by omega) (show _ < 4294967296 by omega))
  · rw [hfile, ← append_assoc, ← append_assoc, drop_left' (by simp [hwidth, htag])]
    exact eventRows_eventTable hkeys htable
  · intro s after room hold hahead
    rw [hfile] at hahead
    have hread := @Pack.Job.does_readCode _ hold _ _ _ c.code after hfit hlast (hname name hdata)
      (header.length + c.code.length) ?_ (by omega) ?_ room
    · refine ⟨_, htotal ▸ hread, ?_, ?_, ⟨name, hdata, rfl⟩, rfl⟩
      · exact ⟨hdescribes.id, hdescribes.unknown, hdescribes.x, hdescribes.y, hdescribes.parentState,
          hdescribes.width, hdescribes.parent, hdescribes.walkX, hdescribes.walkY, hdescribes.height,
          hdescribes.facing⟩
      · have hrows := @eventRows_eventTable _ _ _ [] hkeys htable
        rwa [append_nil] at hrows
    · have hlength := congrArg List.length hfile
      simp only [length_append, length_cons, Pack.length_le] at hlength
      omega
    · rw [hahead]
      simp only [append_assoc, cons_append, nil_append]

end

end Files

/-- An object script that compiles, with events other than zero, a name without a zero byte and a
header that can be made, has the header it should have. -/
theorem compile_object (opts : Options) (words : List String) (script : String) {c : Compiled}
    {header : Code} (hcompile : (compile opts words script).1 = .ok c) (hkind : c.kind = .object)
    (hheader : c.header = .ok header) (hsize : (header ++ c.code).length < 4294967296)
    (hkeys : ∀ e ∈ c.events, 1 ≤ e.1) (hname : ∀ name, c.objectData.name = .ok name → 0 ∉ name) :
    c.objectData = (declaredBy opts words script).objectData ∧
    ∃ o rows, SpellsScript opts.version opts.legacy (expandTabs script) opts.trailing o ∧ Lands o c.lines ∧
    Schedules rows (declaredBy opts words script).events o c.lines header.length ∧
    if opts.version = .v5 then VerbFile (header ++ c.code) c rows else ObjectFile (header ++ c.code) c rows := by
  obtain ⟨hscheduled, hversion, hdata, o, hspells, hlands, hevents, hlabels⟩ :=
    compile_object_eq_ok hcompile hkind
  obtain ⟨hfst, hmem⟩ := events_eq_ok hevents
  have hnodup : (c.events.map Prod.fst).Nodup := hfst ▸ hscheduled.keys
  rw [Compiled.header, hkind, hversion] at hheader
  refine ⟨hdata, o, (ordered c.events).map (eventRow header.length), hspells, hlands,
    schedules_ordered hkeys hnodup hscheduled.names hlabels hmem, ?_⟩
  split
  · rename_i hfive
    rw [hfive] at hheader
    exact verbFile hheader hsize hkeys
  · rename_i hold
    exact objectFile hold hheader hsize hkeys hname

def doorScript : String :=
  "#object-data [id 3, unknown 7, x-pos 1, y-pos 2, parent-state 0, width 4, parent 0, walk-x 5, walk-y 6, height 8, actor-dir 2, name \"door\"]Events:0B-open[open]goto open;"

-- a text this long is compared character by character
set_option maxRecDepth 2000 in
theorem compile_door : (compile ⟨.v4, false, false⟩ [] doorScript).1.toOption.any fun c =>
    (c.version = .v4 ∧ c.kind = .object ∧ c.events = [(11, 0)] ∧ c.code = [24, 253, 255]) ∧
    (objectFields c.objectData).toOption = some [3, 0, 7, 1, 2, 4, 0, 5, 0, 6, 0, 10] ∧
    c.objectData.name.toOption = some (Text.toBytes "door") ∧ c.objectData.isEmpty = false := by
  rw [compile, readText, show doorScript = String.ofList _ from rfl, expandTabs_ofList (by decide +kernel)]
  decide +kernel

theorem eq_ok_of_toOption {ε α : Type} {x : Except ε α} {a : α} (h : x.toOption = some a) : x = .ok a := by
  cases x with
  | error e => cases h
  | ok b => exact congrArg _ (Option.some.inj h)

theorem compile_object_door : ∃ c header, (compile ⟨.v4, false, false⟩ [] doorScript).1 = .ok c ∧
    header = [31, 0, 0, 0, 79, 67, 3, 0, 7, 1, 2, 4, 0, 5, 0, 6, 0, 10, 23, 11, 28, 0, 0] ++ Text.toBytes "door" ++ [0] ∧
    c.objectData = (declaredBy ⟨.v4, false, false⟩ [] doorScript).objectData ∧
    ∃ o rows, SpellsScript .v4 false (expandTabs doorScript) false o ∧ Lands o c.lines ∧
    Schedules rows (declaredBy ⟨.v4, false, false⟩ [] doorScript).events o c.lines header.length ∧
    ObjectFile (header ++ c.code) c rows := by
  have hdoor := compile_door
  rcases hcompile : (compile ⟨.v4, false, false⟩ [] doorScript).1 with fault | c
  · rw [hcompile] at hdoor
    cases hdoor
  rw [hcompile] at hdoor
  obtain ⟨⟨hversion, hkind, hevents, hcode⟩, hfields, hname, hempty⟩ := of_decide_eq_true hdoor
  replace hfields := eq_ok_of_toOption hfields
  replace hname := eq_ok_of_toOption hname
  have hheader : c.header = .ok ([31, 0, 0, 0, 79, 67, 3, 0, 7, 1, 2, 4, 0, 5, 0, 6, 0, 10, 23, 11,
      28, 0, 0] ++ Text.toBytes "door" ++ [0]) := by
    have htable : eventTable 28 [(11, 0)] = .ok [11, 28, 0, 0] := by
      rw [eventTable, ordered, mergeSort_singleton]
      rfl
    have hpart : objectPart c.objectData [(11, 0)] = .ok ([3, 0, 7, 1, 2, 4, 0, 5, 0, 6, 0, 10, 23] ++
        [11, 28, 0, 0] ++ Text.toBytes "door" ++ [0], 28) := by
      rw [objectPart, hempty, hfields, hname]
      exact bind_eq_ok.2 ⟨_, rfl, bind_eq_ok.2 ⟨_, rfl, bind_eq_ok.2 ⟨_, rfl, bind_eq_ok.2 ⟨_, htable, rfl⟩⟩⟩⟩
    rw [Compiled.header, hversion, hkind, hevents, hcode]
    exact bind_eq_ok.2 ⟨_, hpart, rfl⟩
  refine ⟨c, _, rfl, rfl, ?_⟩
  exact compile_object ⟨.v4, false, false⟩ [] doorScript hcompile hkind hheader (by rw [hcode]; decide)
    (by rw [hevents]; decide) fun name h => by rw [← Except.ok.inj (hname.symm.trans h)]; decide

end ScummKit.Script
