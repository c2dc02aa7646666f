import ScummKit.Proofs.Pack.Numerals
import ScummKit.Proofs.Script.ObjectFields
import ScummKit.Proofs.Script.ObjectScripts

/-!
# Lines that describe objects

From the header of an object's code a line of a script can be made that says the same. A script that
starts with this line compiles to a header with the same fields, if the state of the object's parent
is zero: the line gives any other state as a number of which the grammar takes the first digit only,
and then the fields behind it are missing (`compile_objectLine`).
-/

namespace ScummKit

open List

/-! ### Headers of object code -/

namespace ObjectCode

open Script

variable {o : ObjectCode} {data : List UInt8}

theorem not_mem_of_untilZero {bytes name : List UInt8} (h : untilZero bytes = .ok name) : 0 ∉ name := by
  induction bytes generalizing name with
  | nil => cases h
  | cons b bytes ih =>
    rw [untilZero] at h
    split at h
    · cases h
      exact not_mem_nil
    · rename_i hb
      obtain ⟨rest, hrest, h⟩ := bind_eq_ok.1 h
      cases h
      rw [mem_cons, not_or]
      exact ⟨fun h => hb h.symm, ih hrest⟩

theorem untilZero_append {name : List UInt8} (h : 0 ∉ name) (rest : List UInt8) : untilZero (name ++ 0 :: rest) = .ok name := by
  induction name with
  | nil => rfl
  | cons b name ih =>
    rw [mem_cons, not_or] at h
    obtain ⟨hb, hname⟩ := h
    rw [cons_append, untilZero, if_neg fun h => hb h.symm, ih hname]
    rfl

theorem read_eq_ok (h : read data = .ok o) : 0 ∉ o.name ∧ ∃ i i' unknown x y width parent wx wx' wy wy' height start more,
    data.drop 6 = [i, i', unknown, x, y, width, parent, wx, wx', wy, wy', height] ++ start :: more ∧
    o = ⟨word i i', unknown.toNat, x.toNat, y.toNat % 0x80, y.toNat / 0x80 * 0x80, width.toNat,
    parent.toNat, word wx wx', word wy wy', height.toNat / 8 * 8, height.toNat % 8, o.name⟩ := by
  rw [read] at h
  have hlong : ¬data.length < 4 := fun hlong => by
    rw [if_pos hlong] at h
    cases h
  rw [if_neg hlong] at h
  have htag : ¬(data.drop 4).take 2 ≠ Text.toBytes "OC" := fun htag => by
    rw [if_pos htag] at h
    cases h
  rw [if_neg htag] at h
  split at h
  · rename_i hbytes
    obtain ⟨name, hname, h⟩ := bind_eq_ok.1 h
    cases h
    exact ⟨not_mem_of_untilZero hname, _, _, _, _, _, _, _, _, _, _, _, _, _, _, hbytes, rfl⟩
  · cases h

theorem read_of_record (h : read data = .ok o) {file : List UInt8} {start : UInt8}
    (htag : (file.drop 4).take 2 = Text.toBytes "OC")
    (hrecord : (file.drop 6).take 12 = (data.drop 6).take 12) (hstart : file[18]? = some start)
    (hname : untilZero (file.drop start.toNat) = .ok o.name) : read file = .ok o := by
  obtain ⟨-, i, i', unknown, x, y, width, parent, wx, wx', wy, wy', height, _, _, hdata, ho⟩ :=
    read_eq_ok h
  rw [hdata] at hrecord
  have hlength : 18 < file.length := (List.getElem?_eq_some_iff.1 hstart).1
  have hsplit : file.drop 6 = [i, i', unknown, x, y, width, parent, wx, wx', wy, wy', height] ++ start :: file.drop 19 := by
    have hget := (List.getElem?_eq_some_iff.1 hstart).2
    rw [← List.take_append_drop 12 (file.drop 6), hrecord, List.drop_drop, List.drop_eq_getElem_cons hlength, hget]
    rfl
  rw [read, if_neg (by omega)]
  rw [if_neg (not_not.2 htag), hsplit]
  exact bind_eq_ok.2 ⟨_, hname, congrArg Except.ok ho.symm⟩

def places (o : ObjectCode) : List Entry :=
  [numberEntry "unknown" o.unknown, numberEntry "x-pos" o.x, numberEntry "y-pos" o.y]

def sizes (o : ObjectCode) : List Entry :=
  [numberEntry "width" o.width, numberEntry "parent" o.parent, numberEntry "walk-x" o.walkX,
    numberEntry "walk-y" o.walkY, numberEntry "height" o.height, numberEntry "actor-dir" o.actorDir,
    nameEntry o.name]

theorem toList_line (o : ObjectCode) : o.line.toList = "#object-data".toList ++ ' ' :: '[' :: ((numberEntry "id" o.id).text ++
    (fieldList (o.places ++ numberEntry "parent-state" o.parentState :: o.sizes) ++ [']'])) := by
  unfold line
  simp only [toString, String.toList_append, Nat.toList_repr, Text.ofBytes, String.toList_ofList]
  simp only [places, sizes, fieldList, cons_append, nil_append, flatMap_cons,
    flatMap_nil, Entry.text, numberEntry, nameEntry, nameChars, digits, append_assoc,
    String.reduceToList]

end ObjectCode

/-! ### Reading the line -/

namespace Script

open Grammar Lexicon Statement Build ObjectCode
open Layout (byte_eq_ok word_eq_ok wordOf)

variable {es : List Entry} {e : Entry} {key : String}

section Lines

variable {v : Version} {legacy : Bool} {text : Array Char} {fuel : Nat} {skip : Bool}
variable {u : Assembler} {o : ObjectCode} {more after : List Char}

theorem readableAll_number {n : Nat}
    (hkey : key ∈ fieldKeys ∧ key ≠ "parent-state" ∧ key ≠ "name") (h : ReadableAll v legacy text u (fuel + 6) after (e :: es)) :
    ReadableAll v legacy text u (fuel + 6) after (numberEntry key n :: e :: es) := by
  refine ⟨hkey.1, ?_, h⟩
  exact readable_number hkey.1 hkey.2.1 hkey.2.2 (by decide)

theorem readableAll_places (h : ReadableAll v legacy text u (fuel + 6) after (e :: es)) :
    ReadableAll v legacy text u (fuel + 6) after (o.places ++ e :: es) :=
  readableAll_number (by decide) (readableAll_number (by decide) (readableAll_number (by decide) h))

theorem readableAll_sizes (hname : ∀ b ∈ o.name, IsPlain b) : ReadableAll v legacy text u (fuel + 13) (']' :: more) o.sizes := by
  have hkey : "name" ∈ fieldKeys := by decide
  have hlast : ReadableAll v legacy text u (fuel + 13) (']' :: more) [nameEntry o.name] :=
    ⟨hkey, readable_name hname (by decide) (by decide) (by decide), trivial⟩
  exact readableAll_number (by decide) (readableAll_number (by decide) (readableAll_number (by decide)
    (readableAll_number (by decide) (readableAll_number (by decide) (readableAll_number (by decide) hlast)))))

def entries (o : ObjectCode) : List Entry := numberEntry "id" o.id :: (o.places ++ stateEntry "0" :: o.sizes)

theorem key_id : "id" ∈ fieldKeys := by decide

theorem nodup_entries : ((entries o).map Entry.key).Nodup := by
  change fieldKeys.Nodup
  decide

theorem at_directive {fields : List Char} (h : text.toList = "#object-data".toList ++ fields) :
    At text skip 0 ("#object-data".toList ++ fields) := by
  have hat : At text skip (place text ("#object-data".toList ++ fields)) ("#object-data".toList ++ fields) :=
    @at_solid _ _ '#' ("object-data".toList ++ fields) (h ▸ suffix_rfl) (by decide)
  have hstart := place_toList text
  rw [h] at hstart
  rwa [hstart] at hat

theorem ends_line (hv : v ≠ .v5) (hname : ∀ b ∈ o.name, IsPlain b) (hstate : o.parentState = 0)
    (htext : o.line.toList ++ more = text.toList) (hkind : u.kind = none) (hdata : u.objectData = []) :
    Ends (scan v legacy text (fuel + 20) (directive v legacy) skip 0) u
    (.ok (o.line.length, .own ⟨[], []⟩)) ({ u with kind := some .object }.withFields (entries o)) := by
  have hzero : (numberEntry "parent-state" 0).text = (stateEntry "0").text := by decide
  have hfields : text.toList = "#object-data".toList ++ ' ' :: '[' :: ((numberEntry "id" o.id).text ++
      (fieldList (o.places ++ stateEntry "0" :: o.sizes) ++ ']' :: more)) := by
    rw [← htext, toList_line, hstate]
    simp only [fieldList, flatMap_append, flatMap_cons, hzero, append_assoc, cons_append, nil_append]
  have hat : At text true 0 _ := at_directive hfields
  have hstatekey : "parent-state" ∈ fieldKeys := by decide
  have hend : ']' :: more <:+ text.toList :=
    suffix_of_append (suffix_of_append (suffix_of_cons (suffix_of_cons (suffix_of_append hat.rest))))
  have hstop : place text more = o.line.length := by
    have hsize : text.size = (o.line.toList ++ more).length := congrArg List.length htext.symm
    rw [place, hsize, length_append, String.length_toList, Nat.add_sub_cancel]
  rw [← hstop]
  exact ends_objectData hv (by decide) (by decide) key_id (readable_number key_id (by decide) (by decide) (by decide))
    (readableAll_places ⟨hstatekey, readable_state (.inl rfl), readableAll_sizes hname⟩) hat
    (scans_opt (at_solid hend (by decide)) rfl (scans_mark (at_place hend)))
    hkind hdata nodup_entries (.inr (show 10 < 11 by decide))

theorem ends_line_fault (hv : v ≠ .v5) (hstate : o.parentState = 128)
    (htext : o.line.toList ++ more = text.toList) (hkind : u.kind = none) (hdata : u.objectData = []) :
    ∃ u', Ends (scan v legacy text (fuel + 20) (directive v legacy) skip 0) u (.error (.fault (.script
    "Insufficient arguments in #object-data directive. All items except \"unknown\" are mandatory."))) u' := by
  have hdigits : (numberEntry "parent-state" 128).text = (stateEntry "1").text ++ ['2', '8'] := by decide
  have hfields : text.toList = "#object-data".toList ++ ' ' :: '[' :: ((numberEntry "id" o.id).text ++
      (fieldList (o.places ++ [stateEntry "1"]) ++ '2' :: '8' :: (fieldList o.sizes ++ ']' :: more))) := by
    rw [← htext, toList_line, hstate]
    simp only [fieldList, flatMap_append, flatMap_cons, flatMap_nil, hdigits, append_assoc, cons_append, nil_append]
  have hat : At text true 0 _ := at_directive hfields
  have hstatekey : "parent-state" ∈ fieldKeys := by decide
  have hend : '2' :: '8' :: (fieldList o.sizes ++ ']' :: more) <:+ text.toList :=
    suffix_of_append (suffix_of_append (suffix_of_cons (suffix_of_cons (suffix_of_append hat.rest))))
  have hstates : ReadableAll v legacy text u (fuel + 13) ('2' :: '8' :: (fieldList o.sizes ++ ']' :: more))
      [stateEntry "1"] := ⟨hstatekey, readable_state (.inr rfl), trivial⟩
  have hkeys : (fieldKeys.take 5).Nodup := by decide
  exact ⟨_, ends_objectData hv (by decide) (by decide) key_id (readable_number key_id (by decide) (by decide) (by decide))
    (readableAll_places hstates) hat (scans_opt_none (at_solid hend (by decide)) rfl (lacks_mark (at_place hend) (by simp)))
    hkind hdata hkeys (.inl (show 4 < 10 by decide))⟩

end Lines

/-! ### Scripts -/

/-- What is known of an object: it is settled that the script is for one, and of its data. -/
structure Assembler.Tells (v : Version) (data : Header.ObjectData) (a : Assembler) : Prop where
  version : a.version = v
  kind : a.kind = some .object
  data : ∀ key t, Table.find? key data = some t → Table.find? key a.objectData = some t

section Scripts

variable {v : Version} {legacy trailing : Bool} {text : Array Char} {fuel pos : Nat} {skip : Bool}
variable {u u' : Assembler} {data : Header.ObjectData} {a : Nat × Found}

theorem Assembler.Tells.declared : Declared (Assembler.Tells v data) where
  number := fun _ _ h => ⟨h.version, h.kind, h.data⟩
  define := fun _ _ _ h => ⟨h.version, h.kind, h.data⟩
  kind := by
    intro a kind hkind h
    rcases hkind with hkind | hkind
    · rw [h.kind] at hkind
      cases hkind
    · exact ⟨h.version, hkind.symm.trans h.kind, h.data⟩
  object := by
    refine fun a key value hnew h => ⟨h.version, h.kind, fun k t ht => ?_⟩
    have hne : key ≠ k := fun heq => by rw [heq, h.data k t ht] at hnew; cases hnew
    rw [Table.find?_put, if_neg hne]
    exact h.data k t ht

theorem triple_script_tells (hfuel : 8 * text.size + 30 ≤ fuel) (hstart : At text true 0 text.toList)
    (hline : Ends (scan v legacy text fuel (directive v legacy) false 0) u (.ok a) u')
    (hcodes : HasCodes a.2 []) (htells : u'.Tells v data) :
    Triple (· = u) (scan v legacy text (fuel + 2) (script v legacy trailing) true 0)
    (fun _ => Assembler.Tells v data) fun _ => True := by
  have hblanks : skipBlanks text 0 = 0 := hstart.start.trans (place_toList text)
  refine triple_post (triple_script (P := Assembler.Tells v data) (by omega) ?_) ?_
  · obtain ⟨fuel, rfl⟩ : ∃ rest, fuel = rest + 1 := ⟨fuel - 1, by omega⟩
    refine triple_many (R := fun r t => HasCodes r.2 [] ∧ t.Tells v data) ?_ fun _ _ =>
      triple_moreDirectives (fun _ => triple_directive Assembler.Tells.declared
        (triple_eventsLine Assembler.Tells.declared fun _ _ _ h => ⟨h.version, h.kind, h.data⟩)) _ _ _
    rw [hblanks]
    exact hline.triple ⟨hcodes, htells⟩
  · rintro r _ ⟨o, t, n, ht, -, -, -, rfl⟩
    exact ⟨ht.version, ht.kind, ht.data⟩

theorem ends_script_fault {e : Fault} (hstart : At text true 0 text.toList)
    (hline : Ends (scan v legacy text fuel (directive v legacy) false 0) u (.error (.fault e)) u') :
    Ends (scan v legacy text (fuel + 2) (script v legacy trailing) true 0) u (.error (.fault e)) u' := by
  have htextStart : Scans (scan v legacy text (fuel + 1) .textStart false
      (place text text.toList)) u (0, .nothing) := by
    rw [place_toList]
    refine scans_atom rfl ?_
    rw [seat, if_neg (by simp), readAtom, if_pos (.inl rfl)]
  refine ends_seq hstart htextStart (ends_items_stop (Ends.stop (Ends.orElse (Ends.stop ?_) (by simp))))
  exact hline

end Scripts

/-! ### Headers made again -/

section Headers

variable {o : ObjectCode} {data : List UInt8} {table : Header.ObjectData}

theorem byte_toNat (b : UInt8) : Field.byte b.toNat = .ok [b] := by
  have hsmall := b.toNat_lt
  refine byte_eq_ok.2 ⟨by omega, ?_⟩
  rw [show ((b.toNat : Int) % 256).toNat = b.toNat by omega, UInt8.ofNat_toNat]

theorem word_toNat (lo hi : UInt8) : Field.word (ObjectCode.word lo hi) = .ok [lo, hi] := by
  have hlo := lo.toNat_lt
  have hhi := hi.toNat_lt
  rw [ObjectCode.word, word_eq_ok, wordOf,
    show (((lo.toNat + 256 * hi.toNat : Nat) : Int) % 65536).toNat = lo.toNat + 256 * hi.toNat by omega]
  refine ⟨by omega, ?_⟩
  simp only [show (lo.toNat + 256 * hi.toNat) % 256 = lo.toNat by omega,
    show (lo.toNat + 256 * hi.toNat) / 256 = hi.toNat by omega, UInt8.ofNat_toNat]

theorem byte_position {y : UInt8} (h : y.toNat / 0x80 * 0x80 = 0) :
    Field.byte (Header.lowBits (y.toNat % 0x80 : Nat) 0x80 ||| (Int.toNat 0 <<< 7) : Nat) = .ok [y] := by
  rw [Header.lowBits_or_state, ← byte_toNat y]
  congr 2
  simp only [Header.lowBits]
  omega

theorem byte_height (height : UInt8) : Field.byte ((Header.lowBits (height.toNat / 8 * 8 : Nat) 0x100 / 8 * 8) |||
    Header.lowBits (height.toNat % 8 : Nat) 8 : Nat) = .ok [height] := by
  have hsmall := height.toNat_lt
  rw [Header.height_or_direction, ← byte_toNat height]
  congr 2
  simp only [Header.lowBits]
  omega

theorem objectFields_of_entries (hread : ObjectCode.read data = .ok o) (hstate : o.parentState = 0)
    (h : ∀ e ∈ entries o, Table.find? e.key table = some e.value) : Header.objectFields table = .ok ((data.drop 6).take 12) := by
  obtain ⟨-, i, i', unknown, x, y, width, parent, wx, wx', wy, wy', height, _, _, hdata, ho⟩ :=
    read_eq_ok hread
  have hnumber : ∀ key n, numberEntry key n ∈ entries o → table.number key = .ok n := by
    intro key n hmem
    rw [Header.ObjectData.number, show Table.find? key table = _ from h _ hmem]
    exact Numeral.read_toString n
  have hstatus : table.number "parent-state" = .ok 0 := by
    rw [Header.ObjectData.number, show Table.find? "parent-state" table = _ from h (stateEntry "0") (by
      simp [entries])]
    exact Numeral.read_toString 0
  have hhas : Table.has "unknown" table = true := by
    rw [Table.has, show Table.find? "unknown" table = _ from h (numberEntry "unknown" o.unknown) (by
      simp [entries, places])]
    rfl
  have hid := hnumber "id" o.id (by simp [entries])
  have hunknown := hnumber "unknown" o.unknown (by simp [entries, places])
  have hx := hnumber "x-pos" o.x (by simp [entries, places])
  have hy := hnumber "y-pos" o.y (by simp [entries, places])
  have hwidth := hnumber "width" o.width (by simp [entries, sizes])
  have hparent := hnumber "parent" o.parent (by simp [entries, sizes])
  have hwalkX := hnumber "walk-x" o.walkX (by simp [entries, sizes])
  have hwalkY := hnumber "walk-y" o.walkY (by simp [entries, sizes])
  have hheight := hnumber "height" o.height (by simp [entries, sizes])
  have hdir := hnumber "actor-dir" o.actorDir (by simp [entries, sizes])
  rw [ho] at hid hunknown hx hy hwidth hparent hwalkX hwalkY hheight hdir hstate
  rw [hdata]
  simp only [Header.objectFields, hid, hunknown, hx, hy, hwidth, hparent, hwalkX, hwalkY, hheight, hdir,
    hstatus, hhas, bind, Except.bind, byte_toNat, word_toNat, byte_position hstate, byte_height]
  rfl

end Headers

/-! ### Scripts that start with a line -/

section Compiling

variable {opts : Options} {words : List String} {script : String} {c : Compiled} {o : ObjectCode}

def Options.start (opts : Options) (words : List String) : Assembler :=
  .start opts.version words (KnownVariable.names opts.version)

theorem compile_tells {data : Header.ObjectData} (hread : Triple (· = opts.start words)
    (read (rules opts.version opts.legacy) (expandTabs script) (depthFor (expandTabs script))
    (Statement.script opts.version opts.legacy opts.trailing) true true 0)
    (fun _ => Assembler.Tells opts.version data) fun _ => True) (hcompile : (compile opts words script).1 = .ok c) :
    c.version = opts.version ∧ c.kind = .object ∧
    ∀ key t, Table.find? key data = some t → Table.find? key c.objectData = some t := by
  have htriple := triple_bind hread fun r => (triple_view : Triple _ r.2.view _ _)
  obtain ⟨_, m, _, htext, -, -, -, -, -, hc⟩ := compile_eq_ok hcompile
  have htells : m.user.Tells opts.version data :=
    htriple.gets rfl htext
  rw [hc]
  exact ⟨htells.version, by rw [htells.kind]; rfl, htells.data⟩

theorem compile_fault {e : Fault} {u' : Assembler} (hread : Ends (read (rules opts.version opts.legacy) (expandTabs script)
    (depthFor (expandTabs script)) (Statement.script opts.version opts.legacy opts.trailing) true true 0)
    (opts.start words) (.error (.fault e)) u') : (compile opts words script).1 = .error e := by
  obtain ⟨far, hrun⟩ := hread.stop ⟨0, #[], opts.start words⟩ rfl
  have htext : readText (rules opts.version opts.legacy) (Statement.script opts.version opts.legacy opts.trailing) script
      (.start opts.version words (KnownVariable.names opts.version))
      = (.error (.fault e), ⟨far, #[], u'⟩) := hrun
  simp only [compile, htext, stopFault]

theorem find?_noted (hnodup : (es.map Entry.key).Nodup) (he : e ∈ es) :
    Table.find? e.key (es.map Entry.noted) = some e.value := by
  induction es with
  | nil => cases he
  | cons e' es ih =>
    obtain ⟨hkey, hnodup⟩ := nodup_cons.1 hnodup
    rw [map_cons, Entry.noted, Table.find?]
    rcases mem_cons.1 he with rfl | he
    · exact if_pos rfl
    · have hne : e'.key ≠ e.key := fun heq => hkey (heq ▸ mem_map_of_mem he)
      rw [if_neg hne]
      exact ih hnodup he

theorem tab_not_mem_number (hkey : '\t' ∉ key.toList) (n : Nat) : '\t' ∉ (numberEntry key n).text := by
  have hdigits : '\t' ∉ digits n := fun h =>
    absurd (Nat.isDigit_of_mem_toDigits (by decide) (by decide) h) (by decide)
  simp [Entry.text, numberEntry, hkey, hdigits]

theorem tab_not_mem_line (hname : ∀ b ∈ o.name, IsPlain b) : '\t' ∉ o.line.toList := by
  have hchars : '\t' ∉ nameChars o.name := by
    intro h
    obtain ⟨b, hb, heq⟩ := mem_map.1 h
    exact (hname b hb).ne (by decide) (by decide) heq
  have hlast : '\t' ∉ (nameEntry o.name).text := by
    simp [Entry.text, nameEntry, hchars]
  have hfields : ∀ e ∈ o.places ++ numberEntry "parent-state" o.parentState :: o.sizes, '\t' ∉ e.text := by
    simp [places, sizes, tab_not_mem_number, hlast]
  have hlisted : '\t' ∉ fieldList (o.places ++ numberEntry "parent-state" o.parentState :: o.sizes) := by
    intro h
    obtain ⟨e, he, h⟩ := mem_flatMap.1 h
    simp [hfields e he] at h
  rw [toList_line]
  simp [@tab_not_mem_number "id" (by decide), hlisted]

end Compiling

/-- A script that starts with the line made from the header of an object's code. If the parent's state
is zero, the line is read to its end, and whatever follows it, the script compiles to a header with
the same fields, if it compiles and a header can be made at all. Otherwise it never compiles. -/
theorem compile_objectLine (opts : Options) (words : List String) (rest : String)
    {data : List UInt8} {o : ObjectCode} (hversion : opts.version ≠ .v5)
    (hread : ObjectCode.read data = .ok o) (hname : ∀ b ∈ o.name, IsPlain b) : (o.parentState = 0 ∧
    Ends (Grammar.read (rules opts.version opts.legacy) (expandTabs (o.line ++ rest))
    (depthFor (expandTabs (o.line ++ rest))) (directive opts.version opts.legacy) true true 0)
    (opts.start words) (.ok (o.line.length, .own ⟨[], []⟩))
    ({ opts.start words with kind := some .object }.withFields (entries o)) ∧
      ∀ c, (compile opts words (o.line ++ rest)).1 = .ok c →
        c.kind = .object ∧ Header.objectFields c.objectData = .ok ((data.drop 6).take 12) ∧
        c.objectData.name = .ok o.name ∧
        ∀ header, c.header = .ok header → ObjectCode.read (header ++ c.code) = .ok o) ∨
    (o.parentState = 128 ∧ (compile opts words (o.line ++ rest)).1 = .error (.script
      "Insufficient arguments in #object-data directive. All items except \"unknown\" are mandatory.")) := by
  obtain ⟨hzero, _, _, _, _, y, _, _, _, _, _, _, _, _, _, _, ho⟩ := read_eq_ok hread
  obtain ⟨more, hmore⟩ := prefix_expandTabs (tab_not_mem_line hname) rest
  obtain ⟨fuel, hfuel⟩ : ∃ fuel, depthFor (expandTabs (o.line ++ rest)) = fuel + 22 :=
    ⟨depthFor (expandTabs (o.line ++ rest)) - 22, by rw [depthFor]; omega⟩
  have hstart : At (expandTabs (o.line ++ rest)) true 0 (expandTabs (o.line ++ rest)).toList := by
    have htext := hmore.symm
    rw [toList_line, append_assoc] at htext
    exact htext ▸ at_directive htext
  have hstates : o.parentState = 0 ∨ o.parentState = 128 := by
    have hy := y.toNat_lt
    rw [ho]
    dsimp only
    omega
  rcases hstates with hstate | hstate
  · refine .inl ⟨hstate, ?_, fun c hcompile => ?_⟩
    · rw [hfuel]
      exact ends_line hversion hname hstate hmore rfl rfl
    have hline := @ends_line _ opts.legacy _ fuel false (opts.start words) _ _ hversion hname hstate hmore rfl rfl
    have hkeys : ((entries o).map Entry.key).Nodup := by
      change fieldKeys.Nodup
      decide
    have hscript := @triple_script_tells _ _ opts.trailing _ _ _ _ ((entries o).map Entry.noted) _
      (by rw [depthFor] at hfuel; omega) hstart hline rfl
      ⟨rfl, rfl, fun key t h => by rwa [objectData_withFields rfl hkeys]⟩
    rw [← hfuel] at hscript
    obtain ⟨hv, hkind, hdata⟩ := compile_tells hscript hcompile
    have hentries : ∀ e ∈ entries o, Table.find? e.key c.objectData = some e.value :=
      fun e he => hdata _ _ (find?_noted hkeys he)
    have hfields := objectFields_of_entries hread hstate hentries
    have hnamed : c.objectData.name = .ok o.name := by
      rw [Header.ObjectData.name, show Table.find? "name" c.objectData = _ from
        hentries (nameEntry o.name) (by simp [entries, sizes])]
      rfl
    refine ⟨hkind, hfields, hnamed, fun header hheader => ?_⟩
    rw [Compiled.header, hkind, hv] at hheader
    obtain ⟨fields, name, place, hfields', hname', htag, hrecord, hplace, hdrop⟩ :=
      places_of_write hversion hheader
    cases hfields.symm.trans hfields'
    cases hnamed.symm.trans hname'
    refine read_of_record hread htag hrecord hplace ?_
    rw [hdrop]
    exact untilZero_append hzero c.code
  · obtain ⟨u', hline⟩ := @ends_line_fault _ opts.legacy _ fuel false (opts.start words) _ _ hversion hstate hmore rfl rfl
    have hscript := @ends_script_fault _ _ opts.trailing _ _ _ _ _ hstart hline
    rw [← hfuel] at hscript
    exact .inr ⟨hstate, compile_fault hscript⟩

def doorBlock (y : UInt8) : Code :=
  [31, 0, 0, 0, 79, 67, 3, 0, 7, 1, y, 4, 0, 5, 0, 6, 0, 10, 23, 11, 28, 0, 0, 100, 111, 111, 114, 0, 24, 253, 255]

theorem compile_objectLine_door : ∃ o o' c, ObjectCode.read (doorBlock 2) = .ok o ∧ ObjectCode.read (doorBlock 130) = .ok o' ∧
    (compile ⟨.v4, false, false⟩ [] (o.line ++ "Events:0B-open[open]goto open;")).1 = .ok c ∧
    c.kind = .object ∧ Header.objectFields c.objectData = .ok [3, 0, 7, 1, 2, 4, 0, 5, 0, 6, 0, 10] ∧
    (compile ⟨.v4, false, false⟩ [] (o'.line ++ "Events:0B-open[open]goto open;")).1 = .error (.script
    "Insufficient arguments in #object-data directive. All items except \"unknown\" are mandatory.") := by
  have hshut : ObjectCode.read (doorBlock 2) = .ok ⟨3, 7, 1, 2, 0, 4, 0, 5, 6, 8, 2, Text.toBytes "door"⟩ := by decide
  have hopen : ObjectCode.read (doorBlock 130) = .ok ⟨3, 7, 1, 2, 128, 4, 0, 5, 6, 8, 2, Text.toBytes "door"⟩ := by decide
  have hname : ∀ b ∈ Text.toBytes "door", IsPlain b := by
    simp only [IsPlain]
    decide +kernel
  have hscript : ObjectCode.line ⟨3, 7, 1, 2, 0, 4, 0, 5, 6, 8, 2, Text.toBytes "door"⟩ ++
      "Events:0B-open[open]goto open;" = doorScript := by decide +kernel
  have hdoor := compile_door
  rcases hcompile : (compile ⟨.v4, false, false⟩ [] doorScript).1 with fault | c
  · rw [hcompile] at hdoor
    cases hdoor
  rw [← hscript] at hcompile
  refine ⟨_, _, c, hshut, hopen, hcompile, ?_⟩
  rcases compile_objectLine ⟨.v4, false, false⟩ [] "Events:0B-open[open]goto open;" nofun hshut hname with
    ⟨-, -, h⟩ | ⟨h, -⟩
  · obtain ⟨hkind, hfields, -, -⟩ := h c hcompile
    rcases compile_objectLine ⟨.v4, false, false⟩ [] "Events:0B-open[open]goto open;" nofun hopen hname with
      ⟨h, -⟩ | ⟨-, herror⟩
    · cases h
    · exact ⟨hkind, hfields, herror⟩
  · cases h

end Script

end ScummKit
