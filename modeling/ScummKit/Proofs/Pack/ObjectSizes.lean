import Mathlib.Algebra.Group.Nat.Defs
import ScummKit.Pack.Load
import ScummKit.Proofs.Pack.Records

/-!
# Sizes of the codes of objects

The size of the code of an object is counted, or kept as it was read, before an empty table of events is
filled with a zero. So the block of such a code takes one byte more than its head says.
-/

namespace ScummKit.Pack

open List

variable {s t u v : State} {numbers : List Int} {a bytes : List UInt8} {pairs : List (Field × Int)} {fields : List Field}

/-! ### What a step has done -/

theorem Does.unique {x : Job α} {a a' : α} (h : Does x s a t) (h' : Does x s a' u) : a = a' ∧ t = u := by
  cases h.symm.trans h'
  exact ⟨rfl, rfl⟩

namespace Job

theorem eq_of_ofExcept {r : Except Fault α} {a : α} (h : Does (ofExcept r) s a t) : r = .ok a ∧ t = s := by
  cases r with
  | error f => cases h
  | ok a' =>
    cases h
    exact ⟨rfl, rfl⟩

theorem eq_of_take {n : Nat} (h : Does (take n) s a t) : a = s.ahead.take n ∧ t = s.past a.length := by
  cases h
  exact ⟨rfl, rfl⟩

theorem eq_of_takeAll {n : Int} (h : Does (takeAll n) s a t) : a.length = n.toNat ∧ t = s.past a.length := by
  obtain ⟨a', t', htake, h⟩ := h.exists_of_bind
  obtain ⟨ha, rfl⟩ := eq_of_take htake
  split at h
  · cases h
  · have hle : a'.length ≤ n.toNat := ha ▸ length_take_le _ _
    cases h
    exact ⟨by omega, rfl⟩

theorem eq_of_takeTerminated (h : Does takeTerminated s a t) : t = s.past (a.length + 1) := by
  obtain ⟨_, _, hget, h⟩ := h.exists_of_bind
  cases hget
  split at h
  · cases h
  · obtain ⟨_, _, hskip, h⟩ := h.exists_of_bind
    cases h
    exact ((does_skip _ s).unique hskip).2.symm

theorem eq_of_readLabel {label : Label} (hold : s.format.isOld = true) (h : Does readLabel s label t) (hname : label.name = "OC") :
    t = s.past 6 := by
  obtain ⟨_, _, hformat, h⟩ := h.exists_of_bind
  cases hformat
  rw [if_pos hold] at h
  obtain ⟨size, _, htake, h⟩ := h.exists_of_bind
  obtain ⟨hsize, rfl⟩ := eq_of_take htake
  obtain ⟨name, _, htake, h⟩ := h.exists_of_bind
  obtain ⟨hletters, rfl⟩ := eq_of_take htake
  have hfour := congrArg length hsize
  have htwo := congrArg length hletters
  rw [length_take] at hfour
  rw [length_take, State.ahead_past, length_drop] at htwo
  cases h
  have hlength : name.length = 2 := by
    have hname := congrArg (·.toList.length) hname
    rwa [Text.ofBytes, String.toList_ofList, length_map] at hname
  have hsix : size.length + name.length = 6 := by omega
  rw [State.past_past, hsix]

end Job

/-! ### Numbers in their fields -/

theorem exists_packFields (h : ∀ p ∈ pairs, p.1.least ≤ p.2 ∧ p.2 ≤ p.1.greatest) : ∃ bytes, packFields pairs = .ok bytes := by
  induction pairs with
  | nil => exact ⟨_, rfl⟩
  | cons p rest ih =>
    obtain ⟨hfirst, hrest⟩ := forall_mem_cons.mp h
    obtain ⟨bytes, hbytes⟩ := ih hrest
    rw [packFields, Field.pack, if_pos hfirst, hbytes]
    exact ⟨_, rfl⟩

theorem length_packFields (h : packFields pairs = .ok bytes) : bytes.length = widthOf (pairs.map (·.1)) := by
  induction pairs generalizing bytes with
  | nil => cases h; rfl
  | cons p rest ih =>
    obtain ⟨first, hfirst, h⟩ := bind_eq_ok.mp h
    obtain ⟨others, hrest, h⟩ := bind_eq_ok.mp h
    cases h
    rw [Field.pack] at hfirst
    split at hfirst
    · cases hfirst
      rw [length_append, length_le, ih hrest]
      rfl
    · cases hfirst

theorem ofLE_lt (bytes : List UInt8) : ofLE bytes < 256 ^ bytes.length := by
  induction bytes with
  | nil => exact Nat.one_pos
  | cons b rest ih =>
    have := b.toNat_lt
    rw [ofLE, length_cons]
    omega

theorem fit_of_unpackFields (h : unpackFields fields bytes = .ok numbers) :
    Fit fields numbers ∧ bytes.length = widthOf fields := by
  induction fields generalizing bytes numbers with
  | nil =>
    cases bytes with
    | nil => cases h; exact ⟨.nil, rfl⟩
    | cons b rest => cases h
  | cons f fields ih =>
    rw [unpackFields] at h
    split at h
    · cases h
    · rename_i hlong
      obtain ⟨others, hothers, h⟩ := bind_eq_ok.mp h
      cases h
      obtain ⟨hfit, hlength⟩ := ih hothers
      have hfirst := ofLE_lt (bytes.take f.width)
      rw [length_take_of_le (Nat.not_lt.mp hlong)] at hfirst
      rw [length_drop] at hlength
      refine ⟨.cons ?_ hfit, ?_⟩
      · cases f <;> simp only [Field.unpack, Field.width, Field.least, Field.greatest, Nat.pow_eq] at hfirst ⊢ <;> omega
      · change bytes.length = f.width + widthOf fields
        omega

theorem Job.eq_of_record (h : Does (record fields) s numbers t) : Fit fields numbers ∧ t = s.past (widthOf fields) := by
  obtain ⟨bytes, _, htake, h⟩ := h.exists_of_bind
  obtain ⟨-, rfl⟩ := eq_of_take htake
  obtain ⟨hunpack, rfl⟩ := eq_of_ofExcept h
  obtain ⟨hfit, hlength⟩ := fit_of_unpackFields hunpack
  exact ⟨hfit, by rw [hlength]⟩

/-! ### Writing -/

namespace ObjectScript

variable (o : ObjectScript)

/-- How many bytes the block of a code takes more than were counted. -/
def surplus : Int := if o.events.isEmpty then 1 else 0

theorem length_tail : (eventsAt + o.tail.length : Int) = o.size + o.surplus := by
  have hname : (Text.toBytes o.name).length = o.name.length := by rw [Text.toBytes, length_map, String.length_toList]
  rw [tail, size, surplus, storedEvents]
  cases o.events with
  | nil => simp [hname]; omega
  | cons e events => simp [hname]; omega

end ObjectScript

namespace Block

/-- At the end of a file the block is written with the size `stated`, and takes `real` bytes. -/
def Takes (b : Block) (stated real : Int) : Prop := ∀ {u v : State} {room : Int}, u.format.isOld = true → u.AtEnd → Does (b.write room) u () v →
  ∃ bytes, v = u.add (le 4 stated ++ bytes) ∧ ((le 4 stated ++ bytes).length : Int) = real

variable {o : ObjectScript} {stated room : Int}

theorem does_write_code {record : List UInt8} (hold : u.format.isOld = true) (hend : u.AtEnd)
    (hrecord : packFields (ObjectScript.fields.zip o.numbers) = .ok record) :
    Does (write (.leaf ⟨"OC", stated⟩ (.code o)) room) u () (u.add (le 4 stated ++ (Text.toBytes "OC" ++ (record ++ o.tail)))) := by
  have hlabel := Job.does_writeLabel hend ⟨"OC", stated⟩
  rw [Format.header, if_pos hold] at hlabel
  have hrest := Job.does_emit (State.atEnd_add (s := u.add (le 4 stated ++ Text.toBytes "OC")) (a := record)) o.tail
  rw [← append_assoc, ← State.add_add, ← State.add_add]
  exact (Job.does_format u).bind ((Job.does_tell u).bind (hlabel.bind ((Job.does_ofExcept hrecord _).bind
    ((Job.does_emit State.atEnd_add record).bind hrest))))

theorem takes_code (stated : Int) (o : ObjectScript) : Takes (.leaf ⟨"OC", stated⟩ (.code o)) stated (o.size + o.surplus) := by
  intro u v room hold hend h
  cases hrecord : packFields (ObjectScript.fields.zip o.numbers) with
  | error f =>
    obtain ⟨_, _, hformat, h⟩ := h.exists_of_bind
    obtain ⟨_, _, htell, h⟩ := h.exists_of_bind
    obtain ⟨_, _, hlabel, h⟩ := h.exists_of_bind
    obtain ⟨_, _, hpack, h⟩ := h.exists_of_bind
    rw [hrecord] at hpack
    cases hpack
  | ok record =>
    obtain ⟨-, rfl⟩ := (does_write_code hold hend hrecord).unique h
    refine ⟨_, rfl, ?_⟩
    have hlength : record.length = 13 := length_packFields hrecord
    have hname : (Text.toBytes "OC").length = 2 := rfl
    rw [← o.length_tail, length_append, length_append, length_append, length_le]
    change _ = 19 + _
    omega

end Block

/-! ### Reading -/

theorem fit_numbers {events script : List UInt8} {name : String} (hfit : Fit ObjectScript.fields numbers)
    (hevents : events.length = (numbers.getLastD 0 - 19).toNat) :
    ∀ p ∈ ObjectScript.fields.zip (ObjectScript.numbers { ObjectScript.ofNumbers numbers with events, script, name }),
      p.1.least ≤ p.2 ∧ p.2 ≤ p.1.greatest := by
  simp only [Fit, ObjectScript.fields, forall₂_cons_left_iff, forall₂_nil_left_iff] at hfit
  obtain ⟨id, _, hid, ⟨unknown, _, hunknown, ⟨x, _, hx, ⟨y, _, hy, ⟨width, _, hwidth, ⟨parent, _, hparent, ⟨walkX, _, hwalkX, ⟨walkY, _, hwalkY,
    ⟨height, _, hheight, ⟨last, _, hlast, rfl, rfl⟩, rfl⟩, rfl⟩, rfl⟩, rfl⟩, rfl⟩, rfl⟩, rfl⟩, rfl⟩, rfl⟩ := hfit
  simp only [Field.least, Field.greatest] at *
  have hstored : (ObjectScript.storedEvents { ObjectScript.ofNumbers [id, unknown, x, y, width, parent, walkX, walkY, height, last] with events, script, name }).length
      ≤ 236 := by
    rw [ObjectScript.storedEvents]
    split
    · exact Nat.le_of_ble_eq_true rfl
    · change events.length ≤ 236
      simp at hevents
      omega
  simp only [ObjectScript.numbers, ObjectScript.fields, zip_cons_cons, zip_nil_left, forall_mem_cons, not_mem_nil, false_imp_iff, implies_true, and_true,
    ObjectScript.eventsAt, ObjectScript.ofNumbers] at hstored ⊢
  omega

theorem exists_of_readCode {b : Block} {room : Int} (hold : s.format.isOld = true) (h : Does (Job.readLeaf .code room) s b t)
    (hname : b.name = "OC") : ∃ stated o, b = .leaf ⟨"OC", stated⟩ (.code o)
      ∧ (∃ record, packFields (ObjectScript.fields.zip o.numbers) = .ok record)
      ∧ o.size = max stated (ObjectScript.eventsAt + o.events.length + o.name.length + 1) := by
  obtain ⟨_, _, hformat, h⟩ := h.exists_of_bind
  cases hformat
  obtain ⟨_, _, htell, h⟩ := h.exists_of_bind
  cases htell
  obtain ⟨⟨_, stated⟩, _, hlabel, h⟩ := h.exists_of_bind
  obtain ⟨o, _, hscript, h⟩ := h.exists_of_bind
  cases h
  obtain rfl : _ = "OC" := hname
  obtain rfl := Job.eq_of_readLabel hold hlabel rfl
  obtain ⟨numbers, _, hrecord, h⟩ := hscript.exists_of_bind
  obtain ⟨hfit, rfl⟩ := Job.eq_of_record hrecord
  obtain ⟨_, _, htell, h⟩ := h.exists_of_bind
  cases htell
  obtain ⟨events, _, htake, h⟩ := h.exists_of_bind
  obtain ⟨hevents, rfl⟩ := Job.eq_of_takeAll htake
  obtain ⟨name, _, htake, h⟩ := h.exists_of_bind
  obtain rfl := Job.eq_of_takeTerminated htake
  obtain ⟨script, _, hrest, h⟩ := h.exists_of_bind
  cases h
  obtain ⟨_, _, htell, h⟩ := hrest.exists_of_bind
  cases htell
  obtain ⟨hscript, -⟩ := Job.eq_of_takeAll h
  have hwidth : widthOf ObjectScript.fields = 13 := rfl
  simp only [State.past, State.on] at hevents hscript
  refine ⟨stated, _, rfl, exists_packFields (fit_numbers hfit (by omega)), ?_⟩
  have hname : (Text.ofBytes name).length = name.length := by rw [Text.ofBytes, String.length_ofList, length_map]
  simp only [ObjectScript.size, ObjectScript.eventsAt]
  omega

/-- The code of an object takes the bytes that its head says, and one more if its table of events is empty: both where it is loaded from
files, and where it is read from a game file, with the size that it had there. -/
theorem size_of_code (path : String) {room : Int} {s t : State} {b : Block} :
    (Does (Job.loadObjectScript path) s b t → ∃ o, b = .leaf ⟨"OC", o.size⟩ (.code o) ∧ b.Takes o.size (o.size + o.surplus))
    ∧ (s.format.isOld = true → Does (Job.readLeaf .code room) s b t → b.name = "OC" →
      ∃ stated o, b = .leaf ⟨"OC", stated⟩ (.code o)
        ∧ b.Takes stated (max stated (ObjectScript.eventsAt + o.events.length + o.name.length + 1) + o.surplus)
        ∧ ∀ {u : State} (room : Int), u.format.isOld = true → u.AtEnd → ∃ v, Does (b.write room) u () v) := by
  constructor
  · intro h
    suffices hcode : ∃ o, b = .leaf ⟨"OC", o.size⟩ (.code o) by
      obtain ⟨o, rfl⟩ := hcode
      exact ⟨o, rfl, Block.takes_code o.size o⟩
    iterate 5 obtain ⟨_, _, -, h⟩ := h.exists_of_bind
    split at h
    · cases h
    iterate 4 obtain ⟨_, _, -, h⟩ := h.exists_of_bind
    cases h
    exact ⟨_, rfl⟩
  · intro hold h hname
    obtain ⟨stated, o, rfl, ⟨record, hrecord⟩, hsize⟩ := exists_of_readCode hold h hname
    refine ⟨stated, o, rfl, hsize ▸ Block.takes_code stated o, fun room hold hend => ⟨_, Block.does_write_code hold hend hrecord⟩⟩

/-- The code of an object without events. -/
def eventless : State := { (default : State) with
  format := .four, resource := .start (le 4 23 ++ Text.toBytes "OC" ++ [1, 0, 0, 1, 2, 3, 4, 5, 0, 6, 0, 8, 19] ++ [97, 0] ++ [7, 7]) }

theorem size_of_code_eventless : ∃ b t, Does (Job.readLeaf .code 1) eventless b t ∧ b.Takes 23 24 := by
  have hread : Does (Job.readLeaf .code 1) eventless (.leaf ⟨"OC", 23⟩ (.code ⟨1, 0, 1, 2, 0, 3, 4, 5, 6, 8, 0, [], "a", [7, 7]⟩))
      (eventless.past 23) := rfl
  obtain ⟨stated, o, hb, htakes, -⟩ := (size_of_code "").2 rfl hread rfl
  cases hb
  exact ⟨_, _, hread, htakes⟩

end ScummKit.Pack
