import ScummKit.Pack.Read
import ScummKit.Pack.Write
import ScummKit.Proofs.Words

/-!
# Runs of jobs

`Does x s a t` says that the job `x` succeeds from the state `s`, gives `a` and leaves the state `t`.
What a job does is put together from what its steps do. Reading is said in terms of the bytes ahead of
the position, writing in terms of the bytes that are added at the end of the file.
-/

namespace ScummKit.Pack

open List
variable (w : Nat) (n : Int)

/-! ### Numbers in bytes -/

section Numbers

@[simp] theorem length_le : (le w n).length = w := by rw [le, length_map, Word.length_toLE]

@[simp] theorem length_be : (be w n).length = w := by rw [be, length_reverse, length_le]

theorem ofLE_le : (ofLE (le w n) : Int) = n % (Nat.pow 256 w : Nat) := by
  induction w generalizing n with
  | zero => exact (Int.emod_one n).symm
  | succ w ih =>
    have hdigit : (UInt8.ofNat (n % 256).toNat).toNat = n % 256 := by
      rw [UInt8.toNat_ofNat']
      omega
    have hstep : ofLE (le (w + 1) n) = (UInt8.ofNat (n % 256).toNat).toNat + 256 * ofLE (le w (n / 256)) := rfl
    rw [Word.emod_pow_succ, ← ih]
    omega

theorem le_congr {w : Nat} {m n : Int} (h : m % (Nat.pow 256 w : Nat) = n % (Nat.pow 256 w : Nat)) : le w m = le w n := by
  have hbytes (v : Int) : Word.toLE w (v % Nat.pow 256 w) = Word.toLE w v := by
    simpa [Word.ofLE_toLE] using Word.toLE_ofLE (Word.areBytes_toLE w v)
  rw [le, ← hbytes, h, hbytes, le]

theorem ofLE_of_lt {n : Int} (h0 : 0 ≤ n) (h : n < (Nat.pow 256 w : Nat)) : (ofLE (le w n) : Int) = n :=
  (ofLE_le w n).trans (Int.emod_eq_of_lt h0 h)

theorem ofBE_be : ofBE (be w n) = ofLE (le w n) := by rw [ofBE, be, reverse_reverse]

end Numbers

/-! ### Steps -/

/-- From the state `s` a job succeeds, gives `a` and leaves the state `t`. -/
def Does (x : Job α) (s : State) (a : α) (t : State) : Prop := x.run.run s = (.ok a, t)

namespace Does

variable {x : Job α} {s t u : State} {a : α} {b : β} {f : α → Job β}

theorem run_bind (hx : Does x s a t) (f : α → Job β) : (x >>= f).run.run s = (f a).run.run t := by
  rw [ExceptT.run_bind, StateT.run_bind, hx]
  rfl

theorem bind (hx : Does x s a t) (hf : Does (f a) t b u) : Does (x >>= f) s b u := (hx.run_bind f).trans hf

theorem exists_of_bind (h : Does (x >>= f) s b u) : ∃ a t, Does x s a t ∧ Does (f a) t b u := by
  rw [Does, ExceptT.run_bind, StateT.run_bind] at h
  rcases hx : x.run.run s with ⟨_ | a, t⟩
  · rw [hx] at h
    cases h
  · rw [hx] at h
    exact ⟨a, t, hx, h⟩

theorem map {f : α → β} (hx : Does x s a t) : Does (do return f (← x)) s (f a) t := hx.bind rfl

end Does

def State.on (s : State) (r : Resource) : State := { s with resource := r }

def State.ahead (s : State) : List UInt8 := s.resource.rest

def State.past (s : State) (n : Nat) : State := s.on ⟨s.resource.data, s.resource.pos + n⟩

def State.AtEnd (s : State) : Prop := s.resource.pos = s.resource.data.length

def State.add (s : State) (bytes : List UInt8) : State :=
  s.on ⟨s.resource.data ++ bytes, (s.resource.data ++ bytes).length⟩

def State.filed (s : State) (tables : Tables Int) : State := { s with tables }

section States

variable {s : State} {a b : List UInt8} {m n : Nat}

theorem State.past_past : (s.past m).past n = s.past (m + n) := by
  rw [State.past, State.past, State.past]
  simp only [State.on, Nat.add_assoc]

theorem State.ahead_past : (s.past n).ahead = s.ahead.drop n := by
  rw [State.ahead, State.ahead, Resource.rest, Resource.rest, drop_drop]
  rfl

theorem State.ahead_past_append (h : s.ahead = a ++ b) (ha : a.length = n) : (s.past n).ahead = b := by
  rw [State.ahead_past, h, ← ha, drop_left]

theorem State.atEnd_add : (s.add a).AtEnd := rfl

theorem State.add_add : (s.add a).add b = s.add (a ++ b) := by simp only [State.add, State.on, append_assoc]

end States

/-! ### Reading -/

namespace Job

variable {s : State} {a b : List UInt8}

theorem does_tell (s : State) : Does tell s (s.resource.pos : Int) s := rfl

theorem does_format (s : State) : Does format s s.format s := rfl

theorem does_get (s : State) : Does get s s s := rfl

theorem does_ofExcept {r : Except Fault α} {x : α} (h : r = .ok x) (s : State) : Does (ofExcept r) s x s := by
  rw [h]
  rfl

theorem does_seek (p : Nat) (s : State) : Does (seek p) s () (s.on ⟨s.resource.data, p⟩) := by
  have hseek : s.resource.seek p = .ok ⟨s.resource.data, p⟩ := by
    rfl
  exact (does_get s).bind ((does_ofExcept hseek s).bind rfl)

theorem does_skip (n : Nat) (s : State) : Does (skip n) s () (s.past n) := by
  exact does_seek _ s

theorem does_skip_back (n : Nat) (s : State) : Does (skip (-n)) (s.past n) () s := by
  refine (does_tell (s.past n)).bind ?_
  have hback : ((s.past n).resource.pos : Int) + -n = s.resource.pos := by
    change ((s.resource.pos + n) : Int) + -n = _
    omega
  rw [hback]
  exact does_seek _ (s.past n)

theorem does_take (h : s.ahead = a ++ b) : Does (take a.length) s a (s.past a.length) := by
  have htake : s.resource.take a.length = (a, ⟨s.resource.data, s.resource.pos + a.length⟩) := by
    have hrest : s.resource.rest = a ++ b := h
    rw [Resource.take, hrest, take_left]
  have hrun : (take a.length).run.run s = (.ok (s.resource.take a.length).1, s.on (s.resource.take a.length).2) := rfl
  rw [Does, hrun, htake]
  rfl

theorem does_takeAll {n : Int} (h : s.ahead = a ++ b) (hn : n.toNat = a.length) : Does (takeAll n) s a (s.past a.length) := by
  unfold takeAll
  rw [hn]
  refine (does_take h).bind ?_
  rw [if_neg (by omega)]
  rfl

theorem does_number (h : s.ahead = a ++ b) : Does (number a.length) s (ofLE a) (s.past a.length) := (does_take h).map

theorem does_number_le {w : Nat} {n : Int} (h : s.ahead = le w n ++ b) (h0 : 0 ≤ n)
    (hn : n < (Nat.pow 256 w : Nat)) : Does (number w) s n (s.past w) := by
  have hnumber := does_number h
  rwa [length_le, ofLE_of_lt w h0 hn] at hnumber

end Job

/-! ### Heads -/

/-- A name of a block that a head can hold. -/
structure Tag (f : Format) (name : String) : Prop where
  length : (Text.toBytes name).length = f.nameLength
  text : Text.ofBytes (Text.toBytes name) = name

instance (f : Format) (name : String) : Decidable (Tag f name) :=
  decidable_of_iff ((Text.toBytes name).length = f.nameLength ∧ Text.ofBytes (Text.toBytes name) = name)
    ⟨fun h => ⟨h.1, h.2⟩, fun h => ⟨h.length, h.text⟩⟩

theorem length_header {f : Format} {name : String} (h : Tag f name) (size : Int) :
    (f.header name size).length = f.headerLength := by
  rw [Format.header, Format.headerLength, ← h.length]
  split <;> simp [Nat.add_comm]

namespace Job

section Heads

variable {s : State} {name : String} {size : Int} {b : List UInt8}

theorem does_readLabel (hname : Tag s.format name) (h0 : 0 ≤ size) (hsize : size < 4294967296)
    (h : s.ahead = s.format.header name size ++ b) : Does readLabel s ⟨name, size⟩ (s.past s.format.headerLength) := by
  have hle : (ofLE (le 4 size)) = size := ofLE_of_lt 4 h0 hsize
  have hlength := hname.length
  rw [Format.header] at h
  rw [Format.headerLength]
  refine (does_format s).bind ?_
  cases hold : s.format.isOld with
  | true =>
    rw [Format.nameLength, hold] at hlength
    rw [hold, if_pos rfl, append_assoc] at h
    have hfirst := does_take h
    have hsecond := does_take (State.ahead_past_append h rfl)
    rw [hlength] at hsecond
    rw [Format.nameLength, hold]
    refine hfirst.bind (hsecond.bind ?_)
    rw [hname.text, hle]
    rfl
  | false =>
    rw [Format.nameLength, hold] at hlength
    rw [hold, if_neg Bool.false_ne_true, append_assoc] at h
    have hfirst := does_take h
    have hsecond := does_take (State.ahead_past_append h rfl)
    rw [hlength] at hfirst hsecond
    rw [Format.nameLength, hold]
    refine hfirst.bind (hsecond.bind ?_)
    rw [hname.text, ofBE_be, hle]
    rfl

end Heads

/-! ### Writing -/

variable {s : State} {a b : List UInt8}

theorem does_emit (h : s.AtEnd) (a : List UInt8) : Does (emit a) s () (s.add a) := by
  obtain ⟨files, log, out, game, format, tables, counters, disk, ⟨data, pos⟩⟩ := s
  obtain rfl : pos = data.length := h
  have hwrite := Resource.write_at_end data a
  change (Except.ok (), _) = (Except.ok (), _)
  simp only [State.add, State.on, ← hwrite]

theorem does_writeLabel (h : s.AtEnd) (label : Label) :
    Does (writeLabel label) s () (s.add (s.format.header label.name label.size)) := (does_format s).bind (does_emit h _)

end Job

/-! ### Tables -/

def Tables.replace (t : Tables Int) (name : String) (rows : List (Key × Int)) : Tables Int :=
  ⟨Table.put name rows t.tables⟩

section Tables

variable {t : Tables Int} {name other : String} {rows rows' : List (Key × Int)} {key : Key} {v : Int}

theorem Tables.rows_replace_self : (t.replace name rows).rows name = .ok rows := by
  rw [Tables.rows, Tables.replace, Table.find?_put, if_pos rfl]

theorem Tables.find?_of_rows (h : t.rows name = .ok rows) : Table.find? name t.tables = some rows := by
  rw [Tables.rows] at h
  cases hfind : Table.find? name t.tables with
  | none => rw [hfind] at h; cases h
  | some found => rw [hfind] at h; cases h; rfl

theorem Tables.replace_rows (h : t.rows name = .ok rows) : t.replace name rows = t := by
  rw [Tables.replace, Table.put_of_find? (Tables.find?_of_rows h)]

theorem Tables.replace_replace : (t.replace name rows).replace name rows' = t.replace name rows' := by
  rw [Tables.replace, Tables.replace, Tables.replace, Table.put_put]

theorem Tables.store_eq (h : t.rows name = .ok rows) : t.store name key v = .ok (t.replace name (Table.put key v rows)) := by
  rw [Tables.store, Tables.find?_of_rows h]
  rfl

end Tables

end ScummKit.Pack
