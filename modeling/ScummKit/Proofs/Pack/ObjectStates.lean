import ScummKit.Proofs.Pack.Directories

/-!
# Tables of objects

An entry of the table of objects belongs to an object by its place alone. The document that the table is
made from gives each object an id as well, but the ids are only read and never compared
(`object_table_by_place`).
-/

namespace ScummKit.Pack

open List
open Xml (Element)

variable {f : Format} {s : State} {states : List ObjectState} {o : ObjectState} {b : List UInt8}

/-- What an entry of the document gives: the numbers of the object, next to some number as its id. -/
structure ObjectState.InEntry (o : ObjectState) (e : Element) : Prop where
  id : ∃ n, Job.plainNumberIn e "id" = .ok n
  owner : numberIn e "owner" = .ok o.owner
  state : numberIn e "state" = .ok o.state
  classes : numberIn e "class-data" = .ok o.classes

/-- Values that an entry of the table has room for. -/
def ObjectState.Fits (f : Format) (o : ObjectState) : Prop :=
  (0 ≤ o.owner ∧ o.owner < 16) ∧ (0 ≤ o.state ∧ o.state < 16) ∧ 0 ≤ o.classes ∧
  o.classes < (Nat.pow 256 (classWidth f) : Nat)

def State.logged (s : State) (level : Tool.Level) (text : String) : State := { s with log := s.log ++ [(level, text)] }

/-- A block that is found again as it is stored: a head in front of its bytes says how many there are with
the head, and wherever they stand, the block is read from them. -/
def IndexBlock.Restored (f : Format) (block : IndexBlock) (body : List UInt8) : Prop :=
  ∀ s : State, s.format = f →
  (s.AtEnd → Does (Job.writeIndexBlock block) s () ((s.logged .debug ("Saving index: " ++ block.name)).add
    (f.header block.name (f.headerLength + body.length) ++ body))) ∧
  ∀ after, s.ahead = f.header block.name (f.headerLength + body.length) ++ (body ++ after) →
    Does Job.readIndexBlock s block (s.past (f.headerLength + body.length))

theorem mapM_eq_ok_iff {ε : Type} {f : α → Except ε β} {xs : List α} {ys : List β} :
    xs.mapM f = .ok ys ↔ Forall₂ (fun x y => f x = .ok y) xs ys := by
  induction xs generalizing ys with
  | nil => exact ⟨fun h => Except.ok.inj h ▸ .nil, fun h => by cases h; rfl⟩
  | cons x xs ih => simp only [mapM_cons_eq_ok, ih, forall₂_cons_left_iff]

namespace Job

/-! ### The document -/

theorem objectStatesIn_iff {root : Element} : objectStatesIn root = .ok states ↔
    Forall₂ (fun e o => o.InEntry e) (root.all "object-entry") states := by
  rw [objectStatesIn, mapM_eq_ok_iff]
  refine iff_of_eq (congrArg (Forall₂ · _ _) (funext fun e => funext fun o => propext ?_))
  simp only [bind_eq_ok]
  constructor
  · rintro ⟨n, hn, owner, howner, state, hstate, classes, hclasses, h⟩
    cases h
    exact ⟨⟨n, hn⟩, howner, hstate, hclasses⟩
  · rintro ⟨⟨n, hn⟩, howner, hstate, hclasses⟩
    exact ⟨n, hn, _, howner, _, hstate, _, hclasses, rfl⟩

/-! ### The table -/

def stateBytes (f : Format) (states : List ObjectState) : List UInt8 :=
  if f.isOld then states.flatMap fun o => le (classWidth f) o.classes ++ le 1 (joinOwner o)
  else states.flatMap (fun o => le 1 (joinOwner o)) ++ states.flatMap fun o => le (classWidth f) o.classes

theorem length_stateBytes : (stateBytes f states).length = (1 + classWidth f) * states.length := by
  rw [stateBytes]
  split <;> simp [Nat.mul_add, Nat.add_comm, Nat.mul_comm (1 + _)]

theorem splitOwner_joinOwner (ho : o.Fits f) : splitOwner (joinOwner o) = (o.owner, o.state) := by
  obtain ⟨howner, hstate, -⟩ := ho
  rw [splitOwner, joinOwner, Prod.mk.injEq]
  omega

theorem does_owner (h : s.ahead = le 1 (joinOwner o) ++ b) : Does (number 1) s (joinOwner o) (s.past 1) :=
  does_number_le h (by rw [joinOwner]; omega) (by rw [joinOwner]; change _ < 256; omega)

theorem does_classes (ho : o.Fits f) (h : s.ahead = le (classWidth f) o.classes ++ b) :
    Does (number (classWidth f)) s o.classes (s.past (classWidth f)) := does_number_le h ho.2.2.1 ho.2.2.2

theorem does_readObjectStates (hfits : ∀ o ∈ states, o.Fits f) (hcount : states.length < 65536)
    (h : s.ahead = le 2 states.length ++ (stateBytes f states ++ b)) :
    Does (readObjectStates f) s states (s.past (2 + (stateBytes f states).length)) := by
  have hahead : (s.past 2).ahead = stateBytes f states ++ b := State.ahead_past_append h (length_le _ _)
  refine (does_number_le h (by omega) (show (states.length : Int) < 65536 by omega)).bind ?_
  rw [← State.past_past]
  rw [stateBytes] at hahead ⊢
  split at hahead
  · rename_i hold
    rw [if_pos hold, if_pos hold]
    nth_rewrite 2 [← map_id' states]
    refine does_times _ _ (fun o ho t c ht => ?_) hahead
    rw [append_assoc] at ht
    rw [length_append, length_le]
    refine (does_classes (hfits o ho) ht).bind ((does_owner (State.ahead_past_append ht (length_le _ _))).bind ?_)
    rw [splitOwner_joinOwner (hfits o ho)]
    rfl
  · rename_i hnew
    rw [append_assoc] at hahead
    have howners := does_times (do return splitOwner (← number 1)) (fun o : ObjectState => (o.owner, o.state))
      (fun o ho t c ht => by
        rw [← splitOwner_joinOwner (hfits o ho)]
        exact (does_owner ht).map) hahead
    have hclasses := does_times (number (classWidth f)) ObjectState.classes (fun o ho t c ht => by
      rw [length_le]
      exact does_classes (hfits o ho) ht) (State.ahead_past_append hahead rfl)
    rw [if_neg hnew, if_neg hnew, length_append, ← State.past_past]
    refine howners.bind (hclasses.bind ?_)
    rw [zip_map', map_map]
    exact congrArg (fun states => (Except.ok states, _)) (map_id states)

theorem restored_objects {name : String} (hname : name = if f.isOld then "0O" else "DOBJ") (hfits : ∀ o ∈ states, o.Fits f)
    (hcount : states.length < 65536) :
    (IndexBlock.objects name states).Restored f (le 2 states.length ++ stateBytes f states) := by
  have hlisted : name ∈ indexNames f ∧ ¬(name = "0R" ∨ name = "DROO") := by
    subst hname
    cases f <;> decide
  have hbody (start : Int) : readIndexBody f name start = (do
      let _ ← readLabel
      return .objects name (← readObjectStates f)) := by
    subst hname
    cases f <;> rfl
  have hlength : (f.headerLength + (le 2 states.length ++ stateBytes f states).length : Int)
      = (1 + classWidth f) * states.length + 2 + f.headerLength := by
    rw [length_append, length_le, length_stateBytes]
    push_cast
    omega
  rintro s rfl
  rw [hlength]
  refine ⟨fun hend => (does_format s).bind (Does.bind rfl ?_), fun after h => ?_⟩
  · rw [← State.add_add, ← State.add_add]
    refine (does_writeLabel (s := s.logged _ _) hend _).bind ((does_emit State.atEnd_add _).bind ?_)
    rw [stateBytes]
    split
    · exact does_emit State.atEnd_add _
    · rw [← State.add_add]
      exact (does_emit State.atEnd_add _).bind (does_emit State.atEnd_add _)
  · have hsize : ((1 + classWidth s.format) * states.length + 2 + s.format.headerLength : Int) < 4294967296 := by
      rw [Format.headerLength, Format.nameLength, classWidth]
      split <;> omega
    have htag := tag_of_mem hlisted.1
    have hlabel := does_readLabel htag (by omega) hsize h
    have hstates := does_readObjectStates hfits hcount
      ((State.ahead_past_append h (length_header htag _)).trans (append_assoc _ _ _))
    rw [State.past_past] at hstates
    refine does_readIndexBlock hlisted.1 hlisted.2 h ?_
    rw [hbody, length_append]
    exact hlabel.bind hstates.map

/-- A document is read if and only if each of its entries has its four numbers, whatever the ids are, and
the entries keep their order in the table: an object is found again at the place of its entry. -/
theorem object_table_by_place (f : Format) (root : Element) (states : List ObjectState) :
    (objectStatesIn root = .ok states ↔ Forall₂ (fun e o => o.InEntry e) (root.all "object-entry") states) ∧
    (states.length < 65536 → (∀ o ∈ states, o.Fits f) →
    (IndexBlock.objects (if f.isOld then "0O" else "DOBJ") states).Restored f (le 2 states.length ++ stateBytes f states)) :=
  ⟨objectStatesIn_iff, fun hcount hfits => restored_objects rfl hfits hcount⟩

/-- A document without an object 2. -/
def gapped : Element := .node "object-directory" [
  .node "object-entry" [decimalChild "id" 1, decimalChild "owner" 0, decimalChild "state" 0, hexChild "class-data" 0],
  .node "object-entry" [decimalChild "id" 3, decimalChild "owner" 15, decimalChild "state" 1, hexChild "class-data" 8388609]]

/-- Object 3 is stored as the second object. -/
theorem object_table_gapped : objectStatesIn gapped = .ok [⟨0, 0, 0⟩, ⟨15, 1, 8388609⟩] ∧
    (IndexBlock.objects "0O" [⟨0, 0, 0⟩, ⟨15, 1, 8388609⟩]).Restored .four [2, 0, 0, 0, 0, 0, 1, 0, 128, 241] :=
  ⟨rfl, (object_table_by_place .four gapped _).2 (by decide) (by unfold ObjectState.Fits; decide)⟩

end Job

end ScummKit.Pack
