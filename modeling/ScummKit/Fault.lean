/-!
# Faults

Every way in which an operation on game data can end without a result.
-/

namespace ScummKit

inductive Fault where
  | outOfRange
  /-- A record has no field of this name, or a table no row under this key. -/
  | missingKey (key : String)
  | wrongKind
  | badValue
  | tooLarge
  /-- Something that is not there was asked for a part of itself. -/
  | absent
  | refused
  | stopped (notice : String)
  | emptyPicture
  | noFile
  | isFolder
  | notFolder
  | alreadyThere
  | folderNotEmpty
  | notText
  | notEncodable
  | badJson
  | badXml
  | notPicture
  | endOfData
  | badLayout
  | device
  | packing (message : String)
  | unlisted (message : String)
  | listing (message : String)
  | noParse
  | outOfBounds
  | compiling (message : String)
  | script (message : String)
  /-- A value is used before anything was stored in it. -/
  | unset
  | unknownKind
  | endless
  deriving Repr, BEq, DecidableEq, Inhabited

theorem bind_eq_ok {ε : Type} {x : Except ε α} {f : α → Except ε β} {b : β} : x >>= f = .ok b ↔ ∃ a, x = .ok a ∧ f a = .ok b := by
  cases x with
  | error e => exact ⟨fun h => (nomatch h), fun ⟨_, h, _⟩ => (nomatch h)⟩
  | ok a => exact ⟨fun h => ⟨a, rfl, h⟩, fun ⟨_, h, hb⟩ => Except.ok.inj h ▸ hb⟩

theorem mapM_cons_eq_ok {ε : Type} {f : α → Except ε β} {x : α} {xs : List α} {ys : List β} :
    (x :: xs).mapM f = .ok ys ↔ ∃ y zs, f x = .ok y ∧ xs.mapM f = .ok zs ∧ ys = y :: zs := by
  simp only [List.mapM_cons, bind_eq_ok]
  exact ⟨fun ⟨y, hy, zs, hzs, h⟩ => ⟨y, zs, hy, hzs, (Except.ok.inj h).symm⟩,
    fun ⟨y, zs, hy, hzs, h⟩ => ⟨y, hy, zs, hzs, congrArg Except.ok h.symm⟩⟩

end ScummKit
