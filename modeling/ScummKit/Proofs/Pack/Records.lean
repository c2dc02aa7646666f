import Mathlib.Data.List.Forall2
import ScummKit.Proofs.Pack.Runs

/-!
# Records

A record is a run of numbers in fields of one or two bytes. Numbers that fit their fields are read back
from the bytes of the record (`does_record`), and behind a record the rest of a block is taken as it
stands (`does_readRest`).
-/

namespace ScummKit.Pack

def Fit (fields : List Field) (numbers : List Int) : Prop :=
  List.Forall₂ (fun f n => f.least ≤ n ∧ n ≤ f.greatest) fields numbers

def recordCode : List Field → List Int → List UInt8
  | f :: fields, n :: numbers => le f.width n ++ recordCode fields numbers
  | _, _ => []

section Records

variable {fields : List Field} {numbers : List Int} {b : List UInt8}

theorem Field.unpack_le {f : Field} {n : Int} (h : f.least ≤ n ∧ n ≤ f.greatest) : f.unpack (le f.width n) = n := by
  have hvalue := ofLE_le f.width n
  have hone : Nat.pow 256 1 = 256 := rfl
  have htwo : Nat.pow 256 2 = 65536 := rfl
  rw [Field.unpack]
  cases f with
  | byte =>
    simp only [Field.least, Field.greatest, Field.width, hone] at h hvalue ⊢
    rw [hvalue] <;> omega
  | word =>
    simp only [Field.least, Field.greatest, Field.width, htwo] at h hvalue ⊢
    rw [hvalue] <;> omega
  | signed =>
    simp only [Field.least, Field.greatest, Field.width, htwo] at h hvalue ⊢
    split <;> omega

theorem length_recordCode (h : Fit fields numbers) : (recordCode fields numbers).length = widthOf fields := by
  induction h with
  | nil => rfl
  | cons _ _ ih =>
    rw [recordCode, List.length_append, length_le, ih]
    rfl

theorem unpackFields_recordCode (h : Fit fields numbers) : unpackFields fields (recordCode fields numbers) = .ok numbers := by
  induction h with
  | nil => rfl
  | @cons f n fields numbers hfirst _ ih =>
    have hlength : ¬(recordCode (f :: fields) (n :: numbers)).length < f.width := by
      rw [recordCode, List.length_append, length_le]
      omega
    have htake : (le f.width n ++ recordCode fields numbers).take f.width = le f.width n :=
      List.take_left' (length_le _ _)
    have hdrop : (le f.width n ++ recordCode fields numbers).drop f.width = recordCode fields numbers :=
      List.drop_left' (length_le _ _)
    rw [unpackFields, if_neg hlength, recordCode, htake, hdrop, ih, Field.unpack_le hfirst]
    rfl

theorem Job.does_record {s : State} (hfit : Fit fields numbers) (h : s.ahead = recordCode fields numbers ++ b) :
    Does (record fields) s numbers (s.past (widthOf fields)) := by
  have htake := does_take h
  rw [length_recordCode hfit] at htake
  exact htake.bind (does_ofExcept (unpackFields_recordCode hfit) _)

theorem Job.does_readRest {s : State} {k : Nat} (label : Label) {data : List UInt8}
    (h : (s.past k).ahead = data ++ b) (hdata : data.length = (label.size - k).toNat) :
    Does (readRest s.resource.pos label) (s.past k) data (s.past (k + data.length)) := by
  have hsize : label.size - (((s.past k).resource.pos) - s.resource.pos) = label.size - k := by
    change label.size - ((s.resource.pos + k) - s.resource.pos) = _
    omega
  apply (does_tell _).bind
  rw [hsize, ← State.past_past]
  exact does_takeAll h hdata.symm

end Records

end ScummKit.Pack
