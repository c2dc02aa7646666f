import ScummKit.Proofs.Image.Tables
import ScummKit.Take

/-!
# Readers and what is written for them

A reader is exact for a way of writing its values if it takes from the front of some data what is written for a value, and gives this value (`Exact`). Then it restores whatever is written for it, and what it gives is written as it stood in the data. Exact readers are made of exact readers.
-/

namespace ScummKit.Take

open List

variable {x : Take α} {good : α → Prop} {bytes : α → List Int} {data rest : List Int} {f : α → Take β}

/-- A reader that takes what is written for good values, and nothing else. -/
structure Exact (x : Take α) (good : α → Prop) (bytes : α → List Int) : Prop where
  restores : ∀ a rest, good a → x.run (bytes a ++ rest) = .ok (a, rest)
  takes : ∀ data a rest, AreBytes data → x.run data = .ok (a, rest) → good a ∧ data = bytes a ++ rest

theorem run_bind_eq_ok {b : β} :
    (x >>= f).run data = .ok (b, rest) ↔ ∃ a more, x.run data = .ok (a, more) ∧ (f a).run more = .ok (b, rest) := by
  rw [StateT.run_bind, bind_eq_ok, Prod.exists]

theorem run_pure_eq_ok {a b : α} : (pure a : Take α).run data = .ok (b, rest) ↔ b = a ∧ data = rest := by
  constructor
  · intro h
    cases h
    exact ⟨rfl, rfl⟩
  · rintro ⟨rfl, rfl⟩
    rfl

theorem AreBytes.of_append {a b : List Int} (h : AreBytes (a ++ b)) : AreBytes b := fun n hn => h n (mem_append_right a hn)

theorem Exact.congr {good' : α → Prop} (h : Exact x good bytes) (hgood : ∀ a, good' a ↔ good a) : Exact x good' bytes where
  restores a rest ha := h.restores a rest ((hgood a).1 ha)
  takes data a rest hdata hrun := (h.takes data a rest hdata hrun).imp_left (hgood a).2

/-- A value that is read in two steps has the value of the first as a part. -/
theorem Exact.bind {goods : α → β → Prop} {bytes' : β → List Int} (h : Exact x good bytes) (part : β → α)
    (hf : ∀ a, good a → Exact (f a) (goods a) bytes') (hpart : ∀ a b, good a → goods a b → part b = a) :
    Exact (x >>= f) (fun b => good (part b) ∧ goods (part b) b) (fun b => bytes (part b) ++ bytes' b) where
  restores b rest hb := by
    rw [append_assoc]
    exact run_bind_eq_ok.2 ⟨_, _, h.restores _ _ hb.1, (hf _ hb.1).restores b rest hb.2⟩
  takes data b rest hdata hrun := by
    obtain ⟨a, more, hx, hmore⟩ := run_bind_eq_ok.1 hrun
    obtain ⟨ha, rfl⟩ := h.takes data a more hdata hx
    obtain ⟨hb, rfl⟩ := (hf a ha).takes more b rest (AreBytes.of_append hdata) hmore
    obtain rfl := hpart a b ha hb
    exact ⟨⟨ha, hb⟩, (append_assoc _ _ _).symm⟩

theorem exact_pure (a : α) (ha : bytes a = []) : Exact (pure a) (· = a) bytes where
  restores b rest hb := run_pure_eq_ok.2 ⟨hb, by rw [hb, ha, nil_append]⟩
  takes data b rest _ hrun := by
    obtain ⟨rfl, rfl⟩ := run_pure_eq_ok.1 hrun
    exact ⟨rfl, by rw [ha, nil_append]⟩

theorem exact_word : Exact word (fun w => 0 ≤ w ∧ w < 65536) (Word.toLE 2) where
  restores w rest hw := by
    change Except.ok (Word.ofLE (Word.toLE 2 w), rest) = _
    rw [Word.ofLE_toLE, Int.emod_eq_of_lt hw.1 (show w < Nat.pow 256 2 from hw.2)]
  takes data w rest hdata hrun := by
    match data with
    | [] => cases hrun
    | [_] => cases hrun
    | a :: b :: more =>
      cases hrun
      have ha := hdata a mem_cons_self
      have hb := hdata b (mem_cons_of_mem a mem_cons_self)
      simp only [Word.ofLE, Word.toLE, cons_append, nil_append, cons.injEq, and_true]
      omega

/-- Reading one value after another. -/
theorem Exact.cons {y : Take (List α)} {goods : List α → Prop} (h : Exact x good bytes) (hy : Exact y goods (flatMap bytes)) :
    Exact (do let a ← x; return a :: (← y)) (fun l => ∃ a more, l = a :: more ∧ good a ∧ goods more) (flatMap bytes) where
  restores l rest hl := by
    obtain ⟨a, more, rfl, ha, hmore⟩ := hl
    rw [flatMap_cons, append_assoc]
    exact run_bind_eq_ok.2 ⟨_, _, h.restores a _ ha, run_bind_eq_ok.2 ⟨_, _, hy.restores more rest hmore, rfl⟩⟩
  takes data l rest hdata hrun := by
    obtain ⟨a, mid, hx, hmid⟩ := run_bind_eq_ok.1 hrun
    obtain ⟨more, last, hmore, hlast⟩ := run_bind_eq_ok.1 hmid
    obtain ⟨rfl, rfl⟩ := run_pure_eq_ok.1 hlast
    obtain ⟨ha, rfl⟩ := h.takes data a mid hdata hx
    obtain ⟨hgoods, rfl⟩ := hy.takes mid more last (AreBytes.of_append hdata) hmore
    exact ⟨⟨a, more, rfl, ha, hgoods⟩, by rw [flatMap_cons, append_assoc]⟩

end ScummKit.Take
