import Mathlib
import ScummKit.Costume.Animation
import ScummKit.Proofs.Image.MaskStripes
import ScummKit.Proofs.Room.Taking

/-!
# Animations and their records

An animation that names its limbs in ascending order is read from the front of its own record, whatever
follows the record (`takeAnimation_bytes`). The mask at the front of the record has exactly the bits of the
limbs that the animation names, so the reader meets the entries in their order.
-/

namespace ScummKit.Costume

open List

variable {anim : List Subanimation} {limb : Nat}

/-- An entry as it is read from a record: an entry that switches a limb off says nothing else, and the
commands of another do not start at the mark of those. -/
structure Subanimation.Formed (s : Subanimation) : Prop where
  limb : s.limb < 16
  off : s.disabled = true → s.start = 0 ∧ s.length = 0 ∧ s.loop = false
  start : 0 ≤ s.start ∧ s.start < 0xffff
  length : 0 ≤ s.length ∧ s.length < 0x80

structure FormedAnimation (anim : List Subanimation) : Prop where
  formed : ∀ s ∈ anim, s.Formed
  ascending : anim.Pairwise fun a b => a.limb < b.limb

def Subanimation.bytes (s : Subanimation) : List Int :=
  if s.disabled then [0xff, 0xff]
  else Word.toLE 2 s.start ++ [if s.loop then s.length else s.length + 0x80]

def maskOf (anim : List Subanimation) : Nat := anim.foldl (fun mask s => mask ||| 0x8000 >>> s.limb) 0

def animationBytes (anim : List Subanimation) : List Int := Word.toLE 2 (maskOf anim) ++ anim.flatMap Subanimation.bytes

section Entries

variable {s : Subanimation}

theorem Subanimation.Formed.bytes_of (h : s.Formed) : (SubanimationEntry.of s).bytes = .ok (s.bytes.map Json.int) := by
  obtain ⟨limb, disabled, start, length, loop⟩ := s
  have hlength := h.length
  cases disabled with
  | true => rfl
  | false =>
    cases loop with
    | true => rfl
    | false =>
      obtain ⟨n, rfl⟩ := Int.eq_ofNat_of_zero_le hlength.1
      have hor : Bits.or n 0x80 = (n + 128) := Mask.or_top (Int.ofNat_lt.1 hlength.2)
      change Except.ok ((Word.toLE 2 start).map Json.int ++ [.int (Bits.or n 0x80)]) = _
      rw [hor]
      rfl

theorem bit_of (s : Subanimation) : (SubanimationEntry.of s).bit = .ok (0x8000 >>> s.limb) := by
  simp only [SubanimationEntry.bit, SubanimationEntry.of, Json.integer, Bind.bind, Except.bind, pure,
    Except.pure, if_neg (show ¬(s.limb : Int) < 0 by omega), Int.toNat_natCast]

theorem test_seventh {b : Int} (h : 0 ≤ b ∧ b < 256) : Bits.test b 7 = decide (0x80 ≤ b) :=
  decide_eq_decide.2 (by change b / 0x80 % 2 = 1 ↔ _; omega)

/-- The bytes of an entry are read for the limb whose turn it is. -/
theorem Subanimation.exact_take (hlimb : limb < 16) :
    Take.Exact (Subanimation.take limb) (fun s => s.limb = limb ∧ s.Formed) Subanimation.bytes where
  restores s rest hs := by
    obtain ⟨rfl, h⟩ := hs
    obtain ⟨limb, disabled, start, length, loop⟩ := s
    have hoff := h.off
    have hstart := h.start
    have hlength := h.length
    dsimp only at hoff hstart hlength ⊢
    cases disabled with
    | true =>
      obtain ⟨rfl, rfl, rfl⟩ := hoff rfl
      rfl
    | false =>
      have hmark : ¬(start % 256 = 0xff ∧ start / 256 % 256 = 0xff) := by omega
      have hword : Word.ofLE [start % 256, start / 256 % 256] = start := by
        rw [Word.ofLE, Word.ofLE, Word.ofLE]
        omega
      have htail : ∀ last, last % 0x80 = length → (!Bits.test last 7) = loop →
          (Subanimation.take limb).run ([start % 256, start / 256 % 256, last] ++ rest) = .ok (⟨limb, false, start, length, loop⟩, rest) := by
        intro last hlast hloop
        simp only [Subanimation.take, StateT.run, Take.item, Bind.bind, StateT.bind, Except.bind, pure,
          StateT.pure, Except.pure, cons_append, nil_append, if_neg hmark, hword,
          if_neg (show ¬start = 0xffff by omega), hlast, hloop]
      cases loop with
      | true => exact htail length (by omega) (by rw [test_seventh (by omega), decide_eq_false (by omega)]; rfl)
      | false => exact htail (length + 0x80) (by omega) (by rw [test_seventh (by omega), decide_eq_true (by omega)]; rfl)
  takes data s rest hdata hrun := by
    rcases data with _ | ⟨a, _ | ⟨b, more⟩⟩
    · cases hrun
    · cases hrun
    · obtain ⟨hstart, hbytes⟩ := Take.exact_word.takes (a :: b :: more) _ more hdata rfl
      simp only [Subanimation.take, StateT.run, Take.item, Bind.bind, StateT.bind, Except.bind] at hrun
      split at hrun
      · rename_i hmark
        cases hrun
        rw [hmark.1, hmark.2]
        exact ⟨⟨rfl, hlimb, fun _ => ⟨rfl, rfl, rfl⟩, ⟨Int.le_refl 0, Int.ofNat_lt.2 (by decide)⟩, Int.le_refl 0, Int.ofNat_lt.2 (by decide)⟩, rfl⟩
      · split at hrun
        · cases hrun
        · cases more with
          | nil => cases hrun
          | cons last more =>
            have hlast := hdata last (mem_cons_of_mem a (mem_cons_of_mem b mem_cons_self))
            cases hrun
            refine ⟨⟨rfl, hlimb, fun h => absurd h Bool.false_ne_true, by dsimp only; omega, by dsimp only; omega⟩, hbytes.trans ?_⟩
            rw [Subanimation.bytes, test_seventh hlast]
            by_cases htop : 0x80 ≤ last
            · rw [decide_eq_true htop, show last % 0x80 + 0x80 = last by omega]
              rfl
            · rw [decide_eq_false htop, show last % 0x80 = last by omega]
              rfl

end Entries

/-! ### The mask -/

theorem test_natCast (m n : Nat) : Bits.test (m : Int) n = m.testBit n := by
  rw [Nat.testBit_eq_decide_div_mod_eq]
  exact decide_eq_decide.2 (by
    change ((m : Int) / (2 ^ n : Nat) % 2 = 1) ↔ _
    omega)

theorem testBit_limb {limb n : Nat} (hlimb : limb < 16) (hn : n < 16) : (0x8000 >>> limb).testBit n = decide (limb = 15 - n) := by
  have hshift : 0x8000 >>> limb = 2 ^ (15 - limb) := by
    rw [Nat.shiftRight_eq_div_pow, show 0x8000 = 2 ^ 15 from rfl, Nat.pow_div (by omega) (by decide)]
  rw [hshift, Nat.testBit_two_pow]
  exact decide_eq_decide.2 (by omega)

/-- The mask of an animation has the bits of its limbs. -/
theorem test_maskOf (h : ∀ s ∈ anim, s.limb < 16) {n : Nat} (hn : n < 16) : Bits.test (maskOf anim) n = true ↔ 15 - n ∈ anim.map (·.limb) := by
  have hfold : ∀ mask : Nat, (anim.foldl (fun mask s => mask ||| 0x8000 >>> s.limb) mask).testBit n = true
      ↔ mask.testBit n = true ∨ 15 - n ∈ anim.map (·.limb) := by
    induction anim with
    | nil => simp
    | cons s rest ih =>
      intro mask
      rw [foldl_cons, ih fun t ht => h t (mem_cons_of_mem _ ht), Nat.testBit_or, testBit_limb (h s mem_cons_self) hn, Bool.or_eq_true,
        decide_eq_true_eq, map_cons, mem_cons, or_assoc, eq_comm (a := s.limb)]
  rw [test_natCast, maskOf, hfold, Nat.zero_testBit, or_iff_right Bool.false_ne_true]

theorem maskOf_lt (h : ∀ s ∈ anim, s.limb < 16) : maskOf anim < 65536 := by
  have hfold : ∀ mask : Nat, mask < 2 ^ 16 → anim.foldl (fun mask s => mask ||| 0x8000 >>> s.limb) mask < 2 ^ 16 := by
    induction anim with
    | nil => exact fun _ hmask => hmask
    | cons s rest ih =>
      intro mask hmask
      refine ih (fun t ht => h t (mem_cons_of_mem _ ht)) _ (Nat.or_lt_two_pow hmask ?_)
      rw [Nat.shiftRight_eq_div_pow]
      exact Nat.lt_of_le_of_lt (Nat.div_le_self _ _) (by decide)
  exact hfold 0 (by decide)

/-! ### Records -/

theorem FormedAnimation.encode (h : FormedAnimation anim) :
    encodeAnimation (anim.map SubanimationEntry.of) = .ok ((animationBytes anim).map Json.int) := by
  have hpart : ∀ s ∈ anim, (do
        let bit ← (SubanimationEntry.of s).bit
        return (bit, ← (SubanimationEntry.of s).bytes))
      = .ok (0x8000 >>> s.limb, s.bytes.map Json.int) := by
    intro s hs
    rw [(h.formed s hs).bytes_of]
    rfl
  have hparts := mapM_ok hpart
  rw [encodeAnimation, mapM_map]
  change (do
    let parts ← anim.mapM fun s => (do
      let bit ← (SubanimationEntry.of s).bit
      return (bit, ← (SubanimationEntry.of s).bytes))
    _) = _
  rw [hparts]
  simp only [Bind.bind, Except.bind, foldl_map, map_map, animationBytes, map_append, map_flatMap]
  rfl

/-- The limbs of a mask, from the first of the last `n` on. -/
theorem exact_takeLimbs (mask : Int) {i n : Nat} (hi : i + n = 16) : Take.Exact (takeLimbs mask i n)
    (fun anim => anim.map (·.limb) = (range' i n).filter (fun limb => Bits.test mask (15 - limb)) ∧ ∀ s ∈ anim, s.Formed) (flatMap Subanimation.bytes) := by
  induction n generalizing i with
  | zero =>
    refine (Take.exact_pure [] rfl).congr fun anim => ⟨fun h => map_eq_nil_iff.1 h.1, ?_⟩
    rintro rfl
    exact ⟨rfl, nofun⟩
  | succ n ih =>
    have hrest := ih (show i + 1 + n = 16 by omega)
    rw [takeLimbs, range'_succ, filter_cons, show 15 - i = n by omega]
    split
    · refine ((Subanimation.exact_take (by omega)).cons hrest).congr fun anim => ?_
      rw [map_eq_cons_iff]
      constructor
      · rintro ⟨⟨s, more, rfl, hs, hmore⟩, hformed⟩
        rw [forall_mem_cons] at hformed
        exact ⟨s, more, rfl, ⟨hs, hformed.1⟩, hmore, hformed.2⟩
      · rintro ⟨s, more, rfl, hs, hmore, hformed⟩
        exact ⟨⟨s, more, rfl, hs.1, hmore⟩, forall_mem_cons.2 ⟨hs.2, hformed⟩⟩
    · exact hrest

theorem mem_limbs {mask : Int} :
    limb ∈ (range' 0 16).filter (fun limb => Bits.test mask (15 - limb)) ↔ limb < 16 ∧ Bits.test mask (15 - limb) = true := by
  rw [mem_filter, mem_range'_1, and_iff_right (Nat.zero_le limb)]

/-- An animation is read from its mask and the entries of the limbs in it. -/
theorem exact_takeAnimation : Take.Exact takeAnimation FormedAnimation animationBytes := by
  have hread := Take.exact_word.bind (fun anim => maskOf anim) (fun mask _ => exact_takeLimbs mask (show 0 + 16 = 16 from rfl)) ?_
  · refine hread.congr fun anim => ⟨fun h => ?_, fun ⟨_, hlimbs, hformed⟩ => ⟨hformed, ?_⟩⟩
    · have hlimbs : ∀ s ∈ anim, s.limb < 16 := fun s hs => (h.formed s hs).limb
      refine ⟨⟨by omega, Int.ofNat_lt.2 (maskOf_lt hlimbs)⟩, ?_, h.formed⟩
      refine Pairwise.eq_of_mem_iff (pairwise_map.2 h.ascending) (Pairwise.filter _ pairwise_lt_range') fun limb => ?_
      rw [mem_limbs]
      constructor
      · intro hlimb
        obtain ⟨s, hs, rfl⟩ := mem_map.1 hlimb
        have hlt := hlimbs s hs
        exact ⟨hlt, (test_maskOf hlimbs (by omega)).2 (by rwa [show 15 - (15 - s.limb) = s.limb by omega])⟩
      · rintro ⟨hlt, htest⟩
        rwa [test_maskOf hlimbs (by omega), show 15 - (15 - limb) = limb by omega] at htest
    · have hsorted : (anim.map (·.limb)).Pairwise (· < ·) := by
        rw [hlimbs]
        exact Pairwise.filter _ pairwise_lt_range'
      exact pairwise_map.1 hsorted
  · rintro mask anim ⟨hlow, hhigh⟩ ⟨hlimbs, hformed⟩
    obtain ⟨m, rfl⟩ := Int.eq_ofNat_of_zero_le hlow
    have hlt : ∀ s ∈ anim, s.limb < 16 := fun s hs => (hformed s hs).limb
    refine congrArg Nat.cast (Nat.eq_of_testBit_eq fun n => ?_)
    by_cases hn : n < 16
    · rw [← test_natCast, ← test_natCast, Bool.eq_iff_iff, test_maskOf hlt hn, hlimbs, mem_limbs, show 15 - (15 - n) = n by omega,
        and_iff_right (by omega)]
    · have hpow : 2 ^ 16 ≤ 2 ^ n := Nat.pow_le_pow_right (by decide) (by omega)
      rw [Nat.testBit_lt_two_pow (Nat.lt_of_lt_of_le (maskOf_lt hlt) hpow), Nat.testBit_lt_two_pow (by omega)]

theorem FormedAnimation.decode (h : FormedAnimation anim) (rest : List Int) : decodeAnimation (animationBytes anim ++ rest) = .ok anim := by
  rw [decodeAnimation, exact_takeAnimation.restores anim rest h]
  rfl

/-- What is read of an animation is what is written of it, and what is written is read again. -/
theorem animation_exact : (∀ data anim, AreBytes data → decodeAnimation data = .ok anim → ∃ taken rest, data = taken ++ rest
      ∧ takeAnimation.run data = .ok (anim, rest) ∧ encodeAnimation (anim.map SubanimationEntry.of) = .ok (taken.map Json.int))
    ∧ ∀ anim, FormedAnimation anim → ∃ data, encodeAnimation (anim.map SubanimationEntry.of) = .ok (data.map Json.int)
      ∧ decodeAnimation data = .ok anim := by
  refine ⟨fun data anim hdata hanim => ?_, fun anim h => ⟨_, h.encode, ?_⟩⟩
  · obtain ⟨⟨_, rest⟩, hrun, hfirst⟩ := bind_eq_ok.1 hanim
    cases hfirst
    obtain ⟨h, rfl⟩ := exact_takeAnimation.takes data _ rest hdata hrun
    exact ⟨_, rest, rfl, hrun, h.encode⟩
  · have hdecode := h.decode []
    rwa [append_nil] at hdecode

/-- The second limb starts two commands that run once, and the last is switched off. -/
theorem animation_exact_pair : let anim : List Subanimation := [⟨1, false, 5, 2, false⟩, ⟨15, true, 0, 0, false⟩]
    (∃ taken rest, [0x01, 0x40, 5, 0, 0x82, 0xff, 0xff, 9] = taken ++ rest ∧ takeAnimation.run [0x01, 0x40, 5, 0, 0x82, 0xff, 0xff, 9] = .ok (anim, rest)
      ∧ encodeAnimation (anim.map SubanimationEntry.of) = .ok (taken.map Json.int))
    ∧ ∃ data, encodeAnimation (anim.map SubanimationEntry.of) = .ok (data.map Json.int) ∧ decodeAnimation data = .ok anim :=
  ⟨animation_exact.1 _ _ (by rw [AreBytes]; decide) rfl, animation_exact.2 _ ⟨by
    rw [forall_mem_cons, forall_mem_singleton]
    exact ⟨⟨by decide, nofun, by decide, by decide⟩, ⟨by decide, fun _ => ⟨rfl, rfl, rfl⟩, by decide, by decide⟩⟩, by decide⟩⟩

theorem length_animationBytes_pos : 0 < (animationBytes anim).length := by
  rw [animationBytes, length_append, Word.length_toLE]
  omega

end ScummKit.Costume
