import ScummKit.Proofs.Costume.Layout

/-!
# Reading the parts of costumes

The parts of a costume are found by offsets alone. Animations may be read beyond their ends; a limb ends where
the next larger offset is, which for the last limb is the end of all limbs, known from an empty slot or from the
first picture; pictures end at the next picture or with the data. So the reader numbers animations
(`Written.decodeAnims_eq`), limbs (`Written.decodeLimbs_eq`) and pictures (`Written.decodePicts_eq`) as they
were numbered before.
-/

namespace ScummKit.Costume

open List

section Reading

variable {c : Costume} {version : String} {given : Palette} {entries : List Int} {picts : List (List Int)}
variable {map data ordered : List Int} {k : Nat} {limbs : List (List Int)} (h : c.Written version given entries picts)
  {offset base : Int}

/-! ### Animations -/

def animStart (c : Costume) (version : String) (k : Nat) : Int :=
  partStart (c.animsAt version) (c.animBytes.map List.length) k

def animTable (c : Costume) (version : String) : List Int :=
  c.animMap.map (offsetOf (c.animBytes.map List.length) (c.animsAt version) (bases version).1)

theorem length_animBytes (c : Costume) : (c.animBytes.map List.length).length = c.anims.length := by
  rw [length_map, animBytes, length_map]

theorem animBytes_pos : ∀ n ∈ c.animBytes.map List.length, 0 < n := by
  intro n hn
  obtain ⟨bytes, hbytes, rfl⟩ := mem_map.1 hn
  obtain ⟨anim, -, rfl⟩ := mem_map.1 hbytes
  exact length_animationBytes_pos

theorem Shaped.animNumbers (h : c.Shaped) : Covers c.animMap (c.animBytes.map List.length).length := by
  rw [length_animBytes]
  exact covers_of_numberedTo h.animMap

theorem animStart_le_commandsAt (c : Costume) (version : String) (k : Nat) : c.animStart version k ≤ c.commandsAt version := by
  rw [commandsAt, length_flatten]
  exact partStart_le_end _ _ k

include h

theorem Written.decode_anim {anim : List Subanimation} (hanim : c.anims[k]? = some anim) {stop : Int}
    (hstop : c.animStart version (k + 1) ≤ stop) :
    decodeAnimation (Position.cut (c.bytes version entries picts) (c.animStart version k) stop) = .ok anim := by
  have hdata : c.bytes version entries picts = c.front version entries picts ++ (c.animBytes.flatten
      ++ (c.commands ++ ((c.limbBytes version picts).flatten ++ picts.flatten))) := by
    rw [bytes, append_assoc, append_assoc, append_assoc]
  have hbytes : c.animBytes[k]? = some (animationBytes anim) := by
    rw [animBytes, getElem?_map, hanim, Option.map_some]
  rw [animStart, ← h.length_front] at hstop ⊢
  obtain ⟨rest, hcut, -⟩ := cut_part _ _ hbytes hstop
  rw [hdata, hcut]
  exact (h.shaped.anims anim (mem_of_getElem? hanim)).decode rest

theorem Written.le_animEnd (hk : k < c.anims.length) (i : Nat) :
    c.animStart version (k + 1) ≤ if (i : Int) = c.settings.animCount - 1 then c.commandsAt version else
    nextOffset (c.animStart version k) (c.bytes version entries picts).length (orderedOffsets (c.animTable version)) := by
  have hend := animStart_le_commandsAt c version (k + 1)
  split
  · exact hend
  have hbounds := h.bounds
  have hbase := h.base_bounds.1
  have hk' : k < (c.animBytes.map List.length).length := (length_animBytes c).symm ▸ hk
  by_cases hlast : k + 1 < (c.animBytes.map List.length).length
  · exact Int.le_of_eq (by rw [animStart, animStart, animTable,
      nextOffset_part h.shaped.animNumbers animBytes_pos hbounds.1 (Or.inl hbase.2) hk' (Or.inl hlast)])
  · have hlength := h.length_bytes
    have hlow := le_partStart (c.animsAt version) (c.animBytes.map List.length) k
    rw [animStart] at hend ⊢
    rw [animStart, animTable, nextOffset_end _ h.shaped.animNumbers (partStart_mem_offsets _ _ h.shaped.animNumbers hk')
      (by omega) (fun _ => by omega) fun j hj => partStart_le _ _ (by omega)]
    omega

theorem Written.decodeAnims_eq : ∃ f, decodeAnims (c.bytes version entries picts) (c.animTable version) c.settings.animCount
    (c.commandsAt version) = .ok f ∧ f.map = c.animMap ∧ f.parts = c.anims := by
  have hslots : numberedTo 0 (c.animMap.zipIdx.map Prod.fst) = some c.anims.length := by
    rw [zipIdx_map_fst]
    exact h.shaped.animMap
  obtain ⟨f, hf, hknows, hmap⟩ : ∃ f, decodeAnims (c.bytes version entries picts) (c.animTable version) c.settings.animCount
      (c.commandsAt version) = .ok f ∧ f.Knows (· = ·) (c.animStart version) c.anims c.anims.length ∧
      f.map = [] ++ c.animMap.zipIdx.map Prod.fst := by
    rw [decodeAnims, animTable, zipIdx_map, foldlM_map]
    refine foldlM_numbered (P := fun m f => Found.Knows f (· = ·) (c.animStart version) c.anims m) (fun x _ f m m' hx hm hf => ?_)
      knows_start hslots
    refine hf.slot (length_animBytes c) animBytes_pos h.bounds.1 h.base_bounds.1.2 hx hm fun k anim hk hanim => ⟨anim, ?_, rfl⟩
    rw [hk]
    exact h.decode_anim hanim (h.le_animEnd (List.getElem?_eq_some_iff.1 hanim).1 x.2)
  refine ⟨f, ?_, ?_, ?_⟩
  · exact hf
  · rw [hmap, zipIdx_map_fst]
    rfl
  · have hmet := hknows.met
    rwa [take_length, forall₂_eq_eq_eq] at hmet

omit h

/-! ### Limbs -/

def limbStart (c : Costume) (version : String) (k : Nat) : Int := partStart (c.limbsAt version) c.limbLengths k

/-- The offsets of the limb slots as they are read. Slots without a limb point to where the limbs end. -/
def limbTable (c : Costume) (version : String) : List Int :=
  c.limbMap.map (offsetOf c.limbLengths (c.limbsAt version) (c.pictsAt version))

def pictTable (c : Costume) (version : String) (picts : List (List Int)) (map : List Int) : List Int :=
  map.map (offsetOf (picts.map List.length) (c.pictsAt version) (bases version).1)

def pictTables (c : Costume) (version : String) (picts : List (List Int)) : List (List Int) :=
  c.limbs.map (c.pictTable version picts)

theorem length_limbLengths (c : Costume) : c.limbLengths.length = c.limbs.length := length_map _

theorem length_pictTables : (c.pictTables version picts).length = c.limbs.length := length_map _

theorem limbStart_length (c : Costume) (version : String) : c.limbStart version c.limbs.length = c.pictsAt version := by
  rw [limbStart, ← length_limbLengths, partStart_length, pictsAt]

theorem Shaped.limbLengths_pos (h : c.Shaped) : ∀ n ∈ c.limbLengths, 0 < n := by
  intro n hn
  obtain ⟨map, hmap, rfl⟩ := mem_map.1 hn
  have := length_pos_iff.2 (h.limbs map hmap)
  omega

theorem Shaped.limbNumbers (h : c.Shaped) : Covers c.limbMap c.limbLengths.length := by
  rw [length_limbLengths]
  exact covers_of_numberedTo h.limbMap

include h

theorem Written.limbStart_lt (hk : k < c.limbs.length) : c.limbStart version k < c.pictsAt version := by
  rw [← limbStart_length]
  exact partStart_lt _ h.shaped.limbLengths_pos hk ((length_limbLengths c).symm ▸ hk)

theorem Written.length_picts : picts.length = c.picts.length := h.drawn.length_eq.symm

theorem Written.picts_long : ∀ n ∈ picts.map List.length, 1 < n := by
  intro n hn
  obtain ⟨bytes, hbytes, rfl⟩ := mem_map.1 hn
  obtain ⟨i, hi, rfl⟩ := mem_iff_getElem.1 hbytes
  exact (h.drawn.get (h.drawn.length_eq.symm ▸ hi) hi).1

theorem Written.picts_pos : ∀ n ∈ picts.map List.length, 0 < n := fun n hn => Nat.lt_of_succ_lt (h.picts_long n hn)

theorem Written.decode_limb (hmap : c.limbs[k]? = some map) :
    ∃ limb, Position.cut (c.bytes version entries picts) (c.limbStart version k) (c.limbStart version (k + 1)) = limb ∧
    limb.isEmpty = false ∧
    decodeOffsets limb ((limb.length / 2 : Nat) : Int) (bases version).1 = .ok (c.pictTable version picts map) := by
  have hbounds := h.bounds
  have hbase := h.base_bounds.1
  have hdata : c.bytes version entries picts = (c.front version entries picts ++ c.animBytes.flatten ++ c.commands)
      ++ ((c.limbBytes version picts).flatten ++ picts.flatten) := by
    rw [bytes, append_assoc]
  have hbytes : (c.limbBytes version picts)[k]? = some (tableBytes (picts.map List.length) (c.pictsAt version)
      (bases version).1 0 map) := by
    rw [limbBytes, getElem?_map, hmap, Option.map_some]
  have hplace : ∀ j, c.limbStart version j
      = partStart (c.front version entries picts ++ c.animBytes.flatten ++ c.commands).length
        ((c.limbBytes version picts).map List.length) j := by
    intro j
    rw [h.length_before_limbs, length_limbBytes]
    rfl
  refine ⟨_, rfl, ?_⟩
  rw [hplace, hplace]
  obtain ⟨rest, hcut, hrest⟩ := cut_part _ _ hbytes (Int.le_refl _)
  rw [hdata, hcut, hrest rfl, append_nil, length_tableBytes, Nat.mul_div_cancel_left _ (by decide)]
  refine ⟨?_, ?_⟩
  · rw [isEmpty_eq_false_iff, ← length_pos_iff, length_tableBytes]
    have := length_pos_iff.2 (h.shaped.limbs map (mem_of_getElem? hmap))
    omega
  · have hsum : (picts.map List.length).sum = picts.flatten.length := length_flatten.symm
    have hdecode := decodeOffsets_tableBytes map (by omega)
      (show c.pictsAt version + ((picts.map List.length).sum) < 65536 + (bases version).1 by omega)
      (show 0 ≤ 0 ∧ 0 < 65536 by omega)
    rw [hdecode, Int.zero_add]
    rfl

omit h

/-- Whether the first picture is known from some limbs. A limb that shows nothing makes the reader forget it. -/
def marks (limbs : List (List Int)) : Bool :=
  limbs.foldl (fun known map => map.any (· ≠ -1) && (known || map.contains 0)) false

theorem marks_take_succ {m : Nat} (hmap : limbs[m]? = some map) :
    marks (limbs.take (m + 1)) = (map.any (· ≠ -1) && (marks (limbs.take m) || map.contains 0)) := by
  rw [marks, take_add_one, hmap, foldl_append]
  rfl

/-- The lowest offset of a picture in a limb: none in a limb that shows nothing, and that of the first picture in
a limb that shows it. -/
theorem Written.lowest_pict (h : c.Written version given entries picts) (hmap : map ∈ c.limbs) :
    (map.any (· ≠ -1) = false → lowestOffset (c.pictTable version picts map) = -1) ∧
    (map.any (· ≠ -1) = true → c.pictsAt version ≤ lowestOffset (c.pictTable version picts map) ∧
    (lowestOffset (c.pictTable version picts map) = c.pictsAt version ↔ 0 ∈ map)) := by
  have hbounds := h.bounds
  have hbase := h.base_bounds.1
  have hoffset : ∀ y ∈ c.pictTable version picts map, 2 < y → ∃ k : Nat, (k : Int) ∈ map ∧
      k < (picts.map List.length).length ∧ y = partStart (c.pictsAt version) (picts.map List.length) k := by
    intro y hy htwo
    obtain ⟨v, hv, rfl⟩ := mem_map.1 hy
    rcases h.shaped.pict_of_mem hmap hv with rfl | ⟨h0, hlt⟩
    · rw [offsetOf] at htwo
      omega
    · obtain ⟨k, rfl⟩ := Int.eq_ofNat_of_zero_le h0
      refine ⟨k, hv, ?_, offsetOf_natCast _ _ _ k⟩
      rw [length_map, h.length_picts]
      exact Int.ofNat_lt.1 hlt
  have hlow : ∀ y ∈ c.pictTable version picts map, 2 < y → c.pictsAt version ≤ y := by
    intro y hy htwo
    obtain ⟨k, -, -, rfl⟩ := hoffset y hy htwo
    exact le_partStart _ _ k
  refine ⟨fun hnone => ?_, fun hsome => ?_⟩
  · have hfilter : (c.pictTable version picts map).filter isOffset = [] := by
      refine filter_eq_nil_iff.2 fun y hy htwo => ?_
      obtain ⟨k, hk, -, -⟩ := hoffset y hy (of_decide_eq_true htwo)
      have hnull := any_eq_false.1 hnone k hk
      simp only [decide_eq_true_eq] at hnull
      omega
    rw [lowestOffset, hfilter]
    rfl
  · obtain ⟨v, hv, hne⟩ := any_eq_true.1 hsome
    have hin : ∃ y ∈ c.pictTable version picts map, 2 < y := by
      refine ⟨_, mem_map.2 ⟨v, hv, rfl⟩, ?_⟩
      rw [offsetOf, if_neg (of_decide_eq_true hne)]
      have := le_partStart (c.pictsAt version) (picts.map List.length) v.toNat
      omega
    refine ⟨le_lowestOffset hin hlow, fun heq => ?_, fun hzero => ?_⟩
    · by_contra hzero
      have hbound : c.pictsAt version + 1 ≤ lowestOffset (c.pictTable version picts map) := by
        refine le_lowestOffset hin fun y hy htwo => ?_
        obtain ⟨k, hk, hlt, rfl⟩ := hoffset y hy htwo
        have hpos : 0 < k := Nat.pos_of_ne_zero fun hk0 => hzero (by rw [hk0] at hk; exact hk)
        have := partStart_lt (c.pictsAt version) h.picts_pos hpos (Nat.lt_of_le_of_lt (Nat.zero_le _) hlt)
        rw [partStart_zero] at this
        omega
      omega
    · have hfirst : offsetOf (picts.map List.length) (c.pictsAt version) (bases version).1 0 = c.pictsAt version :=
        (offsetOf_natCast _ _ _ 0).trans (partStart_zero _ _)
      exact lowestOffset_eq (mem_map.2 ⟨0, hzero, hfirst⟩) (by omega) hlow

/-- A costume whose limbs all have an end that is known: it has an empty slot, or the limbs in front of the last
one show where the pictures begin. -/
def Delimited (c : Costume) : Prop := -1 ∈ c.limbMap ∨ marks c.limbs.dropLast

/-- What is known while limbs are read. The last limb is known by its place alone if its end is not, and the offset
of empty slots is known once there was such a slot. -/
structure Limbs.Knows (l : Limbs) (c : Costume) (version : String) (picts : List (List Int)) (m : Nat) (empty : Bool) : Prop where
  found : l.found.Knows (fun table table' => c.Delimited → table = table') (c.limbStart version) (c.pictTables version picts) m
  null : Table.find? (c.pictsAt version) l.found.seen = if empty then some (-1) else none
  first : m < c.limbs.length ∨ c.Delimited → (l.first = c.pictsAt version ↔ marks (c.limbs.take m)) ∧
    (l.first = -1 ∨ c.pictsAt version ≤ l.first)

section Slots

variable {l l' : Limbs} {m : Nat} {empty : Bool}

def readSlot (c : Costume) (version : String) (entries : List Int) (picts : List (List Int)) : Limbs → Int → Except Fault Limbs :=
  limbSlot (c.bytes version entries picts) (bases version).1 (orderedOffsets (c.limbTable version))

theorem length_cut (data : List Int) (start stop : Int) : (Position.cut data start stop).length
    = Position.bound data.length stop - Position.bound data.length start := by
  rw [Position.cut, length_drop, length_take, Position.bound, Nat.min_assoc, Nat.min_self]

theorem exists_decodeOffsets (data : List Int) (base : Int) :
    ∃ table, decodeOffsets data ((data.length / 2 : Nat) : Int) base = .ok table := by
  refine ⟨_, mapM_ok (g := fun i : Nat => Word.ofLE ((Position.cut data (2 * i) (2 * i + 2)).take 2)
    + base) fun i hi => ?_⟩
  have hlt := mem_range.1 hi
  have hlength : (Position.cut data (2 * i) (2 * i + 2)).length = 2 := by
    rw [length_cut, Position.bound, Position.bound]
    omega
  simp [Word.decodeLE, hlength]
  rfl

/-- The end of the limbs is the largest offset, so what is looked for there ends where the first picture is
supposed. -/
theorem Written.next_null (h : c.Written version given entries picts) (hslot : -1 ∈ c.limbMap) (first : Int) :
    nextOffset (c.pictsAt version) first (orderedOffsets (c.limbTable version)) = first := by
  have hbounds := h.bounds
  exact nextOffset_end first h.shaped.limbNumbers (mem_map.2 ⟨-1, hslot, rfl⟩) (by omega) (fun _ => Int.le_refl _) fun j hj =>
    Int.le_of_lt (h.limbStart_lt (length_limbLengths c ▸ hj))

theorem le_limbStart (c : Costume) (version : String) (k : Nat) : c.limbsAt version ≤ c.limbStart version k :=
  le_partStart _ _ k

include h

theorem Written.isOffset_of_le (hoffset : c.limbsAt version ≤ offset) : (!isOffset offset) = false := by
  have hbounds := h.bounds
  rw [isOffset, decide_eq_true (by omega)]
  rfl

theorem Written.readSlot_taken (hl : l.Knows c version picts m false) (hslot : -1 ∈ c.limbMap) (hpicts : c.picts ≠ [])
    (hmarks : ¬marks (c.limbs.take m)) (hread : c.readSlot version entries picts l (c.pictsAt version) = .ok l') :
    l'.found.map = l.found.map ++ [(m : Int)] := by
  have hbounds := h.bounds
  obtain ⟨hfirst, hrange⟩ := hl.first (Or.inr (Or.inl hslot))
  have hbytes : 1 < picts.flatten.length := by
    cases hcons : picts with
    | nil =>
      have hlength := h.length_picts
      rw [hcons] at hlength
      exact absurd (length_eq_zero_iff.1 hlength.symm) hpicts
    | cons bytes rest =>
      have := h.picts_long bytes.length (mem_map.2 ⟨bytes, hcons ▸ mem_cons_self, rfl⟩)
      rw [flatten_cons, length_append]
      omega
  have hempty : (Position.cut (c.bytes version entries picts) (c.pictsAt version) l.first).isEmpty = false := by
    have hne : l.first ≠ c.pictsAt version := fun heq => hmarks (hfirst.1 heq)
    have hlength := h.length_bytes
    rw [isEmpty_eq_false_iff, ← length_pos_iff, length_cut]
    simp only [Position.bound]
    split <;> split <;> omega
  rw [readSlot, limbSlot, h.isOffset_of_le hbounds.2.2.2.1] at hread
  obtain ⟨table, htable⟩ := exists_decodeOffsets
    (Position.cut (c.bytes version entries picts) (c.pictsAt version) l.first) (bases version).1
  simp only [hl.null, h.next_null hslot, hempty, htable, hl.found.length] at hread
  exact congrArg (fun l : Limbs => l.found.map) (Except.ok.inj hread).symm

theorem Written.first_pict (hmap : c.limbs[m]? = some map) {first : Int}
    (hfirst : (first = c.pictsAt version ↔ marks (c.limbs.take m)) ∧ (first = -1 ∨ c.pictsAt version ≤ first))
    {low : Int} (hlow : lowestOffset (c.pictTable version picts map) = low) :
    ((if first = -1 ∨ low < first then low else first) = c.pictsAt version ↔ marks (c.limbs.take (m + 1))) ∧
    ((if first = -1 ∨ low < first then low else first) = -1 ∨
    c.pictsAt version ≤ if first = -1 ∨ low < first then low else first) := by
  have hbounds := h.bounds
  obtain ⟨hnone, hsome⟩ := h.lowest_pict (mem_of_getElem? hmap)
  rw [marks_take_succ hmap] at *
  cases hany : map.any (· ≠ -1) with
  | false =>
    have := hnone hany
    simp only [Bool.false_and, Bool.false_eq_true, iff_false]
    split <;> omega
  | true =>
    obtain ⟨hle, hzero⟩ := hsome hany
    simp only [Bool.true_and, Bool.or_eq_true, contains_iff_mem, ← hzero, ← hfirst.1]
    split <;> omega

variable (hl : l.Knows c version picts m empty)

include hl

/-- An empty slot is read as one if there was one before, or the first picture is known, or there is none. -/
theorem Written.readSlot_null (hslot : -1 ∈ c.limbMap) (htold : empty = true ∨ c.picts = [] ∨ marks (c.limbs.take m)) :
    ∃ l', c.readSlot version entries picts l (c.pictsAt version) = .ok l' ∧ l'.Knows c version picts m true ∧
    l'.found.map = l.found.map ++ [-1] := by
  have hbounds := h.bounds
  rw [readSlot, limbSlot, h.isOffset_of_le hbounds.2.2.2.1]
  cases empty with
  | true =>
    simp only [hl.null]
    exact ⟨_, rfl, ⟨⟨hl.found.met, hl.found.count, hl.found.seen⟩, hl.null, hl.first⟩, rfl⟩
  | false =>
    have hempty : Position.cut (c.bytes version entries picts) (c.pictsAt version) l.first = [] := by
      rw [← length_eq_zero_iff, length_cut]
      rcases htold.resolve_left Bool.false_ne_true with hnone | hmarks
      · have hlength := h.length_bytes
        rw [length_eq_zero_iff.1 (h.length_picts.trans (congrArg List.length hnone))] at hlength
        rw [length_eq_zero_iff.1 (h.length_picts.trans (congrArg List.length hnone))]
        have hstart : Position.bound (c.bytes version entries []).length (c.pictsAt version)
            = (c.bytes version entries []).length := by
          rw [flatten_nil, length_nil] at hlength
          rw [Position.bound]
          omega
        rw [hstart]
        exact Nat.sub_eq_zero_of_le (Nat.min_le_right _ _)
      · rw [((hl.first (Or.inr (Or.inl hslot))).1).2 hmarks, Nat.sub_self]
    simp only [hl.null, h.next_null hslot, hempty]
    refine ⟨_, rfl, ⟨⟨hl.found.met, hl.found.count, fun k hk => ?_⟩, ?_, hl.first⟩, rfl⟩
    · have hlt := h.limbStart_lt (length_pictTables ▸ hk)
      rw [Table.find?_put, if_neg (by omega)]
      exact hl.found.seen k hk
    · rw [Table.find?_put, if_pos rfl]
      rfl

theorem Written.readSlot_seen (hk : k < m) : ∃ l', c.readSlot version entries picts l (c.limbStart version k) = .ok l' ∧ l'.Knows c version picts m empty ∧
    l'.found.map = l.found.map ++ [(k : Int)] := by
  have hseen := hl.found.seen k (Nat.lt_of_lt_of_le hk hl.found.count)
  rw [if_pos hk] at hseen
  rw [readSlot, limbSlot, h.isOffset_of_le (le_limbStart c version k)]
  simp only [hseen]
  exact ⟨_, rfl, ⟨⟨hl.found.met, hl.found.count, hl.found.seen⟩, hl.null, hl.first⟩, rfl⟩

/-- The next limb is read to where it ends or, where that is not known, to somewhere behind its beginning. -/
theorem Written.cut_limb (hmap : c.limbs[m]? = some map) : ∃ limb table, Position.cut (c.bytes version entries picts) (c.limbStart version m)
    (nextOffset (c.limbStart version m) l.first (orderedOffsets (c.limbTable version))) = limb ∧
    limb.isEmpty = false ∧ decodeOffsets limb ((limb.length / 2 : Nat) : Int) (bases version).1 = .ok table ∧
    (m + 1 < c.limbs.length ∨ c.Delimited → table = c.pictTable version picts map) := by
  have hbounds := h.bounds
  obtain ⟨hm, -⟩ := List.getElem?_eq_some_iff.1 hmap
  obtain ⟨hfirst, hrange⟩ := hl.first (Or.inl hm)
  have hm' : m < c.limbLengths.length := (length_limbLengths c).symm ▸ hm
  have hlow := le_limbStart c version m
  have hend : partStart (c.limbsAt version) c.limbLengths c.limbLengths.length = c.pictsAt version := by
    rw [length_limbLengths]
    exact limbStart_length c version
  by_cases hknown : m + 1 < c.limbs.length ∨ c.Delimited
  · have hnext : nextOffset (c.limbStart version m) l.first (orderedOffsets (c.limbTable version))
        = c.limbStart version (m + 1) := by
      refine nextOffset_part h.shaped.limbNumbers h.shaped.limbLengths_pos (by omega) (Or.inr hend.symm) hm' ?_
      rw [hend, length_limbLengths]
      rcases hknown with hmore | hslot | hmarks
      · exact Or.inl hmore
      · exact Or.inr (Or.inl ⟨hslot, rfl⟩)
      · by_cases hmore : m + 1 < c.limbs.length
        · exact Or.inl hmore
        · rw [dropLast_eq_take, show c.limbs.length - 1 = m by omega] at hmarks
          exact Or.inr (Or.inr (hfirst.2 hmarks))
    obtain ⟨limb, hcut, hempty, hdecode⟩ := h.decode_limb hmap
    rw [hnext]
    exact ⟨limb, _, hcut, hempty, hdecode, fun _ => rfl⟩
  · rw [not_or] at hknown
    have hnext : nextOffset (c.limbStart version m) l.first (orderedOffsets (c.limbTable version)) = l.first := by
      refine nextOffset_end _ h.shaped.limbNumbers (partStart_mem_offsets _ _ h.shaped.limbNumbers hm') (by omega)
        (fun hslot => absurd (Or.inl hslot) hknown.2) fun j hj => ?_
      rw [length_limbLengths] at hj
      exact partStart_le _ _ (by omega)
    have hlong : c.limbStart version m + 2 ≤ c.pictsAt version := by
      have hsucc := partStart_succ (c.limbsAt version) hm'
      have hpos := h.shaped.limbLengths_pos _ (getElem_mem hm')
      have hle : c.limbStart version (m + 1) ≤ c.pictsAt version := hend ▸ partStart_le _ _ (by omega)
      have hget : c.limbLengths[m] = 2 * map.length := by
        simp only [limbLengths, List.getElem_map, (List.getElem?_eq_some_iff.1 hmap).2]
      rw [limbStart] at hle ⊢
      omega
    have hempty : (Position.cut (c.bytes version entries picts) (c.limbStart version m) l.first).isEmpty = false := by
      have hlength := h.length_bytes
      rw [isEmpty_eq_false_iff, ← length_pos_iff, length_cut]
      simp only [Position.bound]
      split <;> split <;> omega
    obtain ⟨table, htable⟩ := exists_decodeOffsets
      (Position.cut (c.bytes version entries picts) (c.limbStart version m) l.first) (bases version).1
    rw [hnext]
    exact ⟨_, table, rfl, hempty, htable, fun hor => absurd hor (not_or.2 hknown)⟩

theorem Written.readSlot_new (hm : m < c.limbs.length) : ∃ l', c.readSlot version entries picts l (c.limbStart version m) = .ok l' ∧
    l'.Knows c version picts (m + 1) empty ∧ l'.found.map = l.found.map ++ [(m : Int)] := by
  have hseen := hl.found.seen m (length_pictTables.symm ▸ hm)
  rw [if_neg (Nat.lt_irrefl m)] at hseen
  obtain ⟨map, hmap⟩ : ∃ map, c.limbs[m]? = some map := ⟨_, getElem?_eq_getElem hm⟩
  have htable : (c.pictTables version picts)[m]? = some (c.pictTable version picts map) := by
    rw [pictTables, getElem?_map, hmap, Option.map_some]
  obtain ⟨limb, table, hcut, hempty, hdecode, hsame⟩ := h.cut_limb hl hmap
  have hplace : ∀ j < (c.pictTables version picts).length, ∀ k < (c.pictTables version picts).length,
      c.limbStart version j = c.limbStart version k → j = k := by
    rw [length_pictTables, ← length_limbLengths]
    exact fun j hj k hk => partStart_inj _ h.shaped.limbLengths_pos hj hk
  have hlength := hl.found.length
  rw [readSlot, limbSlot, h.isOffset_of_le (le_limbStart c version m)]
  simp only [hseen, hcut, hempty, hdecode, hlength]
  refine ⟨_, rfl, ⟨hl.found.add hplace htable (fun hknown => hsame (Or.inr hknown)) _, ?_, fun hknown => ?_⟩, rfl⟩
  · have hlt := h.limbStart_lt hm
    rw [Table.find?_put, if_neg (by omega)]
    exact hl.null
  · exact h.first_pict hmap (hl.first (Or.inl hm)) (by rw [hsame hknown])

theorem Written.readSlot_counts {v : Int} {m' : Nat} (hnull : v = -1 → -1 ∈ c.limbMap ∧ empty = true) (hv : Counts m v m')
    (hm : m' ≤ c.limbs.length) : ∃ l', c.readSlot version entries picts l (offsetOf c.limbLengths (c.limbsAt version) (c.pictsAt version) v) = .ok l' ∧
    l'.Knows c version picts m' empty ∧ l'.found.map = l.found.map ++ [v] := by
  cases hv with
  | null =>
    obtain ⟨hslot, rfl⟩ := hnull rfl
    exact h.readSlot_null hl hslot (Or.inl rfl)
  | seen hk =>
    exact h.readSlot_seen hl hk
  | new =>
    exact h.readSlot_new hl hm

theorem Written.foldlM_readSlot {n : Nat} (hnull : -1 ∈ map → -1 ∈ c.limbMap ∧ empty = true)
    (hnumbers : numberedTo m map = some n) (hn : n ≤ c.limbs.length) :
    ∃ l', (map.map (offsetOf c.limbLengths (c.limbsAt version) (c.pictsAt version))).foldlM
    (c.readSlot version entries picts) l = .ok l' ∧ l'.Knows c version picts n empty ∧ l'.found.map = l.found.map ++ map := by
  rw [← map_id map] at hnumbers
  obtain ⟨l', hl', hknows, hmap⟩ := foldlM_numbered (g := fun l : Limbs => l.found.map)
    (P := fun m l => l.Knows c version picts m empty) (fun v hv l m m' hm hm' hl =>
    h.readSlot_counts hl (fun heq => hnull (heq ▸ hv)) hm (Nat.le_trans hm' hn)) hl hnumbers
  exact ⟨l', by rwa [foldlM_map], hknows, by rwa [map_id'] at hmap⟩

end Slots

/-- The limbs that are met in front of the first empty slot tell where the pictures begin. -/
def Marked (c : Costume) : Prop := ∃ m, numberedTo 0 (c.limbMap.takeWhile (· ≠ -1)) = some m ∧ marks (c.limbs.take m)

theorem exists_first_null (h : -1 ∈ map) :
    ∃ before after, map = before ++ -1 :: after ∧ -1 ∉ before ∧ map.takeWhile (· ≠ -1) = before := by
  obtain ⟨before, after, rfl, hnone⟩ := eq_append_cons_of_mem h
  refine ⟨before, after, rfl, hnone, ?_⟩
  rw [takeWhile_append_of_pos fun v hv => decide_eq_true (p := v ≠ -1) fun heq => hnone (heq ▸ hv),
    takeWhile_cons_of_neg (by simp), append_nil]

include h

theorem Written.knows_limbs : (⟨Found.start, -1⟩ : Limbs).Knows c version picts 0 false := by
  have hbounds := h.bounds
  refine ⟨knows_start, rfl, fun _ => ⟨⟨fun heq => ?_, fun hmarks => ?_⟩, Or.inl rfl⟩⟩
  · change (-1) = _ at heq
    omega
  · cases hmarks

theorem Written.exists_before_null (hslot : -1 ∈ c.limbMap) :
    ∃ before after m l, c.limbMap = before ++ -1 :: after ∧ c.limbMap.takeWhile (· ≠ -1) = before ∧
    numberedTo 0 before = some m ∧ numberedTo m after = some c.limbs.length ∧
    (before.map (offsetOf c.limbLengths (c.limbsAt version) (c.pictsAt version))).foldlM
    (c.readSlot version entries picts) ⟨Found.start, -1⟩ = .ok l ∧ l.Knows c version picts m false ∧ l.found.map = before := by
  obtain ⟨before, after, hsplit, hnone, hbefore⟩ := exists_first_null hslot
  have hnumbers := h.shaped.limbMap
  rw [hsplit, numberedTo_append] at hnumbers
  obtain ⟨m, hm, hafter⟩ := Option.bind_eq_some_iff.1 hnumbers
  obtain ⟨l, hl, hknows, hmap⟩ := h.foldlM_readSlot h.knows_limbs (fun hmem => absurd hmem hnone) hm (le_of_numberedTo hafter)
  exact ⟨before, after, m, l, hsplit, hbefore, hm, hafter, hl, hknows, hmap⟩

theorem Written.decodeLimbs_eq (htold : -1 ∈ c.limbMap → c.picts = [] ∨ c.Marked) :
    ∃ f, decodeLimbs (c.bytes version entries picts) (c.limbTable version) (bases version).1 = .ok f ∧
    f.map = c.limbMap ∧ f.parts.length = c.limbs.length ∧ (c.Delimited → f.parts = c.pictTables version picts) := by
  obtain ⟨l, empty, hl, hknows, hmap⟩ : ∃ l empty, (c.limbTable version).foldlM (c.readSlot version entries picts)
      ⟨Found.start, -1⟩ = .ok l ∧ l.Knows c version picts c.limbs.length empty ∧ l.found.map = c.limbMap := by
    by_cases hslot : -1 ∈ c.limbMap
    · obtain ⟨before, after, m, l, hsplit, hbefore, hm, hafter, hl, hknows, hmap⟩ := h.exists_before_null hslot
      have hmarks : c.picts = [] ∨ marks (c.limbs.take m) := by
        refine (htold hslot).imp_right fun ⟨n, hn, hmarks⟩ => ?_
        rw [hbefore, hm] at hn
        cases hn
        exact hmarks
      obtain ⟨l', hl', hknows', hmap'⟩ := h.readSlot_null hknows hslot (Or.inr hmarks)
      obtain ⟨l'', hl'', hknows'', hmap''⟩ := h.foldlM_readSlot hknows' (fun _ => ⟨hslot, rfl⟩) hafter (Nat.le_refl _)
      refine ⟨l'', true, ?_, hknows'', ?_⟩
      · rw [limbTable, hsplit, map_append, foldlM_append, hl]
        change (c.readSlot version entries picts l (c.pictsAt version) >>= _) = _
        rw [hl']
        exact hl''
      · rw [hmap'', hmap', hmap, append_assoc, singleton_append, ← hsplit]
    · obtain ⟨l, hl, hknows, hmap⟩ := h.foldlM_readSlot h.knows_limbs (fun hmem => absurd hmem hslot) h.shaped.limbMap
        (Nat.le_refl _)
      exact ⟨l, false, hl, hknows, hmap⟩
  refine ⟨l.found, ?_, hmap, hknows.found.length, fun hknown => ?_⟩
  · rw [readSlot] at hl
    rw [decodeLimbs, hl]
    rfl
  · have hmet := hknows.found.met
    rw [← length_pictTables , take_length] at hmet
    exact forall₂_eq_eq_eq ▸ hmet.imp fun _ _ heq => heq hknown

omit h

theorem limbSlot_appends {l l' : Limbs}
    (h : limbSlot data base ordered l offset = .ok l') : ∃ v, l'.found.map = l.found.map ++ [v] := by
  rw [limbSlot] at h
  split at h
  · cases h
    exact ⟨-1, rfl⟩
  · split at h
    · cases h
      exact ⟨_, rfl⟩
    · simp only [Bind.bind, Except.bind] at h
      split at h
      · cases h
        exact ⟨-1, rfl⟩
      · split at h
        · cases h
        · cases h
          exact ⟨_, rfl⟩

theorem foldlM_limbSlot_appends {table : List Int} {l l' : Limbs}
    (h : table.foldlM (limbSlot data base ordered) l = .ok l') : l.found.map <+: l'.found.map := by
  induction table generalizing l with
  | nil =>
    cases h
    exact prefix_rfl
  | cons offset rest ih =>
    obtain ⟨next, hslot, h⟩ := bind_eq_ok.1 h
    obtain ⟨v, hv⟩ := limbSlot_appends hslot
    exact List.IsPrefix.trans (hv ▸ prefix_append _ _) (ih h)

theorem Written.decodeLimbs_ne (h : c.Written version given entries picts) (hslot : -1 ∈ c.limbMap)
    (hpicts : c.picts ≠ []) (hmarked : ¬c.Marked) {f : Found (List Int)}
    (hf : decodeLimbs (c.bytes version entries picts) (c.limbTable version) (bases version).1 = .ok f) : f.map ≠ c.limbMap := by
  obtain ⟨before, after, m, l, hsplit, hbefore, hm, -, hl, hknows, hmap⟩ := h.exists_before_null hslot
  have hmarks : ¬marks (c.limbs.take m) := fun hmarks => hmarked ⟨m, hbefore ▸ hm, hmarks⟩
  obtain ⟨last, hlast, hf⟩ := bind_eq_ok.1 hf
  cases hf
  change (c.limbTable version).foldlM (c.readSlot version entries picts) _ = _ at hlast
  rw [limbTable, hsplit, map_append, foldlM_append, hl] at hlast
  obtain ⟨next, hread, hlast⟩ := bind_eq_ok.1 (foldlM_cons.symm.trans hlast)
  obtain ⟨more, hmore⟩ := foldlM_limbSlot_appends hlast
  rw [h.readSlot_taken hknows hslot hpicts hmarks hread, hmap, append_assoc] at hmore
  intro heq
  rw [← hmore, hsplit] at heq
  have hhead := (List.cons.inj (append_cancel_left heq)).1
  omega

/-! ### Pictures -/

def pictStart (c : Costume) (version : String) (picts : List (List Int)) (k : Nat) : Int :=
  partStart (c.pictsAt version) (picts.map List.length) k

/-- What is decoded from the bytes at an offset, up to the next one. -/
abbrev pictAt (c : Costume) (version : String) (entries : List Int) (picts : List (List Int)) (given : Palette)
    (limb offset : Int) : Except Fault Pict :=
  Pict.decode (Position.cut (c.bytes version entries picts) offset (nextOffset offset (c.bytes version entries picts).length
    (orderedOffsets (c.pictTables version picts).flatten))) limb c.settings.redirectable given

include h

theorem Written.decode_pict {p : Pict} (hp : c.picts[k]? = some p) (limb : Int) :
    ∃ q, c.pictAt version entries picts given limb (c.pictStart version picts k) = .ok q ∧ q.Same p := by
  have hbounds := h.bounds
  have hbase := h.base_bounds.1
  obtain ⟨hk, hget⟩ := List.getElem?_eq_some_iff.1 hp
  have hk' : k < picts.length := h.length_picts.symm ▸ hk
  have hend : partStart (c.pictsAt version) (picts.map List.length) (picts.map List.length).length
      = (c.bytes version entries picts).length := by
    rw [partStart_length, h.length_bytes, length_flatten]
  have hnext : nextOffset (c.pictStart version picts k) (c.bytes version entries picts).length
      (orderedOffsets (c.pictTables version picts).flatten) = c.pictStart version picts (k + 1) := by
    rw [show (c.pictTables version picts).flatten = _ from map_flatten.symm]
    exact nextOffset_part (by rw [length_map, h.length_picts]; exact covers_of_numberedTo h.shaped.pictMap) h.picts_pos (by omega) (Or.inl hbase.2) ((length_map _).symm ▸ hk')
      (Or.inr (Or.inr hend.symm))
  have hdata : c.bytes version entries picts = (c.front version entries picts ++ c.animBytes.flatten ++ c.commands
      ++ (c.limbBytes version picts).flatten) ++ (picts.flatten ++ []) := by
    rw [bytes, append_nil]
  obtain ⟨rest, hcut, hrest⟩ := cut_part (c.front version entries picts ++ c.animBytes.flatten ++ c.commands
      ++ (c.limbBytes version picts).flatten) [] (getElem?_eq_getElem hk') (Int.le_refl _)
  rw [← hdata, h.length_before_picts, hrest rfl, append_nil] at hcut
  rw [pictAt, hnext, pictStart, pictStart, hcut, ← hget]
  exact (h.drawn.get hk hk').2 limb

theorem Written.foldlM_limbs (hsub : ∀ map ∈ limbs, map ∈ c.limbs) {m n : Nat}
    (hnumbers : numberedTo m limbs.flatten = some n) (hn : n ≤ c.picts.length) {f : Found Pict}
    (hf : f.Knows Pict.Same (c.pictStart version picts) c.picts m) (maps : List (List Int)) (i : Nat) :
    ∃ f', ((limbs.map (c.pictTable version picts)).zipIdx i).foldlM (fun (maps, f) (table, i) => do
        let f ← table.foldlM (fun (f : Found Pict) offset =>
          f.slot offset (c.pictAt version entries picts given (i : Nat) offset)) { f with map := [] }
        return (maps ++ [f.map], f)) (maps, f) = (.ok (maps ++ limbs, f') : Except Fault _) ∧
      f'.Knows Pict.Same (c.pictStart version picts) c.picts n := by
  induction limbs generalizing m f maps i with
  | nil =>
    cases hnumbers
    exact ⟨f, by rw [append_nil]; rfl, hf⟩
  | cons map rest ih =>
    have hbounds := h.bounds
    have hbase := h.base_bounds.1
    rw [flatten_cons, numberedTo_append] at hnumbers
    obtain ⟨k, hk, hmore⟩ := Option.bind_eq_some_iff.1 hnumbers
    have hlengths : (picts.map List.length).length = c.picts.length := (length_map _).trans h.length_picts
    have hslots : numberedTo m (map.map id) = some k := by rwa [map_id]
    obtain ⟨g, hg, hknows, hmap⟩ : ∃ g, (c.pictTable version picts map).foldlM (fun f offset =>
        f.slot offset (c.pictAt version entries picts given i offset)) { f with map := [] } = .ok g ∧
        g.Knows Pict.Same (c.pictStart version picts) c.picts k ∧ g.map = [] ++ map.map id := by
      rw [pictTable, foldlM_map]
      refine foldlM_numbered (P := fun m f => Found.Knows f Pict.Same (c.pictStart version picts) c.picts m) (fun v _ f m m' hv hm hf => ?_)
        ⟨hf.met, hf.count, hf.seen⟩ hslots
      refine hf.slot hlengths h.picts_pos (by omega) hbase.2 hv (Nat.le_trans hm (Nat.le_trans (le_of_numberedTo hmore) hn))
        fun k p hk hp => ?_
      rw [show v = k from hk]
      exact h.decode_pict hp i
    replace hmap : g.map = map := by simpa using hmap
    subst hmap
    obtain ⟨f', hf', hknows'⟩ := ih (fun other hother => hsub other (mem_cons_of_mem _ hother)) hmore hknows
      (maps ++ [g.map]) (i + 1)
    refine ⟨f', ?_, hknows'⟩
    rw [map_cons, zipIdx_cons, foldlM_cons]
    dsimp only
    rw [hg]
    rw [append_assoc] at hf'
    exact hf'

theorem Written.decodePicts_eq : ∃ drawn, decodePicts (c.bytes version entries picts) (c.pictTables version picts)
    c.settings.redirectable given = .ok (c.limbs, drawn) ∧ List.Forall₂ Pict.Same drawn c.picts := by
  obtain ⟨f, hf, hknows⟩ := h.foldlM_limbs (fun map hmap => hmap) h.shaped.pictMap (Nat.le_refl _)
    knows_start [] 0
  refine ⟨f.parts, ?_, ?_⟩
  · rw [decodePicts]
    simp only [pictAt, pictTables] at hf ⊢
    simp only [hf]
    rfl
  · have hmet := hknows.met
    rwa [take_length] at hmet

theorem Written.lowest_limb : lowestOffset (c.limbTable version) = c.limbsAt version := by
  have hbounds := h.bounds
  have hfirst : c.limbsAt version ∈ c.limbTable version := by
    rcases Nat.eq_zero_or_pos c.limbs.length with hnone | hlimb
    · -- without limbs the slots are empty and point to where the limbs would begin
      obtain ⟨v, hv⟩ := exists_mem_of_length_pos (h.shaped.limbSlots.symm ▸ (by decide : 0 < 16))
      have hnull := mem_of_numberedTo h.shaped.limbMap hv
      refine mem_map.2 ⟨v, hv, ?_⟩
      rw [offsetOf, if_pos (by omega), ← limbStart_length, hnone]
      exact partStart_zero _ _
    · have hmem := partStart_mem_offsets (c.limbsAt version) (c.pictsAt version) h.shaped.limbNumbers
        ((length_limbLengths c).symm ▸ hlimb)
      rwa [partStart_zero] at hmem
  refine lowestOffset_eq hfirst (by omega) fun y hy _ => ?_
  rcases mem_offsets h.shaped.limbNumbers hy with ⟨-, rfl⟩ | ⟨j, -, rfl⟩
  · exact hbounds.2.2.2.1
  · exact le_partStart _ _ j

end Reading

end ScummKit.Costume
