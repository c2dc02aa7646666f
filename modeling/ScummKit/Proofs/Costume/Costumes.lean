import ScummKit.Proofs.Costume.Parts
import ScummKit.Proofs.Image.Pictures

/-!
# Costumes and their data

`costume_restored` says that a costume of the form that reading gives is read again from its own data, in both
versions of the format, provided that the data are short enough for offsets of two bytes, that the first slot
has a limb, and that another limb or an empty slot marks where that limb ends.
-/

namespace ScummKit.Costume

open List

section Reading

variable {c : Costume} {version : String} {given room : Palette} {entries : List Int} {picts : List (List Int)}

section

variable (h : c.Written version given entries picts) (hlook : entries.mapM (Position.look room) = .ok given)

include h hlook

theorem Written.decode_front : decode version (c.bytes version entries picts) room = (do
      let limbs ← decodeLimbs (c.bytes version entries picts) (c.limbTable version) (bases version).1
      let (maps, drawn) ← decodePicts (c.bytes version entries picts) limbs.parts c.settings.redirectable given
      return ⟨c.settings, given, c.commands, c.animMap, c.anims, limbs.map, maps, drawn⟩) := by
  obtain ⟨hanims, hanimsLe, hcommands, hlimbs, hend⟩ := h.bounds
  have hbase := h.base_bounds.1
  obtain ⟨hcut, hentries, hcommandsWord, hlimbBytes, hanimBytes, -⟩ := h.cut_front
  have hslots := h.shaped.animSlots
  have hlimbSlots := h.shaped.limbSlots
  obtain ⟨f, hf, hfmap, hfparts⟩ := h.decodeAnims_eq
  have hsettings : decodeSettings version (c.bytes version entries picts) = .ok c.settings := by
    rw [decodeSettings, hcut]
    exact h.shaped.settings
  have hword : Word.decodeLE (Word.toLE 2 (c.commandsAt version - (bases version).1)) 2
      = .ok (c.commandsAt version - (bases version).1) :=
    Word.decodeLE_toLE (by decide) (by omega) (show _ < 65536 by omega)
  have hlimbTable : decodeOffsets (tableBytes c.limbLengths (c.limbsAt version) (bases version).1
      (c.pictsAt version - (bases version).1) c.limbMap) 16 (bases version).1 = .ok (c.limbTable version) := by
    have hdecode := decodeOffsets_tableBytes c.limbMap (by omega)
      (show c.limbsAt version + (c.limbLengths.sum) < 65536 + (bases version).1 by rw [pictsAt] at hend; omega)
      (show 0 ≤ c.pictsAt version - (bases version).1 ∧ c.pictsAt version - (bases version).1 < 65536 by omega)
    rwa [hlimbSlots, Int.sub_add_cancel] at hdecode
  have hanimTable : decodeOffsets (tableBytes (c.animBytes.map List.length) (c.animsAt version) (bases version).1 0
      c.animMap) c.settings.animCount (bases version).1 = .ok (c.animTable version) := by
    have hsum : (c.animsAt version + (c.animBytes.map List.length).sum) = c.commandsAt version := by
      rw [commandsAt, length_flatten]
    have hdecode := decodeOffsets_tableBytes c.animMap (by omega)
      (show c.animsAt version + ((c.animBytes.map List.length).sum) < 65536 + (bases version).1 by omega)
      (show 0 ≤ 0 ∧ 0 < 65536 by omega)
    rwa [hslots, Int.zero_add] at hdecode
  simp only [decode, hsettings, hentries, hlook, hcommandsWord, hword, hlimbBytes, hlimbTable, hanimBytes,
    hanimTable, Int.sub_add_cancel, hf, h.lowest_limb, h.cut_commands, hfmap, hfparts, Bind.bind, Except.bind]

theorem Written.decode_eq (halike : List.Forall₂ Shade.Alike c.palette given)
    (htold : -1 ∈ c.limbMap → c.picts = [] ∨ c.Marked) (hknown : c.Delimited) :
    ∃ d, decode version (c.bytes version entries picts) room = .ok d ∧ d.Same c := by
  obtain ⟨g, hg, hgmap, -, hgparts⟩ := h.decodeLimbs_eq htold
  obtain ⟨drawn, hdrawn, hsame⟩ := h.decodePicts_eq
  refine ⟨⟨c.settings, given, c.commands, c.animMap, c.anims, c.limbMap, c.limbs, drawn⟩, ?_,
    ⟨rfl, halike, rfl, rfl, rfl, rfl, rfl, hsame⟩⟩
  simp only [h.decode_front hlook, hg, hgparts hknown, hdrawn, hgmap, Bind.bind, Except.bind, pure, Except.pure]

end

theorem Shaped.exists_written (hc : c.Shaped) (hversion : version = "4" ∨ version = "5") (hroom : room.Valid)
    (hcolours : ∀ s ∈ c.palette, ∃ t ∈ room, s.Alike t) :
    ∃ entries given picts, (Draft.of c).encode version room = .ok ((c.bytes version entries picts).map Json.int) ∧
    entries.mapM (Position.look room) = .ok given ∧ List.Forall₂ Shade.Alike c.palette given ∧
    ((c.bytes version entries picts).length < 65536 → c.Written version given entries picts) := by
  obtain ⟨entries, given, hmap, hlook, hentries, halike, hmem⟩ := exists_paletteMap hroom hcolours
  have hsize := hc.paletteSize_eq
  have hpalette := hc.palette
  have hgiven : Recoloured c.palette given := by
    refine ⟨by omega, halike, fun s hs => hroom.bands s (hmem s hs), ?_⟩
    rw [← halike.length_eq]
    omega
  obtain ⟨picts, hpicts, hdrawn⟩ := exists_pictBytes hgiven hc.picts
  exact ⟨entries, given, picts, hc.encode_eq hmap hpicts hdrawn.length_eq.symm, hlook, halike,
    fun hshort => ⟨hc, hversion, hentries, hdrawn, hshort⟩⟩

theorem Formed.marks_take (h : c.Formed) {m : Nat} (hpos : 0 < m) (hm : m ≤ c.limbs.length) : marks (c.limbs.take m) := by
  induction m with
  | zero => cases hpos
  | succ m ih =>
    obtain ⟨map, hmap⟩ : ∃ map, c.limbs[m]? = some map := ⟨_, getElem?_eq_getElem hm⟩
    obtain ⟨v, hv, hne⟩ := h.limbs map (mem_of_getElem? hmap)
    have hany : map.any (· ≠ -1) = true := any_eq_true.2 ⟨v, hv, decide_eq_true hne⟩
    rw [marks_take_succ hmap, hany, Bool.true_and, Bool.or_eq_true]
    rcases Nat.eq_zero_or_pos m with rfl | hlater
    · -- the numbers of pictures start in the first limb, and so with zero there
      obtain ⟨more, hsplit⟩ : ∃ more, c.limbs = map :: more := by
        rw [← head?_eq_getElem?] at hmap
        exact head?_eq_some_iff.1 hmap
      have hnumbers := h.pictMap
      rw [hsplit, flatten_cons, numberedTo_append] at hnumbers
      obtain ⟨n, hn, -⟩ := Option.bind_eq_some_iff.1 hnumbers
      have hrange := (mem_of_numberedTo hn hv).resolve_left hne
      have hzero : ((0 : Nat) : Int) ∈ map := exists_slot_of_numberedTo hn (Nat.le_refl 0) (by omega)
      exact Or.inr (contains_iff_mem.2 hzero)
    · exact Or.inl (ih hlater (Nat.le_of_succ_le hm))

theorem Formed.marked (h : c.Formed) (hslot : c.limbMap.head? ≠ some (-1)) : c.Marked := by
  have hnumbers := h.limbMap
  rw [← takeWhile_append_dropWhile (l := c.limbMap), numberedTo_append] at hnumbers
  obtain ⟨m, hm, hafter⟩ := Option.bind_eq_some_iff.1 hnumbers
  refine ⟨m, hm, h.marks_take ?_ (le_of_numberedTo hafter)⟩
  cases hmap : c.limbMap with
  | nil =>
    have hsize := h.limbSlots
    rw [hmap] at hsize
    cases hsize
  | cons v rest =>
    rw [hmap] at hslot hm
    have hv : v ≠ -1 := fun heq => hslot (by rw [heq]; rfl)
    rw [takeWhile_cons, if_pos (decide_eq_true hv)] at hm
    have hrange := (mem_of_numberedTo hm mem_cons_self).resolve_left hv
    omega

theorem Formed.delimited (h : c.Formed) (hmany : -1 ∈ c.limbMap ∨ 2 ≤ c.limbs.length) : c.Delimited := by
  refine hmany.imp_right fun htwo => ?_
  rw [dropLast_eq_take]
  exact h.marks_take (by omega) (Nat.sub_le _ _)

end Reading

/-- A costume of the form that reading gives is read again from its own data, up to what its colours have
beyond three bands: the first slot must have a limb, and another limb or an empty slot must mark its end. -/
theorem costume_restored {c : Costume} (hc : c.Formed) {version : String} (hversion : version = "4" ∨ version = "5")
    {room : Palette} (hroom : room.Valid) (hcolours : ∀ s ∈ c.palette, ∃ t ∈ room, s.Alike t)
    (hslot : c.limbMap.head? ≠ some (-1)) (hmany : -1 ∈ c.limbMap ∨ 2 ≤ c.limbs.length) :
    ∃ data : List Int, (Draft.of c).encode version room = .ok (data.map Json.int) ∧
    (data.length < 65536 → ∃ d, decode version data room = .ok d ∧ d.Same c) := by
  obtain ⟨entries, given, picts, hencode, hlook, halike, hwritten⟩ := hc.shaped.exists_written hversion hroom hcolours
  refine ⟨c.bytes version entries picts, hencode, fun hshort => ?_⟩
  exact (hwritten hshort).decode_eq hlook halike (fun _ => Or.inr (hc.marked hslot)) (hc.delimited hmany)

/-- A figure of one limb with one picture of one pixel, and one animation of that limb. -/
def figure : Costume where
  settings := ⟨1, 0, 16, true, false⟩
  palette := Palette.ega
  commands := [0, 0x79]
  animMap := [0]
  anims := [[⟨0, false, 0, 1, true⟩, ⟨3, true, 0, 0, false⟩]]
  limbMap := 0 :: List.replicate 15 (-1)
  limbs := [[0, -1]]
  picts := [⟨0, 0, 1, 1, -8, -40, 0, 0, 0, 0, 0, [0x21], ⟨.rgb, 1, 1, #[[0x00, 0xaa, 0x00]]⟩⟩]

theorem formed_figure : figure.Formed where
  settings := rfl
  animCount := by decide
  palette := rfl
  animSlots := rfl
  animMap := rfl
  anims := by
    intro anim hanim
    obtain rfl := mem_singleton.1 hanim
    refine ⟨fun s hs => ?_, by decide⟩
    rcases mem_pair.1 hs with rfl | rfl
    · exact ⟨by decide, by decide, by decide, by decide⟩
    · exact ⟨by decide, by decide, by decide, by decide⟩
  limbSlots := rfl
  limbMap := rfl
  limbs := by
    intro map hmap
    obtain rfl := mem_singleton.1 hmap
    exact ⟨0, mem_cons_self, by decide⟩
  pictMap := rfl
  picts := by
    intro p hp
    obtain rfl := mem_singleton.1 hp
    refine ⟨⟨rfl, rfl, by decide⟩, ⟨rfl, by decide⟩, ⟨rfl, by decide, by decide⟩, by decide, fun _ => ⟨rfl, rfl⟩, ?_⟩
    intro px hpx
    obtain rfl := mem_singleton.1 hpx
    exact ⟨.rgb 0x00 0xaa 0x00, by decide, [], rfl⟩

theorem colours_figure : ∀ s ∈ figure.palette, ∃ t ∈ Palette.ega, s.Alike t := by
  intro s hs
  obtain ⟨r, g, b, rest, rfl, -⟩ := Palette.valid_ega.bands s hs
  exact ⟨_, hs, r, g, b, rest, rest, rfl, rfl⟩

theorem costume_restored_figure :
    ∃ data : List Int, (Draft.of figure).encode "5" Palette.ega = .ok (data.map Json.int) ∧ data.length < 65536 ∧
    ∃ d, decode "5" data Palette.ega = .ok d ∧ d.Same figure := by
  obtain ⟨data, hdata, hread⟩ := costume_restored formed_figure (Or.inr rfl) Palette.valid_ega colours_figure (by decide)
    (Or.inl (by decide))
  have hlength : data.length < 65536 := by
    have hsize : ((Draft.of figure).encode "5" Palette.ega).map List.length = .ok 88 := by decide
    rw [hdata] at hsize
    have hlength := Except.ok.inj hsize
    rw [length_map] at hlength
    omega
  exact ⟨data, hdata, hlength, hread hlength⟩

end ScummKit.Costume
