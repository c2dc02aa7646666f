import ScummKit.Proofs.Costume.Costumes

/-!
# Empty limb slots

An empty slot is written as a pointer to the end of the limbs, and is known by there being nothing from there to
the first picture. But the reader learns of the first picture from the limbs it has met, and forgets it at a limb
that shows nothing. `limbMap_restored_iff` says for which costumes the slots are read as they were.
-/

namespace ScummKit.Costume

open List

theorem length_foldlM {ε : Type} {step : List β × γ → α → Except ε (List β × γ)}
    (hstep : ∀ s a t, step s a = .ok t → t.1.length = s.1.length + 1) {xs : List α} {s t : List β × γ}
    (h : xs.foldlM step s = .ok t) : t.1.length = s.1.length + xs.length := by
  induction xs generalizing s with
  | nil =>
    cases h
    rfl
  | cons a rest ih =>
    obtain ⟨u, hu, h⟩ := bind_eq_ok.1 h
    rw [ih h, hstep s a u hu, length_cons, Nat.add_assoc, Nat.add_comm 1]

theorem length_decodePicts {data : List Int} {limbs : List (List Int)} {redirectable : Bool} {palette : Palette}
    {maps : List (List Int)} {drawn : List Pict}
    (h : decodePicts data limbs redirectable palette = .ok (maps, drawn)) : maps.length = limbs.length := by
  obtain ⟨⟨maps', f⟩, hfold, h⟩ := bind_eq_ok.1 h
  cases h
  have hlength := length_foldlM (fun s a t ht => by
    obtain ⟨g, -, ht⟩ := bind_eq_ok.1 ht
    cases ht
    exact length_append) hfold
  rwa [length_nil, Nat.zero_add, length_zipIdx] at hlength

section Reading

variable {c : Costume} {version : String} {given room : Palette} {entries : List Int} {picts : List (List Int)}

theorem Written.exists_decodeLimbs (h : c.Written version given entries picts)
    (hlook : entries.mapM (Position.look room) = .ok given) {d : Costume}
    (hd : decode version (c.bytes version entries picts) room = .ok d) :
    ∃ f, decodeLimbs (c.bytes version entries picts) (c.limbTable version) (bases version).1 = .ok f ∧
    d.limbMap = f.map ∧ d.limbs.length = f.parts.length := by
  rw [h.decode_front hlook] at hd
  obtain ⟨f, hf, hd⟩ := bind_eq_ok.1 hd
  obtain ⟨⟨maps, drawn⟩, hpicts, hd⟩ := bind_eq_ok.1 hd
  cases hd
  exact ⟨f, hf, rfl, length_decodePicts hpicts⟩

end Reading

/-- A costume with an empty slot is read with the slots and the limbs that it had exactly if it has no pictures,
or the limbs in front of the first empty slot tell where the pictures begin. Without an empty slot they are always
those it had, and something is read if the limbs before the last tell where the pictures begin. -/
theorem limbMap_restored_iff {c : Costume} (hc : c.Shaped) {version : String} (hversion : version = "4" ∨ version = "5")
    {room : Palette} (hroom : room.Valid) (hcolours : ∀ s ∈ c.palette, ∃ t ∈ room, s.Alike t) :
    ∃ data : List Int, (Draft.of c).encode version room = .ok (data.map Json.int) ∧ (data.length < 65536 → (-1 ∈ c.limbMap →
    ((∃ d, decode version data room = .ok d ∧ d.limbMap = c.limbMap ∧ d.limbs.length = c.limbs.length) ↔
    c.picts = [] ∨ c.Marked)) ∧ (-1 ∉ c.limbMap → (marks c.limbs.dropLast → ∃ d, decode version data room = .ok d) ∧
    ∀ d, decode version data room = .ok d → d.limbMap = c.limbMap ∧ d.limbs.length = c.limbs.length)) := by
  obtain ⟨entries, given, picts, hencode, hlook, halike, hwritten⟩ := hc.exists_written hversion hroom hcolours
  refine ⟨c.bytes version entries picts, hencode, fun hshort => ⟨fun hslot => ⟨?_, fun htold => ?_⟩, fun hslot => ⟨?_, ?_⟩⟩⟩
  · rintro ⟨d, hd, hmap, -⟩
    obtain ⟨f, hf, hfmap, -⟩ := (hwritten hshort).exists_decodeLimbs hlook hd
    by_contra htold
    rw [not_or] at htold
    exact (hwritten hshort).decodeLimbs_ne hslot htold.1 htold.2 hf (hfmap.symm.trans hmap)
  · obtain ⟨d, hd, hsame⟩ := (hwritten hshort).decode_eq hlook halike (fun _ => htold) (Or.inl hslot)
    exact ⟨d, hd, hsame.limbMap, congrArg List.length hsame.limbs⟩
  · intro hmarks
    obtain ⟨d, hd, -⟩ := (hwritten hshort).decode_eq hlook halike (fun hmem => absurd hmem hslot) (Or.inr hmarks)
    exact ⟨d, hd⟩
  · intro d hd
    obtain ⟨f, hf, hfmap, hflength⟩ := (hwritten hshort).exists_decodeLimbs hlook hd
    obtain ⟨g, hg, hgmap, hglength, -⟩ := (hwritten hshort).decodeLimbs_eq fun hmem => absurd hmem hslot
    cases hf.symm.trans hg
    exact ⟨hfmap.trans hgmap, hflength.trans hglength⟩

def lateFigure : Costume := { figure with limbMap := -1 :: 0 :: List.replicate 14 (-1) }

theorem limbMap_restored_iff_lateFigure :
    ∃ data : List Int, (Draft.of lateFigure).encode "5" Palette.ega = .ok (data.map Json.int) ∧ data.length < 65536 ∧
    ¬∃ d, decode "5" data Palette.ega = .ok d ∧ d.limbMap = lateFigure.limbMap ∧ d.limbs.length = lateFigure.limbs.length := by
  have hshaped : lateFigure.Shaped := { formed_figure.shaped with limbSlots := rfl, limbMap := rfl }
  obtain ⟨data, hdata, hread⟩ := limbMap_restored_iff hshaped (Or.inr rfl) Palette.valid_ega colours_figure
  have hlength : data.length < 65536 := by
    have hsize : ((Draft.of lateFigure).encode "5" Palette.ega).map List.length = .ok 88 := by decide
    rw [hdata] at hsize
    have hlength := Except.ok.inj hsize
    rw [length_map] at hlength
    omega
  refine ⟨data, hdata, hlength, fun hrestored => ?_⟩
  rcases ((hread hlength).1 mem_cons_self).1 hrestored with hpicts | ⟨m, hm, hmarks⟩
  · cases hpicts
  · cases hm
    cases hmarks

end ScummKit.Costume
