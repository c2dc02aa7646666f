import ScummKit.Proofs.Costume.Animations
import ScummKit.Proofs.Costume.Picts
import ScummKit.Proofs.Costume.Slots

/-!
# The layout of costumes

The data of a costume are its settings and colours, tables of offsets, and then the animations, commands,
limbs and pictures one after the other; none of these parts stores its length. `Formed` says what a costume is
that was read from data, and `Shaped.encode_eq` gives the data that are written for it, piece by piece. What
follows about data that were written (`Written`) is where each piece of the front is found.
-/

namespace ScummKit

open List

/-! ### Colours of a room -/

section Rooms

variable {room : Palette} {colour : Shade}

theorem findFrom_alike (hroom : ∀ s ∈ room, ∃ r g b rest, s = .bands (r :: g :: b :: rest)) {x y z : Int}
    {more : List Int} (hcolour : colour = .bands (x :: y :: z :: more)) (i : Nat) :
    (∃ n s, Palette.findFrom colour i room = .ok (some (i + n)) ∧ room[n]? = some s ∧ colour.Alike s) ∨
    Palette.findFrom colour i room = .ok none ∧ ∀ s ∈ room, ¬colour.Alike s := by
  subst hcolour
  induction room generalizing i with
  | nil => exact Or.inr ⟨rfl, fun s hs => by cases hs⟩
  | cons s rest ih =>
    obtain ⟨r, g, b, others, rfl⟩ := hroom s mem_cons_self
    have hagree := agree_bands r g b others x y z more
    rw [Palette.findFrom, hagree]
    by_cases hsame : r = x ∧ g = y ∧ b = z
    · rw [decide_eq_true hsame]
      obtain ⟨rfl, rfl, rfl⟩ := hsame
      exact Or.inl ⟨0, _, rfl, rfl, r, g, b, more, others, rfl, rfl⟩
    · rw [decide_eq_false hsame]
      rcases ih (fun t ht => hroom t (mem_cons_of_mem _ ht)) (i + 1) with ⟨n, t, hfind, hget, halike⟩ | ⟨hfind, hnone⟩
      · refine Or.inl ⟨n + 1, t, ?_, hget, halike⟩
        rw [show i + (n + 1) = i + 1 + n by omega]
        exact hfind
      · refine Or.inr ⟨hfind, fun t ht => ?_⟩
        rcases mem_cons.1 ht with rfl | ht
        · rintro ⟨r', g', b', more', rest', hleft, hright⟩
          cases hleft
          cases hright
          exact hsame ⟨rfl, rfl, rfl⟩
        · exact hnone t ht

theorem Palette.Valid.roomIndex (h : room.Valid) (hcolour : ∃ s ∈ room, colour.Alike s) :
    ∃ i s, (if room.length = 16 then room.index colour else room.sharedIndex colour) = .ok i ∧
    room[i]? = some s ∧ colour.Alike s := by
  have hbands : ∀ s ∈ room, ∃ r g b rest, s = .bands (r :: g :: b :: rest) := by
    intro s hs
    obtain ⟨r, g, b, rest, hs, -⟩ := h.bands s hs
    exact ⟨r, g, b, rest, hs⟩
  obtain ⟨t, ht, x, y, z, more, -, hx, -⟩ := id hcolour
  have hindex : ∃ i s, room.index colour = .ok i ∧ room[i]? = some s ∧ colour.Alike s := by
    rcases findFrom_alike hbands hx 0 with ⟨n, s, hfind, hget, halike⟩ | ⟨-, hnone⟩
    · refine ⟨n, s, ?_, hget, halike⟩
      rw [Palette.index, hfind, Nat.zero_add]
      rfl
    · obtain ⟨s, hs, halike⟩ := hcolour
      exact absurd halike (hnone s hs)
  split
  · exact hindex
  · have hlater : ∀ s ∈ room.drop Palette.sharedStart, ∃ r g b rest, s = .bands (r :: g :: b :: rest) :=
      fun s hs => hbands s (mem_of_mem_drop hs)
    rcases findFrom_alike hlater hx Palette.sharedStart with ⟨n, s, hfind, hget, halike⟩ | ⟨hfind, -⟩
    · refine ⟨Palette.sharedStart + n, s, ?_, ?_, halike⟩
      · rw [Palette.sharedIndex, hfind]
        rfl
      · rwa [getElem?_drop] at hget
    · rw [Palette.sharedIndex, hfind]
      exact hindex

end Rooms

namespace Costume

section Palettes

variable {palette room : Palette}

theorem exists_paletteMap (hroom : room.Valid) (hpalette : ∀ s ∈ palette, ∃ t ∈ room, s.Alike t) :
    ∃ (entries : List Int) (given : Palette), Draft.paletteMap palette room = .ok (entries.map Json.int) ∧
    entries.mapM (Position.look room) = .ok given ∧ entries.length = palette.length ∧
    List.Forall₂ Shade.Alike palette given ∧ ∀ s ∈ given, s ∈ room := by
  induction palette with
  | nil => exact ⟨[], [], rfl, rfl, rfl, .nil, fun s hs => by cases hs⟩
  | cons colour rest ih =>
    obtain ⟨entries, given, hmap, hlook, hlength, halike, hmem⟩ := ih fun s hs => hpalette s (mem_cons_of_mem _ hs)
    obtain ⟨i, s, hindex, hget, hcolour⟩ := hroom.roomIndex (hpalette colour mem_cons_self)
    refine ⟨i :: entries, s :: given, ?_, ?_, congrArg Nat.succ hlength, .cons hcolour halike, ?_⟩
    · rw [Draft.paletteMap] at hmap ⊢
      rw [mapM_cons, hmap]
      by_cases hsize : room.length = 16
      · rw [if_pos hsize] at hindex
        simp only [if_pos hsize, hindex]
        rfl
      · rw [if_neg hsize] at hindex
        simp only [if_neg hsize, hindex]
        rfl
    · rw [mapM_cons, look_of_getElem? hget, hlook]
      rfl
    · intro t ht
      rcases mem_cons.1 ht with rfl | ht
      · exact mem_of_getElem? hget
      · exact hmem t ht

theorem exists_pictBytes {given : Palette} (hgiven : Recoloured palette given) {redirectable : Bool}
    {drawn : List Pict} (hdrawn : ∀ p ∈ drawn, p.Formed redirectable palette) :
    ∃ picts : List (List Int), drawn.mapM (fun p => (PictEntry.of p).encode palette redirectable)
    = .ok (picts.map fun bytes => bytes.map Json.int) ∧ List.Forall₂ (fun p bytes => 1 < bytes.length ∧ ∀ limb, ∃ q,
    Pict.decode bytes limb redirectable given = .ok q ∧ q.Same p) drawn picts := by
  induction drawn with
  | nil => exact ⟨[], rfl, .nil⟩
  | cons p rest ih =>
    obtain ⟨picts, hpicts, hread⟩ := ih fun q hq => hdrawn q (mem_cons_of_mem _ hq)
    obtain ⟨bytes, hbytes, hpos, hdecode⟩ := (hdrawn p mem_cons_self).restored hgiven
    refine ⟨bytes :: picts, ?_, .cons ⟨hpos, hdecode⟩ hread⟩
    rw [mapM_cons, hbytes, hpicts]
    rfl

end Palettes

/-! ### Costumes as they are read -/

/-- A costume as it is read from data: the settings are those of their two bytes, every slot has a number,
and animations, limbs and pictures are numbered in the order of first use. -/
structure Formed (c : Costume) : Prop where
  settings : Settings.decode c.settings.encode = .ok c.settings
  animCount : 1 ≤ c.settings.animCount ∧ c.settings.animCount ≤ 256
  palette : (c.palette.length : Int) = c.settings.paletteSize
  animSlots : (c.animMap.length : Int) = c.settings.animCount
  animMap : numberedTo 0 c.animMap = some c.anims.length
  anims : ∀ anim ∈ c.anims, FormedAnimation anim
  limbSlots : c.limbMap.length = 16
  limbMap : numberedTo 0 c.limbMap = some c.limbs.length
  limbs : ∀ map ∈ c.limbs, ∃ v ∈ map, v ≠ -1
  pictMap : numberedTo 0 c.limbs.flatten = some c.picts.length
  picts : ∀ p ∈ c.picts, p.Formed c.settings.redirectable c.palette

/-- A costume as it is read from data, but for limbs that may show nothing. -/
structure Shaped (c : Costume) : Prop where
  settings : Settings.decode c.settings.encode = .ok c.settings
  animCount : 1 ≤ c.settings.animCount ∧ c.settings.animCount ≤ 256
  palette : (c.palette.length : Int) = c.settings.paletteSize
  animSlots : (c.animMap.length : Int) = c.settings.animCount
  animMap : numberedTo 0 c.animMap = some c.anims.length
  anims : ∀ anim ∈ c.anims, FormedAnimation anim
  limbSlots : c.limbMap.length = 16
  limbMap : numberedTo 0 c.limbMap = some c.limbs.length
  limbs : ∀ map ∈ c.limbs, map ≠ []
  pictMap : numberedTo 0 c.limbs.flatten = some c.picts.length
  picts : ∀ p ∈ c.picts, p.Formed c.settings.redirectable c.palette

theorem Formed.shaped {c : Costume} (h : c.Formed) : c.Shaped :=
  { h with
    limbs := fun map hmap => by
      obtain ⟨v, hv, -⟩ := h.limbs map hmap
      exact ne_nil_of_mem hv }

/-- Costumes with the same settings, commands, animations, limbs and pictures, whose colours agree in three
bands. -/
structure Same (d c : Costume) : Prop where
  settings : d.settings = c.settings
  palette : List.Forall₂ Shade.Alike c.palette d.palette
  commands : d.commands = c.commands
  animMap : d.animMap = c.animMap
  anims : d.anims = c.anims
  limbMap : d.limbMap = c.limbMap
  limbs : d.limbs = c.limbs
  picts : List.Forall₂ Pict.Same d.picts c.picts

/-! ### The layout of the data -/

section Layout

variable (c : Costume) (version : String) (entries : List Int) (picts : List (List Int))

def animsAt : Int := (bases version).2 + 2 + c.settings.paletteSize + 2 + 32 + c.settings.animCount * 2

def animBytes : List (List Int) := c.anims.map animationBytes

def commandsAt : Int := c.animsAt version + c.animBytes.flatten.length

def limbsAt : Int := c.commandsAt version + c.commands.length

def limbLengths : List Nat := c.limbs.map fun map => 2 * map.length

def pictsAt : Int := c.limbsAt version + (c.limbLengths.sum : Nat)

def limbBytes : List (List Int) :=
  c.limbs.map (tableBytes (picts.map List.length) (c.pictsAt version) (bases version).1 0)

def front : List Int :=
  Draft.header version (c.pictsAt version + picts.flatten.length) ++ c.settings.encode ++ entries
    ++ Word.toLE 2 (c.commandsAt version - (bases version).1)
    ++ tableBytes c.limbLengths (c.limbsAt version) (bases version).1 (c.pictsAt version - (bases version).1) c.limbMap
    ++ tableBytes (c.animBytes.map List.length) (c.animsAt version) (bases version).1 0 c.animMap

def bytes : List Int :=
  c.front version entries picts ++ c.animBytes.flatten ++ c.commands ++ (c.limbBytes version picts).flatten ++ picts.flatten

end Layout

section Writing

variable {c : Costume} {version : String} {room : Palette} {entries : List Int} {picts : List (List Int)} (xs : List Int)

theorem length_tableBytes (lengths : List Nat) (start base null : Int) (map : List Int) :
    (tableBytes lengths start base null map).length = 2 * map.length := by
  rw [tableBytes, length_flatMap, map_congr_left fun v _ => Word.length_toLE 2 v, map_const',
    sum_replicate_nat, length_map, Nat.mul_comm]

theorem length_limbBytes : (c.limbBytes version picts).map List.length = c.limbLengths := by
  rw [limbBytes, map_map]
  exact map_congr_left fun map _ => length_tableBytes _ _ _ _ map

theorem items_ofInts : (Json.ofInts xs).items = .ok (xs.map Json.int) := rfl

theorem length_ofInts : (Json.ofInts xs).length = .ok xs.length := congrArg Except.ok (length_map _)

theorem Shaped.pict_of_mem (h : c.Shaped) {map : List Int} (hmap : map ∈ c.limbs) {v : Int} (hv : v ∈ map) :
    v = -1 ∨ 0 ≤ v ∧ v < c.picts.length := mem_of_numberedTo h.pictMap (mem_flatten.2 ⟨map, hmap, hv⟩)

theorem Shaped.encode_eq (h : c.Shaped) (hmap : Draft.paletteMap c.palette room = .ok (entries.map Json.int))
    (hpicts : c.picts.mapM (fun p => (PictEntry.of p).encode c.palette c.settings.redirectable)
    = .ok (picts.map fun bytes => bytes.map Json.int)) (hlength : picts.length = c.picts.length) :
    (Draft.of c).encode version room = .ok ((c.bytes version entries picts).map Json.int) := by
  have hanims : (c.anims.map fun anim => anim.map SubanimationEntry.of).mapM encodeAnimation
      = .ok (c.animBytes.map fun bytes => bytes.map Json.int) := by
    rw [mapM_map_ok fun anim hanim => (h.anims anim hanim).encode, animBytes, map_map]
    rfl
  have hdraws : (c.picts.map PictEntry.of).mapM (fun p => p.encode c.palette c.settings.redirectable)
      = .ok (picts.map fun bytes => bytes.map Json.int) := by
    rw [mapM_map]
    exact hpicts
  have hlengths : (c.limbs.map Json.ofInts).mapM (fun l => return 2 * (← l.length))
      = .ok c.limbLengths := by
    refine mapM_map_ok fun map _ => ?_
    rw [length_ofInts]
    rfl
  have hlimbs : (c.limbs.map Json.ofInts).mapM (fun l => do
        encodeOffsets (picts.map List.length) (c.pictsAt version - (bases version).1) (← l.items) false)
      = .ok (c.limbBytes version picts) := by
    refine mapM_map_ok fun map hmem => ?_
    refine encodeOffsets_eq _ false fun v hv => ?_
    rw [length_map, hlength]
    exact h.pict_of_mem hmem hv
  have hlimbTable : encodeOffsets c.limbLengths (c.limbsAt version - (bases version).1) (c.limbMap.map Json.int) true
      = .ok (tableBytes c.limbLengths (c.limbsAt version) (bases version).1
          (c.pictsAt version - (bases version).1) c.limbMap) := by
    have hnull : nullOffset c.limbLengths (c.limbsAt version - (bases version).1) true
        = c.pictsAt version - (bases version).1 := by
      rw [nullOffset, if_pos rfl, pictsAt]
      omega
    rw [← hnull]
    refine encodeOffsets_eq _ true fun v hv => ?_
    rw [limbLengths, length_map]
    exact mem_of_numberedTo h.limbMap hv
  have hanimTable : encodeOffsets (c.animBytes.map List.length) (c.animsAt version - (bases version).1)
        (c.animMap.map Json.int) false
      = .ok (tableBytes (c.animBytes.map List.length) (c.animsAt version) (bases version).1 0 c.animMap) := by
    refine encodeOffsets_eq _ false fun v hv => ?_
    rw [length_map, animBytes, length_map]
    exact mem_of_numberedTo h.animMap hv
  have hflatten : ∀ xs : List (List Int), (xs.map fun bytes => bytes.map Json.int).flatten = xs.flatten.map Json.int :=
    fun xs => (map_flatten).symm
  have hmapLength : ∀ xs : List (List Int), (xs.map fun bytes => bytes.map Json.int).map List.length = xs.map List.length := by
    intro xs
    rw [map_map]
    exact map_congr_left fun bytes _ => length_map _
  have hanimsAt : (bases version).2 + 2 + c.settings.paletteSize + 2 + 32 + c.settings.animCount * 2 = c.animsAt version := rfl
  have hcommandsAt : c.animsAt version + c.animBytes.flatten.length = c.commandsAt version := rfl
  have hlimbsAt : c.commandsAt version + (c.commands.length) = c.limbsAt version := rfl
  have hpictsAt : c.limbsAt version + ((c.limbLengths.foldr (· + ·) 0 : Nat)) = c.pictsAt version := rfl
  simp only [Bind.bind, Except.bind, pure, Except.pure] at hlengths hlimbs
  simp only [Draft.encode, Draft.of, Draft.less, Json.integer, Json.truth, items_ofInts, length_ofInts, hmap, hanims,
    hdraws, hlengths, hlimbs, hlimbTable, hanimTable, hanimsAt, hcommandsAt, hlimbsAt, hpictsAt, length_limbBytes,
    hmapLength, hflatten, Bind.bind, Except.bind, pure, Except.pure, length_map]
  simp only [bytes, front, Settings.encode, map_append, map_cons, map_nil]

end Writing

/-! ### Data that were written -/

/-- What is known of written data: the entries stand for the colours, and every picture is read from its own
bytes under the colours that are read. -/
structure Written (c : Costume) (version : String) (given : Palette) (entries : List Int) (picts : List (List Int)) : Prop where
  shaped : c.Shaped
  known : version = "4" ∨ version = "5"
  coloured : entries.length = c.palette.length
  drawn : List.Forall₂ (fun p bytes => 1 < bytes.length ∧ ∀ limb, ∃ q,
    Pict.decode bytes limb c.settings.redirectable given = .ok q ∧ q.Same p) c.picts picts
  short : (c.bytes version entries picts).length < 65536

section Reading

variable {c : Costume} {version : String} {given : Palette} {entries : List Int} {picts : List (List Int)}

theorem Written.base_bounds (h : c.Written version given entries picts) :
    (0 ≤ (bases version).1 ∧ (bases version).1 ≤ 2) ∧ 6 ≤ (bases version).2 ∧
    ∀ n, ((Draft.header version n).length : Int) = (bases version).2 := by
  rcases h.known with rfl | rfl
  · exact ⟨by decide, by decide, fun _ => rfl⟩
  · exact ⟨by decide, by decide, fun _ => rfl⟩

theorem Shaped.paletteSize_eq (h : c.Shaped) : c.settings.paletteSize = 16 + 16 * (c.settings.formatByte % 2) := by
  have hsettings : Settings.decode c.settings.encode
      = .ok ⟨c.settings.animCount - 1 + 1, c.settings.formatByte, 16 + 16 * (c.settings.formatByte % 2),
        !Bits.test c.settings.formatByte 6, c.settings.formatByte % 0x80 / 2 = 0x30⟩ := rfl
  rw [h.settings] at hsettings
  exact congrArg Settings.paletteSize (Except.ok.inj hsettings)

theorem cut_next {data before piece after : List Int} {start stop : Int} (hdata : data = before ++ (piece ++ after))
    (hstart : (before.length : Int) = start) (hstop : start + piece.length = stop) :
    Position.cut data start stop = piece ∧ data = before ++ piece ++ after ∧ ((before ++ piece).length : Int) = stop := by
  rw [← append_assoc] at hdata
  refine ⟨cut_at before piece ⟨after, hdata.symm⟩ hstart hstop, hdata, ?_⟩
  rw [length_append, Int.natCast_add, hstart, hstop]

/-- The pieces of the front follow each other, and the animations follow them. -/
theorem Written.cut_front (h : c.Written version given entries picts) :
    Position.cut (c.bytes version entries picts) (bases version).2 ((bases version).2 + 2) = c.settings.encode ∧
    Position.cut (c.bytes version entries picts) ((bases version).2 + 2) ((bases version).2 + 2 + c.settings.paletteSize) = entries ∧
    Position.cut (c.bytes version entries picts) ((bases version).2 + 2 + c.settings.paletteSize)
      ((bases version).2 + 2 + c.settings.paletteSize + 2) = Word.toLE 2 (c.commandsAt version - (bases version).1) ∧
    Position.cut (c.bytes version entries picts) ((bases version).2 + 2 + c.settings.paletteSize + 2)
      ((bases version).2 + 2 + c.settings.paletteSize + 2 + 32)
      = tableBytes c.limbLengths (c.limbsAt version) (bases version).1 (c.pictsAt version - (bases version).1) c.limbMap ∧
    Position.cut (c.bytes version entries picts) ((bases version).2 + 2 + c.settings.paletteSize + 2 + 32)
      ((bases version).2 + 2 + c.settings.paletteSize + 2 + 32 + 2 * c.settings.animCount)
      = tableBytes (c.animBytes.map List.length) (c.animsAt version) (bases version).1 0 c.animMap ∧
    ((c.front version entries picts).length : Int) = c.animsAt version := by
  have hdata : c.bytes version entries picts = c.bytes version entries picts := rfl
  conv_rhs at hdata => simp only [bytes, front, append_assoc]
  obtain ⟨hsettings, hdata, hlength⟩ := cut_next hdata (h.base_bounds.2.2 _) rfl
  obtain ⟨hentries, hdata, hlength⟩ := cut_next hdata hlength (by rw [h.coloured, h.shaped.palette])
  obtain ⟨hword, hdata, hlength⟩ := cut_next hdata hlength (by rw [Word.length_toLE])
  obtain ⟨hlimbs, hdata, hlength⟩ := cut_next hdata hlength (by rw [length_tableBytes, h.shaped.limbSlots])
  obtain ⟨hanims, -, hlength⟩ := cut_next hdata hlength (by
    rw [length_tableBytes, Int.natCast_mul 2 c.animMap.length, h.shaped.animSlots])
  refine ⟨hsettings, hentries, hword, hlimbs, hanims, ?_⟩
  rw [animsAt, Int.mul_comm c.settings.animCount]
  exact hlength

section

variable (h : c.Written version given entries picts)

include h

theorem Written.length_front : ((c.front version entries picts).length : Int) = c.animsAt version := h.cut_front.2.2.2.2.2

theorem Written.length_before_limbs :
    ((c.front version entries picts ++ c.animBytes.flatten ++ c.commands).length : Int) = c.limbsAt version := by
  rw [length_append, length_append, Int.natCast_add, Int.natCast_add, h.length_front]
  rfl

theorem Written.length_before_picts : ((c.front version entries picts ++ c.animBytes.flatten ++ c.commands
    ++ (c.limbBytes version picts).flatten).length : Int) = c.pictsAt version := by
  rw [length_append, length_flatten, length_limbBytes, Int.natCast_add, h.length_before_limbs]
  rfl

theorem Written.length_bytes : ((c.bytes version entries picts).length : Int) = c.pictsAt version + picts.flatten.length := by
  rw [bytes, length_append, Int.natCast_add, h.length_before_picts]

theorem Written.bounds :
    2 < c.animsAt version ∧ c.animsAt version ≤ c.commandsAt version ∧ c.commandsAt version ≤ c.limbsAt version ∧
    c.limbsAt version ≤ c.pictsAt version ∧ c.pictsAt version + picts.flatten.length < 65536 := by
  have hlength := h.length_bytes
  have hshort := h.short
  have hheader := h.base_bounds.2.1
  have hpalette := h.shaped.palette
  have hcount := h.shaped.animCount
  refine ⟨?_, ?_, ?_, ?_, ?_⟩
  · rw [animsAt]
    omega
  · rw [commandsAt]
    omega
  · rw [limbsAt]
    omega
  · rw [pictsAt]
    omega
  · omega

theorem Written.cut_commands :
    Position.cut (c.bytes version entries picts) (c.commandsAt version) (c.limbsAt version) = c.commands := by
  refine cut_at (c.front version entries picts ++ c.animBytes.flatten) _ ?_ ?_ rfl
  · simp [bytes]
  · rw [length_append, Int.natCast_add, h.length_front]
    rfl

end

end Reading

end Costume

end ScummKit
