import ScummKit.Proofs.Script.Ledgers
import ScummKit.Script.Layout

/-!
# The offsets of jumps

Filling in offsets does not change the length of a line, so every offset can be said in terms of the
lines as they were read: it is the distance from behind the jump to the line of its label
(`displacement`). Either every jump has a label within reach and gets its offset, or the layout is
refused (`resolve_eq`).
-/

namespace ScummKit.Script.Layout

open List
open Statement (hole)

def position (lines : List Code) (n : Nat) : Nat := (lines.take n).flatten.length

def displacement (lines : List Code) (line target : Nat) : Int := position lines target - position lines (line + 1)

def wordOf (d : Int) : Code :=
  let v := (d % 65536).toNat
  [UInt8.ofNat (v % 256), UInt8.ofNat (v / 256)]

/-- The number that two bytes stand for, least significant first. The upper half of the numbers are
negative ones. -/
def signedWord : Code → Int
  | [lo, hi] => Int.bmod (lo.toNat + 256 * hi.toNat) 65536
  | _ => 0

def Reachable (d : Int) : Prop := -reach ≤ d ∧ d ≤ reach

instance (d : Int) : Decidable (Reachable d) := inferInstanceAs (Decidable (_ ∧ _))

section Numbers

variable {d : Int} {code : Code}

theorem byte_eq_ok : Field.byte d = .ok code ↔ (-128 ≤ d ∧ d ≤ 255) ∧ code = [UInt8.ofNat (d % 256).toNat] := by
  have hmasked : Field.masked d none 8 = (d % 256).toNat := rfl
  rw [Field.byte, Field.byteWith]
  grind [Field.allows]

theorem word_eq_ok : Field.word d = .ok code ↔ (-32768 ≤ d ∧ d ≤ 65535) ∧ code = wordOf d := by
  have hmasked : Field.masked d none 16 = (d % 65536).toNat := rfl
  rw [Field.word, Field.wordWith]
  grind [Field.allows, wordOf]

theorem signedWord_pair (lo hi : UInt8) : signedWord [lo, hi] = Int.bmod ((lo.toNat : Int) + 256 * hi.toNat) 65536 := rfl

theorem signedWord_bytes {v : Nat} (hv : v < 65536) :
    signedWord [UInt8.ofNat (v % 256), UInt8.ofNat (v / 256)] = Int.bmod v 65536 := by
  have hlo : (UInt8.ofNat (v % 256)).toNat = v % 256 := by
    rw [UInt8.toNat_ofNat']
    omega
  have hhi : (UInt8.ofNat (v / 256)).toNat = v / 256 := by
    rw [UInt8.toNat_ofNat']
    omega
  have hsum : ((UInt8.ofNat (v % 256)).toNat : Int) + 256 * (UInt8.ofNat (v / 256)).toNat = v := by
    omega
  rw [signedWord_pair, hsum]

theorem signedWord_wordOf (h : Reachable d) : signedWord (wordOf d) = d := by
  have h1 : -32767 ≤ d := h.1
  have h2 : d ≤ 32767 := h.2
  rw [wordOf, signedWord_bytes (by omega), Int.bmod_def]
  omega

theorem length_wordOf : (wordOf d).length = 2 := rfl

end Numbers

section Positions

variable {lines : List Code} {line target start stop : Nat}

theorem position_add {start n : Nat} : position lines (start + n)
    = position lines start + ((lines.drop start).take n).flatten.length := by
  rw [position, position, take_add, flatten_append, length_append]

theorem span_eq (hle : start ≤ stop) (hstop : stop ≤ lines.length) :
    span lines start stop = .ok (position lines stop - position lines start) := by
  obtain ⟨n, rfl⟩ := Nat.exists_eq_add_of_le hle
  have hsum : position lines (start + n) - position lines start = ((lines.drop start).take n).flatten.length := by
    rw [position_add, Nat.add_sub_cancel_left]
  rw [hsum, span, Nat.add_sub_cancel_left]
  by_cases hn : start + n ≤ start
  · obtain rfl : n = 0 := by omega
    rw [if_pos hn]
    rfl
  · rw [if_neg hn, if_pos hstop]

theorem position_mono (hle : start ≤ stop) : position lines start ≤ position lines stop := by
  obtain ⟨n, rfl⟩ := Nat.exists_eq_add_of_le hle
  rw [position_add]
  exact Nat.le_add_right _ _

theorem offset_eq (hline : line < lines.length) (htarget : target ≤ lines.length) :
    offset lines line target = .ok (displacement lines line target) := by
  rw [offset, displacement]
  split
  · have hmono : position lines target ≤ position lines (line + 1) := position_mono (by omega)
    rw [span_eq (by omega) (show line + 1 ≤ lines.length from hline)]
    change Except.ok _ = _
    congr 1
    omega
  · have hmono : position lines (line + 1) ≤ position lines target := position_mono (by omega)
    rw [span_eq (by omega) htarget]
    change Except.ok _ = _
    congr 1
    omega

theorem position_congr {ls : List Code} (h : lines.map List.length = ls.map List.length) (n : Nat) :
    position lines n = position ls n := by
  rw [position, position, length_flatten, length_flatten, map_take, map_take, h]

end Positions

/-! ### Filling in -/

def patched (base : List Code) (d : Nat → Int) (s : List Nat) : List Code :=
  base.mapIdx fun i code => if i ∈ s then fill code (wordOf (d i)) else code

def Room (base : List Code) (line : Nat) : Prop := ∃ head, base[line]? = some (head ++ hole)

theorem fill_append (head tail bytes : Code) (h : tail.length = 2) : fill (head ++ tail) bytes = head ++ bytes := by
  rw [fill, length_append, h, take_left']
  rfl

section Patched

variable {base : List Code} {d : Nat → Int} {s : List Nat} {line target : Nat}

theorem Room.lt (h : Room base line) : line < base.length := by
  obtain ⟨head, hhead⟩ := h
  exact (List.getElem?_eq_some_iff.1 hhead).1

theorem getElem?_patched (i : Nat) : (patched base d s)[i]?
    = base[i]?.map fun code => if i ∈ s then fill code (wordOf (d i)) else code := by rw [patched, getElem?_mapIdx]

theorem patched_nil : patched base d [] = base := ext_getElem? fun i => by simp [getElem?_patched]

theorem patched_congr {s' : List Nat} (h : ∀ i, i ∈ s ↔ i ∈ s') : patched base d s = patched base d s' := by
  simp only [patched, h]

theorem patched_room {head : Code} (h : base[line]? = some (head ++ hole)) :
    ∃ tail, tail.length = 2 ∧ (patched base d s)[line]? = some (head ++ tail) := by
  rw [getElem?_patched, h, Option.map_some]
  split
  · exact ⟨wordOf (d line), rfl, by rw [fill_append head hole _ rfl]⟩
  · exact ⟨hole, rfl, rfl⟩

theorem length_patched : (patched base d s).length = base.length := length_mapIdx

theorem sizes_patched (hroom : ∀ i ∈ s, Room base i) : (patched base d s).map List.length = base.map List.length := by
  refine ext_getElem? fun i => ?_
  rw [getElem?_map, getElem?_map]
  by_cases hi : i ∈ s
  · obtain ⟨head, hhead⟩ := hroom i hi
    obtain ⟨tail, htail, hpatched⟩ := patched_room hhead
    rw [hpatched, hhead]
    simp [htail, hole]
  · rw [getElem?_patched]
    simp [hi]

theorem patched_set {head tail : Code} (hbase : base[line]? = some (head ++ hole))
    (htail : tail.length = 2) : (patched base d s).set line (fill (head ++ tail) (wordOf (d line)))
    = patched base d (line :: s) := by
  refine ext_getElem? fun i => ?_
  rw [getElem?_set, getElem?_patched, getElem?_patched, length_patched]
  split
  · rename_i hi
    subst hi
    have hlt : line < base.length := Room.lt ⟨head, hbase⟩
    rw [if_pos hlt, hbase]
    simp [fill_append head _ _ htail, fill_append head hole _ rfl]
  · rename_i hi
    simp [Ne.symm hi]

theorem setOffset_some {lines : List Code} {line : Nat} {code : Code} {d : Int}
    (hoffset : offset lines line target = .ok d) (hcode : lines[line]? = some code) :
    setOffset target lines line = if d < -reach ∨ reach < d then
    .error (.compiling ("Jump is too large: " ++ toString d ++ " (meaningful line: " ++ toString line ++ ")"))
    else do return lines.set line (fill code (← Field.word d)) := by
  rw [setOffset, hoffset, hcode]
  rfl

theorem setOffset_eq (hroom : ∀ i ∈ line :: s, Room base i) (htarget : target ≤ base.length)
    (hd : d line = displacement base line target) : (Reachable (d line) ∧
    setOffset target (patched base d s) line = .ok (patched base d (line :: s))) ∨
    (¬Reachable (d line) ∧ ∃ msg, setOffset target (patched base d s) line = .error (.compiling msg)) := by
  obtain ⟨hline, hdone⟩ := forall_mem_cons.1 hroom
  obtain ⟨head, hhead⟩ := hline
  obtain ⟨tail, htail, hpatched⟩ := patched_room hhead
  have hoffset : offset (patched base d s) line target = .ok (d line) := by
    rw [offset_eq (by rw [length_patched]; exact Room.lt ⟨head, hhead⟩) (by rw [length_patched]; exact htarget), hd]
    simp only [displacement, position_congr (sizes_patched hdone)]
  by_cases hreach : Reachable (d line)
  · refine .inl ⟨hreach, ?_⟩
    obtain ⟨h1, h2⟩ := hreach
    rw [setOffset_some hoffset hpatched, if_neg (by omega), word_eq_ok.2 ⟨by simp only [reach] at *; omega, rfl⟩]
    exact congrArg Except.ok (patched_set hhead htail)
  · refine .inr ⟨hreach, ?_⟩
    have hout : d line < -reach ∨ reach < d line := by
      simp only [Reachable] at hreach
      omega
    rw [setOffset_some hoffset hpatched, if_pos hout]
    exact ⟨_, rfl⟩

end Patched

/-! ### All jumps -/

section Resolve

variable {base : List Code} {d : Nat → Int} {s : List Nat} {target : Nat}
variable {jumps : List (String × List Nat)} {labels : List (String × Nat)}

theorem foldlM_setOffset {lines : List Nat} (hroom : ∀ i ∈ lines ++ s, Room base i)
    (htarget : target ≤ base.length) (hd : ∀ i ∈ lines, d i = displacement base i target) :
    ((∀ i ∈ lines, Reachable (d i)) ∧ lines.foldlM (setOffset target) (patched base d s) = .ok (patched base d (lines ++ s))) ∨
    ((∃ i ∈ lines, ¬Reachable (d i)) ∧ ∃ msg, lines.foldlM (setOffset target) (patched base d s) = .error (.compiling msg)) := by
  induction lines generalizing s with
  | nil => exact .inl ⟨by simp, rfl⟩
  | cons line lines ih =>
    obtain ⟨hline, hrest⟩ := forall_mem_cons.1 hroom
    obtain ⟨hlines, hdone⟩ := forall_mem_append.1 hrest
    obtain ⟨hdline, hdlines⟩ := forall_mem_cons.1 hd
    rw [foldlM_cons]
    have hstep := setOffset_eq (forall_mem_cons.2 ⟨hline, hdone⟩) htarget hdline
    rcases hstep with ⟨hreach, hstep⟩ | ⟨hreach, msg, hstep⟩
    · have hih := ih (forall_mem_append.2 ⟨hlines, forall_mem_cons.2 ⟨hline, hdone⟩⟩) hdlines
      have hsame : patched base d (lines ++ line :: s) = patched base d (line :: lines ++ s) :=
        patched_congr fun i => by simp [or_left_comm]
      rw [hsame] at hih
      rw [hstep]
      refine hih.imp (fun h => ⟨forall_mem_cons.2 ⟨hreach, h.1⟩, h.2⟩) fun h => ⟨?_, h.2⟩
      exact h.1.imp fun i hi => ⟨mem_cons_of_mem _ hi.1, hi.2⟩
    · refine .inr ⟨⟨line, mem_cons_self, hreach⟩, msg, ?_⟩
      rw [hstep]
      rfl

def Settled (labels : List (String × Nat)) (d : Nat → Int) (p : String × Nat) : Prop :=
  (Table.find? p.1 labels).isSome ∧ Reachable (d p.2)

/-- A table of jumps fits the lines: each jump has room, each of its labels stands in the lines, and
`d` is how far it is to it. -/
structure Fits (base : List Code) (d : Nat → Int) (labels : List (String × Nat)) (jumps : List (String × List Nat)) : Prop where
  filled : ∀ entry ∈ jumps, entry.2 ≠ []
  room : ∀ p ∈ Ledger.pairsOf jumps, Room base p.2
  target : ∀ p ∈ Ledger.pairsOf jumps, ∀ t, Table.find? p.1 labels = some t → t ≤ base.length
  distance : ∀ p ∈ Ledger.pairsOf jumps, ∀ t, Table.find? p.1 labels = some t → d p.2 = displacement base p.2 t

theorem foldlM_setLabel (h : Fits base d labels jumps) (hs : ∀ i ∈ s, Room base i) :
    ((∀ p ∈ Ledger.pairsOf jumps, Settled labels d p) ∧ jumps.foldlM (setLabel labels) (patched base d s)
    = .ok (patched base d ((Ledger.pairsOf jumps).map Prod.snd ++ s))) ∨ ((∃ p ∈ Ledger.pairsOf jumps, ¬Settled labels d p) ∧
    ∃ msg, jumps.foldlM (setLabel labels) (patched base d s) = .error (.compiling msg)) := by
  induction jumps generalizing s with
  | nil => exact .inl ⟨by simp [Ledger.pairsOf], rfl⟩
  | cons entry jumps ih =>
    obtain ⟨key, lines⟩ := entry
    have hpairs : Ledger.pairsOf ((key, lines) :: jumps) = lines.map (key, ·) ++ Ledger.pairsOf jumps := rfl
    have hhere : ∀ i ∈ lines, (key, i) ∈ Ledger.pairsOf ((key, lines) :: jumps) := fun i hi => by
      exact mem_append_left _ (mem_map_of_mem hi)
    have hlater : ∀ p ∈ Ledger.pairsOf jumps, p ∈ Ledger.pairsOf ((key, lines) :: jumps) :=
      fun p hp => by
        exact mem_append_right _ hp
    have hfits : Fits base d labels jumps :=
      ⟨fun e he => h.filled e (mem_cons_of_mem _ he), fun p hp => h.room p (hlater p hp),
        fun p hp => h.target p (hlater p hp), fun p hp => h.distance p (hlater p hp)⟩
    obtain ⟨first, hfirst⟩ := exists_mem_of_ne_nil lines (h.filled _ mem_cons_self)
    rw [foldlM_cons, setLabel]
    cases htarget : Table.find? key labels with
    | none =>
      refine .inr ⟨⟨(key, first), hhere first hfirst, fun hsettled => ?_⟩, _, rfl⟩
      rw [Settled, htarget] at hsettled
      exact absurd hsettled.1 (by simp)
    | some t =>
      have hroom : ∀ i ∈ lines ++ s, Room base i := forall_mem_append.2 ⟨fun i hi => h.room _ (hhere i hi), hs⟩
      have hlabel := foldlM_setOffset hroom (h.target _ (hhere first hfirst) t htarget)
        fun i hi => h.distance _ (hhere i hi) t htarget
      rcases hlabel with ⟨hreach, hlabel⟩ | ⟨⟨i, hi, hreach⟩, msg, hlabel⟩
      · have hsettled : ∀ p ∈ lines.map (key, ·), Settled labels d p := by
          rintro p hp
          obtain ⟨i, hi, rfl⟩ := mem_map.1 hp
          exact ⟨by rw [htarget]; rfl, hreach i hi⟩
        have hsame : patched base d ((Ledger.pairsOf jumps).map Prod.snd ++ (lines ++ s))
            = patched base d ((Ledger.pairsOf ((key, lines) :: jumps)).map Prod.snd ++ s) :=
          patched_congr fun i => by
            rw [hpairs]
            simp [or_left_comm]
        have hih := ih hfits hroom
        rw [hsame] at hih
        dsimp only
        rw [hlabel]
        refine hih.imp (fun h => ⟨?_, h.2⟩) fun h => ⟨?_, h.2⟩
        · exact forall_mem_append.2 ⟨hsettled, h.1⟩
        · exact h.1.imp fun p hp => ⟨hlater p hp.1, hp.2⟩
      · refine .inr ⟨⟨(key, i), hhere i hi, fun hsettled => hreach hsettled.2⟩, msg, ?_⟩
        dsimp only
        rw [hlabel]
        rfl

/-- The layout fills in the offsets of all jumps, if each has a label within reach, and is refused
otherwise. -/
theorem resolve_eq (h : Fits base d labels jumps) : ((∀ p ∈ Ledger.pairsOf jumps, Settled labels d p) ∧
    resolve jumps labels base = .ok (patched base d ((Ledger.pairsOf jumps).map Prod.snd))) ∨
    ((∃ p ∈ Ledger.pairsOf jumps, ¬Settled labels d p) ∧ ∃ msg, resolve jumps labels base = .error (.compiling msg)) := by
  have hfold := foldlM_setLabel (s := []) h (by simp)
  rwa [patched_nil, append_nil] at hfold

end Resolve

end ScummKit.Script.Layout
