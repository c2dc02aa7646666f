import ScummKit.Proofs.Pack.Directories

/-!
# Tables of rooms

The index of an old game tells on which disk each room is, for a fixed number of rooms. A room whose number is
not below it has no entry, whatever disk it was written to. The names of the rooms are kept when a game is taken
apart, but when it is put together again no block of the index is made from them (`room_listed_iff`).
-/

namespace ScummKit.Pack.Job

open List

variable {s : State} {disks : List (Key × Int)} {slots : Int}

def listedDisk (disks : List (Key × Int)) (room : Nat) : Int := (Table.find? (.number room) disks).getD 0

/-- The rows of a table of rooms: the disk of each room, and a place that is not used. -/
def roomEntries (disks : List (Key × Int)) (slots : Nat) : List (Int × Int) := (range slots).map fun room => (listedDisk disks room, 0)

section

variable (h : s.tables.rows s.format.diskName = .ok disks)

include h

theorem does_diskOf (room : Nat) : Does (diskOf room) s (listedDisk disks room) s := by
  have hrun : (diskOf room).run.run s = (do
      return (← find? (ofExcept (s.tables.fetch s.format.diskName (.number room)))).getD 0 : Job Int).run.run s := rfl
  rw [Does, hrun, Tables.fetch, h, listedDisk]
  dsimp only [bind, Except.bind]
  cases Table.find? (.number room) disks <;> rfl

theorem does_roomRows (hend : s.AtEnd) (rooms : List Nat) : Does (rooms.forM fun room => do
      emit (le 1 (← diskOf room) ++ le 4 0)) s () (s.add (rooms.flatMap fun room => le 1 (listedDisk disks room) ++ le 4 0)) := by
  induction rooms generalizing s with
  | nil =>
    change (Except.ok (), s) = (Except.ok (), s.on _)
    rw [flatMap_nil, append_nil, ← show s.resource.pos = _ from hend]
    rfl
  | cons room rooms ih =>
    rw [flatMap_cons, ← State.add_add]
    exact ((does_diskOf h room).bind (does_emit hend _)).bind (ih h State.atEnd_add)

theorem does_writeRooms (hold : s.format.isOld = true) (hend : s.AtEnd) (hslots : Table.find? s.game Game.roomSlots = some slots)
    (h0 : 0 ≤ slots) : Does (writeRooms "0R") s () (s.add (directoryBytes s.format "0R" (roomEntries disks slots.toNat))) := by
  have hlength : ((roomEntries disks slots.toNat).length : Int) = slots := by
    rw [roomEntries, length_map, length_range, Int.toNat_of_nonneg h0]
  apply (does_get s).bind
  simp only [hslots, if_pos hold]
  rw [directoryBytes, hlength, rowBytes, if_pos hold, roomEntries, flatMap_map, ← State.add_add, ← State.add_add]
  refine Does.bind rfl ((does_writeLabel hend _).bind ((does_emit State.atEnd_add _).bind ?_))
  exact does_roomRows (s := (s.add _).add _) h State.atEnd_add _

end

/-- The blocks of the index are made from the states of the objects alone, so there is none for the names of the
rooms. The table of rooms gives the disk that a room was written to if and only if the number of the room is below
the number of rooms that the game is known to have. -/
theorem room_listed_iff (hold : s.format.isOld = true) (hslots : Table.find? s.game Game.roomSlots = some slots) :
    (∀ path, (loadIndex path).run.run s = (do
      return [.rooms "0R", .directory "0S", .directory "0N", .directory "0C",
        .objects "0O" (← loadXml path "dobj.xml" objectStatesIn)] : Job (List IndexBlock)).run.run s) ∧
    (s.AtEnd → s.tables.rows s.format.diskName = .ok disks → ∃ entries : List (Int × Int),
      Does (writeRooms "0R") s () (s.add (directoryBytes s.format "0R" entries)) ∧
      ∀ (room : Nat) (disk : Int), Table.find? (.number room) disks = some disk → (entries[room]? = some (disk, 0) ↔ room < slots)) := by
  have h0 : 0 ≤ slots := by
    have hall : ∀ e ∈ Game.roomSlots, 0 ≤ e.2 := by decide
    exact hall _ (Table.mem_of_find? hslots)
  refine ⟨fun path => ?_, fun hend hdisks => ⟨_, does_writeRooms hdisks hold hend hslots h0, fun room disk hdisk => ?_⟩⟩
  · have hrooms : Does (roomsBlock "0R") s (.rooms "0R") s := by
      refine (does_get s).bind ?_
      rw [hslots]
      rfl
    rw [loadIndex, (does_format s).run_bind, if_pos hold, hrooms.run_bind]
  · by_cases hlt : room < slots
    · rw [roomEntries, getElem?_map, getElem?_range (by omega), Option.map_some, listedDisk, hdisk]
      exact iff_of_true rfl hlt
    · rw [roomEntries, getElem?_map, getElem?_eq_none (by rw [length_range]; omega)]
      exact iff_of_false nofun hlt

/-- A job that wrote the rooms 5 and 99 to two disks. -/
def loomJob : State := { (default : State) with
  game := "LOOMCD", format := .four, tables := ⟨[("Disk", [(.number 5, 1), (.number 99, 2)])]⟩, resource := .start [] }

theorem room_listed_loomJob : ∃ entries, Does (writeRooms "0R") loomJob () (loomJob.add (directoryBytes .four "0R" entries)) ∧
    entries[5]? = some (1, 0) ∧ entries[99]? ≠ some (2, 0) := by
  have hslots : Table.find? loomJob.game Game.roomSlots = some 99 := by decide
  obtain ⟨entries, hwrite, hlisted⟩ := (room_listed_iff rfl hslots).2 rfl rfl
  exact ⟨entries, hwrite, (hlisted 5 1 rfl).2 (by decide), fun h => absurd ((hlisted 99 2 rfl).1 h) (by decide)⟩

end ScummKit.Pack.Job
