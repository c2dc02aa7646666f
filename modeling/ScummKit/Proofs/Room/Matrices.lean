import ScummKit.Box
import ScummKit.Proofs.Image.Cursor

/-!
# Matrices of boxes

Each table of a matrix ends with a mark. The reader stops when one byte or less is left, and a last table without rows is no more than its mark: it is lost, and all other tables are restored (`matrices_restored_iff`).
-/

namespace ScummKit.Box

open List

variable {tables : List (List Way)} {table : List Way}

def Way.octets (w : Way) : List Int := [w.first, w.last, w.through]

def wayTable (table : List Way) : List Int := table.flatMap Way.octets ++ [0xff]

theorem takeTable_octets (h : ∀ w ∈ table, w.first ≠ 0xff) (rest : List Int) : takeTable (wayTable table ++ rest) = .ok (table, rest) := by
  induction table with
  | nil =>
    change takeTable (0xff :: rest) = _
    unfold takeTable
    rw [if_pos rfl]
  | cons w table ih =>
    change takeTable (w.first :: w.last :: w.through :: (wayTable table ++ rest)) = _
    rw [takeTable, if_neg (h w mem_cons_self), ih fun v hv => h v (mem_cons_of_mem w hv)]
    rfl

/-- The tables that are found again: a last table without rows is not. -/
def found (tables : List (List Way)) : List (List Way) := if tables.getLast? = some [] then tables.dropLast else tables

theorem found_cons (h : ¬(tables = [] ∧ table = [])) : found (table :: tables) = table :: found tables := by
  cases tables with
  | nil => exact if_neg fun hlast => h ⟨rfl, Option.some.inj hlast⟩
  | cons next more =>
    exact (apply_ite (cons table) ..).symm

theorem found_eq_iff : found tables = tables ↔ tables.getLast? ≠ some [] := by
  refine ⟨fun heq hlast => ?_, fun hlast => if_neg hlast⟩
  rw [found, if_pos hlast] at heq
  have hlength := congrArg length heq
  cases tables with
  | nil => cases hlast
  | cons table more => simp at hlength

theorem length_le_octets (tables : List (List Way)) : tables.length ≤ (tables.flatMap wayTable).length := by
  induction tables with
  | nil => exact Nat.zero_le _
  | cons table tables ih =>
    rw [flatMap_cons, length_append, wayTable, length_append, length_cons, length_singleton]
    omega

theorem takeTables_octets (h : ∀ t ∈ tables, ∀ w ∈ t, w.first ≠ 0xff) {fuel : Nat} (hfuel : tables.length ≤ fuel) :
    takeTables fuel (tables.flatMap wayTable) = .ok (found tables) := by
  induction tables generalizing fuel with
  | nil => cases fuel <;> rfl
  | cons table tables ih =>
    obtain ⟨fuel, rfl⟩ : ∃ n, fuel = n + 1 := ⟨fuel - 1, by rw [length_cons] at hfuel; omega⟩
    have hrest := ih (fun t ht => h t (mem_cons_of_mem table ht)) (Nat.le_of_succ_le_succ hfuel)
    have htable := takeTable_octets (h table mem_cons_self) (tables.flatMap wayTable)
    rw [takeTables, flatMap_cons]
    by_cases hlast : tables = [] ∧ table = []
    · obtain ⟨rfl, rfl⟩ := hlast
      rfl
    -- more than the mark of one table is left
    have hmore : ¬(wayTable table ++ tables.flatMap wayTable).length ≤ 1 := by
      cases table with
      | cons w table => simp [wayTable, Way.octets]
      | nil =>
        obtain ⟨next, more, rfl⟩ := exists_cons_of_ne_nil fun hnil => hlast ⟨hnil, rfl⟩
        simp [wayTable]
    rw [if_neg hmore, htable]
    change (do return table :: (← takeTables fuel (tables.flatMap wayTable))) = _
    rw [hrest]
    exact congrArg Except.ok (found_cons hlast).symm

def matrixDocument (m : Json × List Way) : Json := .record [("index", m.1), ("table", .list (m.2.map Way.toJson))]

theorem encodeMatrices_eq (ms : List (Json × List Way)) :
    encodeMatrices (.list (ms.map matrixDocument)) = .ok (((ms.map Prod.snd).flatMap wayTable).map .int) := by
  have htable (m : Json × List Way) : tableBytes (matrixDocument m) = .ok ((wayTable m.2).map .int) := by
    change (do return (← (m.2.map Way.toJson).mapM wayBytes).flatten ++ [Json.int 0xff]) = _
    have hways : (m.2.map Way.toJson).mapM wayBytes = .ok (m.2.map fun w => w.octets.map .int) := mapM_map_ok fun w _ => rfl
    rw [hways, wayTable, map_append, map_flatMap]
    rfl
  change (do return (← (ms.map matrixDocument).mapM tableBytes).flatten) = _
  rw [mapM_map_ok fun m _ => htable m, map_flatMap, flatMap_map]
  rfl

/-- Matrices that are written and read again are the same exactly if the last table has rows. -/
theorem matrices_restored_iff (ms : List (Json × List Way)) (h : ∀ m ∈ ms, ∀ w ∈ m.2, w.first ≠ 0xff) :
    ∃ data : List Int, encodeMatrices (.list (ms.map matrixDocument)) = .ok (data.map .int)
      ∧ decodeMatrices data = .ok (found (ms.map Prod.snd))
      ∧ matricesToJson (found (ms.map Prod.snd)) = .list ((found (ms.map Prod.snd)).zipIdx.map fun (table, k) => matrixDocument (.int k, table))
      ∧ (decodeMatrices data = .ok (ms.map Prod.snd) ↔ (ms.map Prod.snd).getLast? ≠ some []) := by
  have hways : ∀ t ∈ ms.map Prod.snd, ∀ w ∈ t, w.first ≠ 0xff := forall_mem_map.2 h
  have hdecode : decodeMatrices _ = _ := takeTables_octets hways (length_le_octets _)
  refine ⟨_, encodeMatrices_eq ms, hdecode, rfl, ?_⟩
  rw [hdecode, Except.ok.injEq, found_eq_iff]

/-- Of two tables, the second without rows, one is left. -/
theorem matrices_restored_iff_first : ∃ data : List Int,
    encodeMatrices (.list ([(.int 0, [⟨1, 2, 3⟩]), (.int 1, [])].map matrixDocument)) = .ok (data.map .int)
      ∧ decodeMatrices data = .ok [[⟨1, 2, 3⟩]] :=
  have ⟨data, hencode, hdecode, _⟩ := matrices_restored_iff [(.int 0, [⟨1, 2, 3⟩]), (.int 1, [])] (by simp)
  ⟨data, hencode, hdecode⟩

end ScummKit.Box
