import ScummKit.Bomp

/-!
# Rows of runs

The decoder of a row goes through its runs until the row is full. It cuts a run to the width of the row and not to the room that is left, so a row can become too long: it begins with the colours of its runs, as many as it is wide, and goes on to the end of the run that fills it (`decodeRow_runs`).
-/

namespace ScummKit.Bomp

open List

variable {width : Int} {data rest more colours : List Int} {fuel : Nat}

/-- How many colours a run has. -/
def count (byte : Int) : Nat := (byte / 2 + 1).toNat

/-- The colours of each run of a row. Where the data end within a run of colours, those that are there. -/
def runs : List Int → List (List Int)
  | [] => []
  | byte :: rest =>
    if byte % 2 = 1 then
      match rest with
      | [] => []
      | colour :: rest => replicate (count byte) colour :: runs rest
    else rest.take (count byte) :: runs (rest.drop (count byte))
termination_by data => data.length
decreasing_by all_goals simp only [length_cons, length_drop]; omega

/-- Data that end with a run. -/
inductive Whole : List Int → Prop
  | nil : Whole []
  | same {byte : Int} (colour : Int) {rest : List Int} : byte % 2 = 1 → Whole rest → Whole (byte :: colour :: rest)
  | each {byte : Int} {colours rest : List Int} : byte % 2 ≠ 1 → colours.length = count byte → Whole rest → Whole (byte :: (colours ++ rest))

theorem min_count (byte width : Int) : (min (byte / 2 + 1) width).toNat = min (count byte) width.toNat := by
  rw [count]
  omega

/-- A run is cut to the width of the row, and read to its end if nothing is cut off. -/
theorem run_eq_ok (h : run width data = .ok (more, rest)) : rest.length < data.length
    ∧ ∃ colours after, runs data = colours :: runs after ∧ more = colours.take width.toNat ∧ (colours.length < width.toNat → rest = after) := by
  cases data with
  | nil => cases h
  | cons byte data =>
    simp only [run, min_count] at h
    rw [runs.eq_def]
    dsimp only
    split at h
    · rename_i hodd
      rw [if_pos hodd]
      cases data with
      | nil => cases h
      | cons colour data =>
        cases h
        exact ⟨by simp only [length_cons]; omega, _, _, rfl, by rw [take_replicate, Nat.min_comm], fun _ => rfl⟩
    · rename_i heven
      rw [if_neg heven]
      split at h
      · cases h
        refine ⟨by simp only [length_drop, length_cons]; omega, _, _, rfl, by rw [take_take, Nat.min_comm], fun hcut => ?_⟩
        rw [length_take] at hcut
        rw [Nat.min_eq_left (by omega)]
      · cases h

theorem rowFrom_eq_ok (hfuel : data.length < fuel) (hroom : (colours.length : Int) < width) {row : List Int}
    (h : rowFrom width fuel colours data = .ok row) : ∃ k run, (runs data)[k]? = some run
      ∧ row = colours ++ (((runs data).take k).flatten ++ run.take width.toNat)
      ∧ ((colours ++ ((runs data).take k).flatten).length : Int) < width ∧ width ≤ row.length := by
  induction fuel generalizing colours data with
  | zero => omega
  | succ fuel ih =>
    rw [rowFrom, if_pos hroom] at h
    obtain ⟨⟨more, rest⟩, hrun, hrow⟩ := bind_eq_ok.1 h
    obtain ⟨hshorter, run, after, hruns, rfl, hafter⟩ := run_eq_ok hrun
    change rowFrom width fuel (colours ++ run.take width.toNat) rest = .ok row at hrow
    rw [hruns]
    by_cases hfull : (colours ++ run.take width.toNat).length < width
    · -- nothing of this run is cut off, since room is left
      have hshort : run.length < width.toNat := by
        rw [length_append, length_take] at hfull
        omega
      rw [take_of_length_le (Nat.le_of_lt hshort)] at hrow hfull
      obtain ⟨k, last, hlast, rfl, hbefore, hwidth⟩ := ih (by omega) hfull hrow
      rw [hafter hshort] at hlast hbefore hwidth ⊢
      rw [append_assoc] at hbefore
      refine ⟨k + 1, last, hlast, ?_, hbefore, hwidth⟩
      rw [take_succ_cons, flatten_cons, append_assoc, append_assoc]
    · have hrow' : row = colours ++ run.take width.toNat := by
        cases fuel with
        | zero => omega
        | succ fuel =>
          rw [rowFrom, if_neg hfull] at hrow
          exact (Except.ok.inj hrow).symm
      refine ⟨0, run, rfl, hrow', by rwa [take_zero, flatten_nil, append_nil], ?_⟩
      rw [hrow']
      omega

theorem rowFrom_of_full (hfuel : 0 < fuel) (hfull : width ≤ colours.length) :
    ∃ row, rowFrom width fuel colours data = .ok row := by
  cases fuel with
  | zero => omega
  | succ fuel => exact ⟨colours, by rw [rowFrom, if_neg (by omega)]⟩

theorem rowFrom_of_run (hrun : run width data = .ok (more, rest)) (hfuel : data.length < fuel)
    (hnext : ((colours ++ more).length : Int) < width → ∀ fuel', rest.length < fuel' → ∃ row, rowFrom width fuel' (colours ++ more) rest = .ok row) :
    ∃ row, rowFrom width fuel colours data = .ok row := by
  have hshorter := (run_eq_ok hrun).1
  cases fuel with
  | zero => omega
  | succ fuel =>
    rw [rowFrom, hrun]
    split
    · by_cases hroom : ((colours ++ more).length) < width
      · exact hnext hroom fuel (by omega)
      · exact rowFrom_of_full (by omega) (by omega)
    · exact ⟨_, rfl⟩

/-- A row is decoded if there are enough whole runs. -/
theorem exists_rowFrom (h : Whole data) (hfuel : (data ++ rest).length < fuel)
    (hwidth : width ≤ colours.length + (runs data).flatten.length) : ∃ row, rowFrom width fuel colours (data ++ rest) = .ok row := by
  induction h generalizing colours fuel with
  | nil =>
    rw [runs.eq_def, flatten_nil, length_nil] at hwidth
    exact rowFrom_of_full (by omega) (by omega)
  | @same byte colour data hodd _ ih =>
    rw [runs.eq_def] at hwidth
    simp only [hodd, if_true, flatten_cons, length_append, length_replicate] at hwidth
    have hrun : run width (byte :: colour :: (data ++ rest)) = .ok (replicate (min (count byte) width.toNat) colour, data ++ rest) := by
      simp only [run, min_count, hodd, if_true]
    refine rowFrom_of_run hrun hfuel fun hroom fuel' hfuel' => ih hfuel' ?_
    rw [length_append, length_replicate] at hroom ⊢
    omega
  | @each byte several data heven hseveral _ ih =>
    rw [runs.eq_def] at hwidth
    simp only [heven, if_false, flatten_cons, length_append, ← hseveral, take_left', drop_left'] at hwidth
    have hrun : run width (byte :: (several ++ data ++ rest)) = .ok ((several ++ data ++ rest).take (min (count byte) width.toNat), (several ++ data ++ rest).drop (min (count byte) width.toNat)) := by
      simp only [run, min_count, heven, if_false]
      rw [if_pos (by simp only [length_append]; omega)]
    refine rowFrom_of_run hrun hfuel fun hroom fuel' hfuel' => ?_
    have hcount : min (count byte) width.toNat = several.length := by
      simp only [length_append, length_take] at hroom
      omega
    rw [hcount, append_assoc, drop_left] at hfuel' ⊢
    refine ih hfuel' ?_
    rw [take_left, length_append]
    omega

/-- A row begins with the colours of its runs, as many as it is wide, and ends with the run that fills it, cut to the width: it is too long unless the first colours fill it or a run ends where it is full. It is decoded if there are enough whole runs. -/
theorem decodeRow_runs (width : Int) (data : List Int) :
    (∀ row, decodeRow width data = .ok row → row.take width.toNat = (runs data).flatten.take width.toNat ∧ width ≤ row.length
      ∧ (0 < width → ∃ k run, (runs data)[k]? = some run ∧ row = ((runs data).take k).flatten ++ run.take width.toNat
        ∧ (((runs data).take k).flatten.length : Int) < width
        ∧ ((row.length : Int) = width ↔ ((runs data).take k).flatten = [] ∨ (((runs data).take (k + 1)).flatten.length : Int) = width)))
    ∧ ∀ front back, data = front ++ back → Whole front → width ≤ (runs front).flatten.length → ∃ row, decodeRow width data = .ok row := by
  refine ⟨fun row hrow => ?_, ?_⟩
  · unfold decodeRow at hrow
    by_cases hwidth : 0 < width
    · obtain ⟨k, run, hrun, rfl, hbefore, hfull⟩ := rowFrom_eq_ok (Nat.lt_succ_self _) hwidth hrow
      rw [nil_append] at hbefore hfull ⊢
      have hsplit : (runs data).take (k + 1) = (runs data).take k ++ [run] := by rw [take_add_one, hrun]; rfl
      have hall : (runs data).flatten = ((runs data).take k).flatten ++ (run ++ ((runs data).drop (k + 1)).flatten) := by
        rw [← append_assoc, ← flatten_concat, ← hsplit, ← flatten_append, take_append_drop]
      refine ⟨?_, hfull, fun _ => ⟨k, run, hrun, rfl, hbefore, ?_⟩⟩
      · rw [length_append, length_take] at hfull
        rw [hall, take_append, take_append, take_take, take_append_of_le_length (by omega), Nat.min_eq_left (by omega)]
      · rw [hsplit, flatten_concat, ← length_eq_zero_iff]
        rw [length_append, length_take] at hfull ⊢
        rw [length_append]
        omega
    · rw [rowFrom, if_neg (by rwa [length_nil])] at hrow
      cases hrow
      have hnone : width.toNat = 0 := by omega
      rw [hnone]
      exact ⟨rfl, by rw [length_nil]; omega, fun h => absurd h hwidth⟩
  · rintro front back rfl hfront hwidth
    exact exists_rowFrom hfront (Nat.lt_succ_self _) (by rwa [length_nil, Int.natCast_zero, Int.zero_add])

/-- A run of three colours after one of two makes a row of width three too long. -/
theorem decodeRow_too_long : decodeRow 3 [0x03, 7, 0x05, 9] = .ok [7, 7, 9, 9, 9]
    ∧ [7, 7, 9, 9, 9].take 3 = (runs [0x03, 7, 0x05, 9]).flatten.take 3 :=
  ⟨rfl, ((decodeRow_runs 3 [0x03, 7, 0x05, 9]).1 _ rfl).1⟩

end ScummKit.Bomp
