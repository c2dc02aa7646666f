/-!
# Tables

Small tables from names to values, in the order in which the names first appeared. Replacing a value
does not move it.
-/

namespace ScummKit.Table

variable {κ α : Type} [DecidableEq κ]

def find? (key : κ) : List (κ × α) → Option α
  | [] => none
  | (k, v) :: rest => if k = key then some v else find? key rest

/-- Stores a value under a key: an earlier value is replaced where it stands, a new key goes last. -/
def put (key : κ) (value : α) : List (κ × α) → List (κ × α)
  | [] => [(key, value)]
  | (k, v) :: rest => if k = key then (k, value) :: rest else (k, v) :: put key value rest

def has (key : κ) (table : List (κ × α)) : Bool := (find? key table).isSome

theorem find?_put (key k : κ) (value : α) (table : List (κ × α)) :
    find? k (put key value table) = if key = k then some value else find? k table := by
  induction table with
  | nil => simp [put, find?]
  | cons f rest ih =>
    obtain ⟨j, v⟩ := f
    by_cases h : j = key
    · by_cases hk : key = k <;> simp_all [put, find?]
    · by_cases hk : key = k
      · subst hk; simp [put, find?, h, ih]
      · simp [put, find?, h, ih, hk]

theorem put_of_find? {key : κ} {value : α} {table : List (κ × α)} (h : find? key table = some value) :
    put key value table = table := by
  induction table with
  | nil => cases h
  | cons entry rest ih =>
    obtain ⟨k, w⟩ := entry
    rw [find?] at h
    rw [put]
    split
    · rename_i hk
      rw [if_pos hk] at h
      rw [Option.some.inj h]
    · rename_i hk
      rw [if_neg hk] at h
      rw [ih h]

theorem put_put (key : κ) (v w : α) (table : List (κ × α)) : put key w (put key v table) = put key w table := by
  induction table with
  | nil => simp [put]
  | cons entry rest ih =>
    obtain ⟨k, x⟩ := entry
    by_cases hk : k = key
    · simp [put, hk]
    · simp [put, hk, ih]

theorem put_of_not_mem {key : κ} (value : α) {table : List (κ × α)} (h : key ∉ table.map Prod.fst) :
    put key value table = table ++ [(key, value)] := by
  induction table with
  | nil => rfl
  | cons entry rest ih =>
    obtain ⟨k, w⟩ := entry
    rw [List.map_cons, List.mem_cons, not_or] at h
    rw [put, if_neg fun hk => h.1 hk.symm, ih h.2, List.cons_append]

theorem mem_put {key : κ} {value : α} {table : List (κ × α)} {e : κ × α} (h : e ∈ put key value table) :
    e = (key, value) ∨ e ∈ table := by
  induction table with
  | nil => exact .inl (List.mem_singleton.1 h)
  | cons entry rest ih =>
    obtain ⟨k, w⟩ := entry
    rw [put] at h
    split at h
    · rename_i hk
      rcases List.mem_cons.1 h with h | h
      · exact .inl (hk ▸ h)
      · exact .inr (List.mem_cons_of_mem _ h)
    · rcases List.mem_cons.1 h with h | h
      · exact .inr (h ▸ List.mem_cons_self)
      · exact (ih h).imp_right (List.mem_cons_of_mem _)

theorem map_fst_put (key : κ) (value : α) (table : List (κ × α)) : (put key value table).map Prod.fst
    = if key ∈ table.map Prod.fst then table.map Prod.fst else table.map Prod.fst ++ [key] := by
  induction table with
  | nil => rfl
  | cons entry rest ih =>
    obtain ⟨k, w⟩ := entry
    by_cases hk : k = key
    · simp [put, hk]
    · have hk' : key ≠ k := fun h => hk h.symm
      by_cases hmem : key ∈ rest.map Prod.fst
      · rw [if_pos hmem] at ih
        simp only [put, if_neg hk, List.map_cons, ih, List.mem_cons, hmem, or_true, if_true]
      · rw [if_neg hmem] at ih
        simp only [put, if_neg hk, List.map_cons, ih, List.mem_cons, hk', hmem, or_self, if_false, List.cons_append]

theorem nodup_put (key : κ) (value : α) {table : List (κ × α)} (h : (table.map Prod.fst).Nodup) :
    ((put key value table).map Prod.fst).Nodup := by
  rw [map_fst_put]
  split
  · exact h
  · rename_i hnew
    rw [List.nodup_append]
    refine ⟨h, by simp, ?_⟩
    rintro a ha b hb rfl
    rw [List.mem_singleton.1 hb] at ha
    exact hnew ha

theorem foldl_put (entries table : List (κ × α)) (h : ((table ++ entries).map Prod.fst).Nodup) :
    entries.foldl (fun t e => put e.1 e.2 t) table = table ++ entries := by
  induction entries generalizing table with
  | nil => exact (List.append_nil table).symm
  | cons e entries ih =>
    have hnew : e.1 ∉ table.map Prod.fst := by
      rw [List.map_append, List.map_cons, List.nodup_append] at h
      intro he
      exact h.2.2 e.1 he e.1 List.mem_cons_self rfl
    rw [List.foldl_cons, put_of_not_mem _ hnew, ih]
    · simp
    · simpa using h

end ScummKit.Table
