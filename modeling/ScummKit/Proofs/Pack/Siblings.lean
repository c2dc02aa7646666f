import Mathlib.Data.List.Basic
import ScummKit.Proofs.Pack.Runs

/-!
# Siblings in order

A group keeps its blocks sorted by the rank of their type. A block that no list orders goes behind all
that it need not precede, so blocks of one type stand as they were added (`Arranged`).
-/

namespace ScummKit.Pack.Block

open List

variable (ranking : Ranking)

def rankIn (b : Block) : Nat := (ranking.rank? b.name).getD 0

abbrev Ranked (b : Block) : Prop := (ranking.rank? b.name).isSome

abbrev Sorted (blocks : List Block) : Prop := blocks.Pairwise (rankIn ranking · ≤ rankIn ranking ·)

variable {ranking} {a b : Block} {blocks children cs added : List Block}

theorem rankIn_eq_iff (ha : Ranked ranking a) (hb : Ranked ranking b) :
    rankIn ranking a = rankIn ranking b ↔ ranking.key a.name = ranking.key b.name := by
  have hrank {c : Block} (hc : Ranked ranking c) : rankIn ranking c = ranking.names.idxOf (ranking.key c.name) := by
    obtain ⟨i, hi⟩ := Option.isSome_iff_exists.mp hc
    rw [idxOf_eq_getD_idxOf?, rankIn, ← Ranking.rank?, hi]
    rfl
  rw [hrank ha, hrank hb, idxOf_inj (isSome_idxOf?.mp ha)]

/-- A block comes behind all blocks of its rank. -/
theorem exists_insert (hb : Ranked ranking b) (hsorted : Sorted ranking children) :
    ∃ left right, children = left ++ right ∧ Block.insert ranking [] b children = .ok (left ++ b :: right)
      ∧ (∀ c ∈ left, rankIn ranking c ≤ rankIn ranking b) ∧ ∀ c ∈ right, rankIn ranking b < rankIn ranking c := by
  obtain ⟨r, hr⟩ := Option.isSome_iff_exists.mp hb
  rw [insert, hr]
  change ∃ left right, _ ∧ insertAmong (rankIn ranking) none b children = _ ∧ _
  induction children with
  | nil => exact ⟨[], [], rfl, rfl, nofun, nofun⟩
  | cons c rest ih =>
    obtain ⟨hfirst, hsorted⟩ := pairwise_cons.mp hsorted
    rw [insertAmong]
    by_cases hle : rankIn ranking c ≤ rankIn ranking b
    · obtain ⟨left, right, rfl, hok, hleft, hright⟩ := ih hsorted
      rw [hok, if_neg (Nat.not_lt.mpr hle)]
      refine ⟨c :: left, right, rfl, ?_, forall_mem_cons.mpr ⟨hle, hleft⟩, hright⟩
      split <;> rfl
    · rw [if_neg (by omega), if_pos (by omega)]
      have hright : ∀ d ∈ rest, rankIn ranking b < rankIn ranking d := fun d hd =>
        Nat.lt_of_lt_of_le (Nat.not_le.mp hle) (hfirst d hd)
      exact ⟨[], c :: rest, rfl, rfl, nofun, forall_mem_cons.mpr ⟨Nat.not_le.mp hle, hright⟩⟩

theorem does_addChild {s : State} (name : String) (hb : Ranked ranking b) (h : Block.insert ranking [] b children = .ok cs) :
    Does (Job.addChild name ranking [] b children) s cs s := by
  rw [Job.addChild, if_neg (by rw [← Option.not_isSome, hb]; exact Bool.noConfusion)]
  exact Job.does_ofExcept h s

/-! ### Any number of additions -/

variable (ranking) in
/-- What a group holds after some blocks were added: these blocks by rank, and those of one rank in the
order in which they were added. -/
structure Arranged (added children : List Block) : Prop where
  perm : children.Perm added
  sorted : Sorted ranking children
  stable : ∀ k, children.filter (rankIn ranking · = k) = added.filter (rankIn ranking · = k)

theorem arranged_nil : Arranged ranking [] [] := ⟨.nil, .nil, fun _ => rfl⟩

/-- One block more is put where the group stays sorted. -/
theorem Arranged.exists_insert (h : Arranged ranking added children) (hb : Ranked ranking b) :
    ∃ cs, Block.insert ranking [] b children = .ok cs ∧ Arranged ranking (added ++ [b]) cs := by
  obtain ⟨hperm, hsorted, hstable⟩ := h
  obtain ⟨left, right, rfl, hok, hleft, hright⟩ := Block.exists_insert hb hsorted
  refine ⟨_, hok, ?_, ?_, fun k => ?_⟩
  · calc _ ~ b :: (left ++ right) := perm_middle
      _ ~ b :: added := hperm.cons b
      _ ~ added ++ [b] := (perm_append_singleton b added).symm
  · obtain ⟨hl, hr, hlr⟩ := pairwise_append.mp hsorted
    refine pairwise_append.mpr ⟨hl, pairwise_cons.mpr ⟨fun c hc => Nat.le_of_lt (hright c hc), hr⟩, fun c hc => ?_⟩
    exact forall_mem_cons.mpr ⟨hleft c hc, hlr c hc⟩
  · rw [filter_append, filter_append, ← hstable k, filter_append, append_assoc]
    by_cases hk : rankIn ranking b = k
    · -- What stands behind the block has another rank.
      have hnone : right.filter (rankIn ranking · = k) = [] :=
        filter_eq_nil_iff.mpr fun c hc hck => Nat.ne_of_lt (hright c hc) (hk.trans (of_decide_eq_true hck).symm)
      rw [filter_cons_of_pos (by simpa using hk), filter_cons_of_pos (by simpa using hk), hnone, filter_nil, nil_append]
    · rw [filter_cons_of_neg (by simpa using hk), filter_cons_of_neg (by simpa using hk), filter_nil, append_nil]

variable (ranking) in
def insertAll (blocks children : List Block) : Except Fault (List Block) :=
  blocks.foldlM (fun cs b => Block.insert ranking [] b cs) children

theorem Arranged.exists_insertAll (h : Arranged ranking added children) (hblocks : ∀ b ∈ blocks, Ranked ranking b) :
    ∃ cs, insertAll ranking blocks children = .ok cs ∧ Arranged ranking (added ++ blocks) cs := by
  induction blocks generalizing added children with
  | nil => exact ⟨children, rfl, by rwa [append_nil]⟩
  | cons b rest ih =>
    obtain ⟨hb, hrest⟩ := forall_mem_cons.mp hblocks
    obtain ⟨ds, hds, hnext⟩ := h.exists_insert hb
    obtain ⟨cs, hcs, hall⟩ := ih hnext hrest
    exact ⟨cs, bind_eq_ok.mpr ⟨ds, hds, hcs⟩, by rwa [append_assoc] at hall⟩

/-- Blocks of one type stand in the order in which they were added. -/
theorem Arranged.filter_key (h : Arranged ranking added cs) (hadded : ∀ b ∈ added, Ranked ranking b) (k : String) :
    cs.filter (ranking.key ·.name = k) = added.filter (ranking.key ·.name = k) := by
  by_cases hexists : ∃ d ∈ added, ranking.key d.name = k
  · obtain ⟨d, hd, rfl⟩ := hexists
    have hsame : ∀ c ∈ added, decide (rankIn ranking c = rankIn ranking d) = decide (ranking.key c.name = ranking.key d.name) :=
      fun c hc => decide_eq_decide.mpr (rankIn_eq_iff (hadded c hc) (hadded d hd))
    rw [← filter_congr hsame, ← h.stable]
    exact filter_congr fun c hc => (hsame c (h.perm.mem_iff.mp hc)).symm
  · have hnone : ∀ c ∈ added, ¬ ranking.key c.name = k := fun c hc hkey => hexists ⟨c, hc, hkey⟩
    rw [filter_eq_nil_iff.mpr (by simpa using fun c hc => hnone c (h.perm.mem_iff.mp hc)), filter_eq_nil_iff.mpr (by simpa using hnone)]

end ScummKit.Pack.Block
