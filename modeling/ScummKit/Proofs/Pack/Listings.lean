import ScummKit.Pack.Load
import ScummKit.Proofs.Pack.Siblings

/-!
# Folders and their listings

A folder is loaded file by file, in the order in which it is listed. So blocks that no list orders keep
their order only where the listing has it.
-/

namespace ScummKit.Pack

open List

/-- Loads the images of an object, one folder after the other. -/
def Job.loadImages : Nat → String → Ranking → List String → Job (List Block)
  | 0, _, _, _ => throw .endless
  | _ + 1, _, _, [] => return []
  | fuel + 1, path, ranking, folder :: rest => do
    let b ← loadFolder fuel (Path.append path folder) folder .plain ranking
    return b :: (← loadImages fuel path ranking rest)

variable {path name : String} {fuel : Nat} {ranking : Ranking} {names : List String} {blocks cs children : List Block} {s t : State}

/-- Files are loaded in the order of their names. -/
theorem forall₂_of_loadNames (h : Does (Job.loadNames fuel path names) s blocks t) : ∃ files, files.Sublist names
    ∧ Forall₂ (fun file b => ∃ n form u v, Form.ofFile u.format file = some form ∧ Does (Job.load n form (Path.append path file)) u b v)
      files blocks := by
  induction fuel generalizing names s blocks with
  | zero => cases h
  | succ fuel ih =>
    cases names with
    | nil =>
      cases h
      exact ⟨[], .slnil, .nil⟩
    | cons file rest =>
      obtain ⟨_, _, hformat, h⟩ := h.exists_of_bind
      cases hformat
      cases hform : Form.ofFile s.format file with
      | none =>
        rw [hform] at h
        obtain ⟨files, hsub, hloads⟩ := ih h
        exact ⟨files, hsub.cons file, hloads⟩
      | some form =>
        rw [hform] at h
        obtain ⟨b, u, hb, h⟩ := h.exists_of_bind
        obtain ⟨bs, v, hrest, h⟩ := h.exists_of_bind
        cases h
        obtain ⟨files, hsub, hloads⟩ := ih hrest
        exact ⟨file :: files, hsub.cons_cons file, .cons ⟨fuel, form, s, u, hform, hb⟩ hloads⟩

/-- A group holds what is loaded one by one. -/
theorem does_loadChildren (hranked : ∀ b ∈ blocks, Block.Ranked ranking b) (h : Does (Job.loadNames fuel path names) s blocks t)
    (hinsert : Block.insertAll ranking blocks children = .ok cs) :
    Does (Job.loadChildren fuel path name ranking [] names children) s cs t := by
  induction fuel generalizing names s blocks children with
  | zero => cases h
  | succ fuel ih =>
    cases names with
    | nil =>
      cases h
      cases hinsert
      rfl
    | cons file rest =>
      obtain ⟨_, _, hformat, h⟩ := h.exists_of_bind
      cases hformat
      refine (Job.does_format s).bind ?_
      cases hform : Form.ofFile s.format file with
      | none =>
        rw [hform] at h
        exact ih hranked h hinsert
      | some form =>
        rw [hform] at h
        obtain ⟨b, u, hb, h⟩ := h.exists_of_bind
        obtain ⟨bs, v, hrest, h⟩ := h.exists_of_bind
        cases h
        obtain ⟨hranked, hothers⟩ := forall_mem_cons.mp hranked
        obtain ⟨ds, hds, hinsert⟩ := bind_eq_ok.mp hinsert
        exact hb.bind ((Block.does_addChild _ hranked hds).bind (ih hothers hrest hinsert))

theorem does_loadPictures (hranked : ∀ b ∈ blocks, Block.Ranked ranking b) (h : Does (Job.loadImages fuel path ranking names) s blocks t)
    (hinsert : Block.insertAll ranking blocks children = .ok cs) :
    Does (Job.loadPictures fuel path ranking names children) s cs t := by
  induction fuel generalizing names s blocks children with
  | zero => cases h
  | succ fuel ih =>
    cases names with
    | nil =>
      cases h
      cases hinsert
      rfl
    | cons folder rest =>
      obtain ⟨b, u, hb, h⟩ := h.exists_of_bind
      obtain ⟨bs, v, hrest, h⟩ := h.exists_of_bind
      cases h
      obtain ⟨hranked, hothers⟩ := forall_mem_cons.mp hranked
      obtain ⟨ds, hds, hinsert⟩ := bind_eq_ok.mp hinsert
      exact hb.bind ((Block.does_addChild _ hranked hds).bind (ih hothers hrest hinsert))

/-- The files of an image whose second mask came first. -/
def maskState : State := { (default : State) with
  files := ⟨[], [(["d"], .folder 0), (["d", "ZP02.dmp"], .file (.data (Format.five.header "ZP02" 9 ++ [2])) 0),
    (["d", "ZP01.dmp"], .file (.data (Format.five.header "ZP01" 9 ++ [1])) 0)], 0⟩
  format := .five }

def masks : List Block := [.leaf ⟨"ZP01", 9⟩ (.plain [1]), .leaf ⟨"ZP02", 9⟩ (.plain [2])]

end ScummKit.Pack
