import ScummKit.Asset.PaletteFile
import ScummKit.Bomp

/-!
# Files of run-length coded pictures
-/

namespace ScummKit.BompFile

open Work

def rows (width : Int) : Nat → List Int → Except Fault (List (List Int))
  | 0, _ => .ok []
  | n + 1, data => do
    let length ← Word.decodeLE (data.take 2) 2
    let row ← Bomp.decodeRow width ((data.drop 2).take length.toNat)
    return row :: (← rows width n ((data.drop 2).drop length.toNat))

def read (data : List Int) : Except Fault (Int × Int × List (List Int)) := do
  let word (i : Nat) := Word.decodeLE ((data.drop i).take 2) 2
  let width ← word 10
  let height ← word 12
  let _ ← word 14
  let _ ← word 16
  return (width, height, ← rows width height.toNat (data.drop 18))

def paint (palette : Palette) (width : Int) (rows : List (List Int)) : Except Fault Picture := do
  let pixels ← rows.mapM fun row => (List.range width.toNat).mapM fun (x : Nat) => do
    (← Position.look palette (← Position.look row x)).ink
  return Picture.ofRows .rgb width.toNat pixels

def view (p palette : Path) : Work Picture := do
  let (width, _, rows) ← (read (← octets p) : Except Fault (Int × Int × List (List Int)))
  let colours ← PaletteFile.read "5" palette
  (paint colours width rows : Except Fault Picture)

end ScummKit.BompFile
