import ScummKit.Costume.Pict

/-!
# Sprite sheets

All pictures of a costume are drawn on one sheet. Its first row shows the colours. Below, the pictures
of each limb stand in rows of their own, with a line of the first colour between them.
-/

namespace ScummKit.Costume

def sheetLimit : Int := 640

structure Layout where
  width : Int
  height : Int
  rowWidth : Int
  rowHeight : Int
  limb : Int
  deriving Repr, DecidableEq, Inhabited

namespace Layout

def start (colours : Nat) : Layout := ⟨colours, 9, 0, 0, 0⟩

def closeRow (l : Layout) : Layout :=
  { l with width := max l.width l.rowWidth, height := l.height + l.rowHeight + 1,
           rowWidth := 0, rowHeight := 0 }

def nextRow (l : Layout) (limb : Int) : Layout := { l.closeRow with limb }

def add (l : Layout) (p : Pict) : Layout × Pict :=
  let width := l.rowWidth + p.width
  ({ l with rowWidth := if width < sheetLimit then width + 1 else width,
            rowHeight := max l.rowHeight p.height },
   { p with sheetX := l.rowWidth, sheetY := l.height })

def breaks (l : Layout) (p : Pict) : Bool := l.limb < p.limb || sheetLimit < l.rowWidth + p.width

/-- Places a picture in the row, or in a new one. A picture that does not fit there either is tried in one
row after the other. -/
def place (l : Layout) (p : Pict) : Except Fault (Layout × Pict) :=
  if l.breaks p then
    if (l.nextRow p.limb).breaks p then .error .endless else .ok ((l.nextRow p.limb).add p)
  else .ok (l.add p)

def placeAll : Layout → List Pict → Except Fault (Layout × List Pict)
  | l, [] => .ok (l, [])
  | l, p :: rest => do
    let (l, p) ← l.place p
    let (l, rest) ← placeAll l rest
    return (l, p :: rest)

end Layout

def layOut (picts : List Pict) (palette : Palette) : Except Fault (Layout × List Pict) := do
  let (l, placed) ← (Layout.start palette.length).placeAll picts
  return (if picts.isEmpty then l else l.closeRow, placed)

def buildSheet (picts : List Pict) (palette : Palette) : Except Fault (Picture × List Pict) := do
  let background ← Position.look palette 0
  let (l, placed) ← layOut picts palette
  let (w, h) ← Picture.checkSize l.width l.height
  let px ← background.ink
  let sheet := Picture.ofFn .rgb w h fun _ _ => px
  let sheet ← palette.zipIdx.foldlM (fun sheet (colour, i) => sheet.put (i : Nat) 0 colour) sheet
  return (placed.foldl (fun sheet p => sheet.paste p.image p.sheetX p.sheetY) sheet, placed)

end ScummKit.Costume
