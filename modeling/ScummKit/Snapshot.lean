import ScummKit.FileTree
import ScummKit.Json.Basic

/-!
# Snapshots of trees

A tree of files as one JSON document, a record from paths to files: a path that ends in a slash is a
folder, bytes are hexadecimal digits, and a picture is a record of its kind, its width and its rows.
-/

namespace ScummKit.Snapshot

/-! ### Bytes -/

def byteText (b : UInt8) : List Char := [Nat.digitChar (b.toNat / 16), Nat.digitChar (b.toNat % 16)]

def bytesText (bs : List UInt8) : String := String.ofList (bs.flatMap byteText)

def bytesOf : List Char → Except Fault (List UInt8)
  | [] => .ok []
  | [_] => .error .badValue
  | a :: b :: rest =>
    match Numeral.digit? 16 a, Numeral.digit? 16 b with
    | some x, some y => do return UInt8.ofNat (16 * x + y) :: (← bytesOf rest)
    | _, _ => .error .badValue

/-! ### Pictures -/

def modeText : Picture.Mode → String
  | .grey => "grey"
  | .rgb => "rgb"
  | .rgba => "rgba"

def modeOf : String → Except Fault Picture.Mode
  | "grey" => .ok .grey
  | "rgb" => .ok .rgb
  | "rgba" => .ok .rgba
  | _ => .error .badValue

def pictureDocument (p : Picture) : Json :=
  .record [("kind", .text (modeText p.mode)), ("width", .int p.width),
    ("rows", .list (p.rows.map fun row => .text (bytesText row.flatten)))]

def textOf : Json → Except Fault String
  | .text s => .ok s
  | _ => .error .wrongKind

def pixelsOf (bands : Nat) : Nat → List UInt8 → List Pixel
  | 0, _ => []
  | n + 1, bytes => bytes.take bands :: pixelsOf bands n (bytes.drop bands)

def pictureOf (j : Json) : Except Fault Picture := do
  let mode ← modeOf (← textOf (← j.field "kind"))
  let width := (← (← j.field "width").integer).toNat
  let rows ← (← (← j.field "rows").items).mapM fun row => do bytesOf (← textOf row).toList
  if rows.any fun r => r.length ≠ width * mode.bands then .error .badValue
  return Picture.ofRows mode width (rows.map (pixelsOf mode.bands width))

/-! ### Trees -/

def contentDocument : Content → Json
  | .data bs => .text (bytesText bs)
  | .picture p => pictureDocument p

def contentOf : Json → Except Fault Content
  | .text s => do return .data (← bytesOf s.toList)
  | j => do return .picture (← pictureOf j)

def makeFolders (t : FileTree) (above : Path) : List String → FileTree
  | [] => t
  | name :: rest =>
    let here := above.join name
    makeFolders ((t.makeFolder here).toOption.getD t) here rest

def put (t : FileTree) (entry : String × Json) : Except Fault FileTree := do
  let base : Path := ⟨"/", t.base⟩
  let names := Path.names entry.1
  if Text.ends entry.1 "/" then return makeFolders t base names
  let t := makeFolders t base names.dropLast
  t.write (base.join entry.1) (← contentOf entry.2)

def read (base : List String) (j : Json) : Except Fault FileTree := do
  match j with
  | .record entries => entries.foldlM put ⟨base, [], 0⟩
  | _ => .error .wrongKind

def write (t : FileTree) : Json :=
  .record (t.entries.map fun e =>
    let path := "/".intercalate e.1
    match e.2 with
    | .file c _ => (path, contentDocument c)
    | .folder _ => (path ++ "/", .null))

end ScummKit.Snapshot
