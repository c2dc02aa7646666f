import ScummKit.Main
import ScummKit.Proofs.Pack.ObjectStates
import ScummKit.Script.Uniform
import ScummKit.Proofs.Script.Loops
import ScummKit.Proofs.Costume.LimbSlots
import ScummKit.Proofs.Project.Rebuild
import ScummKit.Proofs.Project.RoomPalettes
import ScummKit.Proofs.Project.Recompiled
import ScummKit.Proofs.Script.Widths
import ScummKit.Proofs.Script.ObjectLines
import ScummKit.Proofs.Script.Carets
import ScummKit.Proofs.Pack.FileNames
import ScummKit.Proofs.Project.FileKinds
import ScummKit.Proofs.Project.RoomNames
import ScummKit.Proofs.Image.Damaged
import ScummKit.Proofs.Project.PairLayout
import ScummKit.Proofs.Room.Matrices
import ScummKit.Proofs.Image.Rows
import ScummKit.Proofs.Pack.Listings
import ScummKit.Proofs.Pack.ObjectSizes
import ScummKit.Proofs.Pack.Arranging
import ScummKit.Proofs.Pack.RoomTables
import ScummKit.Proofs.Script.Conditions
import ScummKit.Proofs.Script.EventNames
