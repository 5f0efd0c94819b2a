import RingTape.Num
import RingTape.Ring
import RingTape.Cell
import RingTape.Store.Basic
import RingTape.Store.Walk
import RingTape.Store.Edit
import RingTape.Store.Copy
import RingTape.Text.Utf8
import RingTape.Text.Blank
import RingTape.Text.Digit
import RingTape.Text.Json
import RingTape.Snapshot.Basic
import RingTape.Snapshot.Json
import RingTape.CellTree
import RingTape.Location
import RingTape.Code.Op
import RingTape.Code.Basic
import RingTape.Code.Keyword
import RingTape.Source.Literal
import RingTape.Source.Token
import RingTape.Source.Scanner
import RingTape.Source.Problem
import RingTape.Source.Reading
import RingTape.Source.Draft
import RingTape.Machine.Streams
import RingTape.Machine.Basic
import RingTape.Machine.Run
import RingTape.Program
import RingTape.CommandLine
import RingTape.Main
import RingTape.Proofs.Forest
import RingTape.Proofs.Sound
import RingTape.Proofs.Links
import RingTape.Proofs.Roster
import RingTape.Proofs.Walk
import RingTape.Proofs.Edit
import RingTape.Proofs.Trees
import RingTape.Proofs.Copy
import RingTape.Proofs.Operations
import RingTape.Proofs.Content
import RingTape.Proofs.RingTree
import RingTape.Proofs.Shape
import RingTape.Proofs.Frames
import RingTape.Proofs.Contract
import RingTape.Proofs.StepLimit
import RingTape.Proofs.Residence
import RingTape.Proofs.Views
import RingTape.Proofs.Eager
import RingTape.Proofs.Atomicity
import RingTape.Proofs.Safety
import RingTape.Proofs.Literals
import RingTape.Proofs.SafeRun
import RingTape.Proofs.Twins
import RingTape.Proofs.Scenes
import RingTape.Proofs.BelowTop
import RingTape.Proofs.Grammar
import RingTape.Proofs.Parsing
import RingTape.Proofs.Constants
import RingTape.Proofs.NonNegative
import RingTape.Proofs.Printing
import RingTape.Proofs.Footprint
import RingTape.Proofs.RingWalk
import RingTape.Proofs.Locality
import RingTape.Proofs.Transplant
import RingTape.Proofs.Noninterference
import RingTape.Proofs.DeepCopy
import RingTape.Proofs.Layout
import RingTape.Proofs.Diagnosis
import RingTape.Proofs.Spelling
import RingTape.Proofs.Isomorphism
import RingTape.Proofs.Placeless
import RingTape.Proofs.Release
import RingTape.Proofs.Undo
import RingTape.Proofs.Ledger
import RingTape.Proofs.SnapshotJson
import RingTape.Proofs.Handover
import RingTape.Proofs.Misuse
import RingTape.Proofs.Pushing
import RingTape.Proofs.Clamping
import RingTape.Proofs.Escapes
import RingTape.Proofs.Integers
import RingTape.Proofs.Lines
import RingTape.Proofs.Accumulator
import RingTape.Proofs.Arena
import RingTape.Proofs.Progress
import RingTape.Proofs.Suggestion
import RingTape.Proofs.Clearing
import RingTape.Proofs.Grafting
import RingTape.Proofs.Termination
