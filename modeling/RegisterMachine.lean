import RegisterMachine.Main
import RegisterMachine.Proofs.Execution
import RegisterMachine.Proofs.Layout
import RegisterMachine.Proofs.WellFormed
import RegisterMachine.Proofs.LoweredNames
import RegisterMachine.Proofs.LoweringPass
import RegisterMachine.Proofs.Simulation
import RegisterMachine.Proofs.LoweringCost
import RegisterMachine.Proofs.JumpResolution
import RegisterMachine.Proofs.ReferenceSemantics
import RegisterMachine.Proofs.History
import RegisterMachine.Proofs.DocumentCodec
import RegisterMachine.Proofs.DocumentPrograms
import RegisterMachine.Proofs.JsonRoundTrip
import RegisterMachine.Proofs.LineGrammar
import RegisterMachine.Proofs.SessionHistory
import RegisterMachine.Proofs.StepLimit
import RegisterMachine.Proofs.TokenStream
import RegisterMachine.Proofs.SourceRoundTrip
import RegisterMachine.Proofs.Noninterference
import RegisterMachine.Proofs.Provenance
import RegisterMachine.Proofs.LineByLine
import RegisterMachine.Proofs.RepeatedLabels
import RegisterMachine.Proofs.EntryChecks
import RegisterMachine.Proofs.ForwardPrograms
import RegisterMachine.Proofs.StableParents
import RegisterMachine.Proofs.DisplayOrder
import RegisterMachine.Proofs.DiagnosticRecords
import RegisterMachine.Proofs.TokenTiling
import RegisterMachine.Proofs.CaretPlacement
import RegisterMachine.Proofs.FreshNames
import RegisterMachine.Proofs.ProvenanceWalk
import RegisterMachine.Proofs.LineOffsets
import RegisterMachine.Proofs.CursorReading
