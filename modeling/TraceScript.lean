import TraceScript.CommandLine.Directory
import TraceScript.Main
import TraceScript.Proofs.Refinement
import TraceScript.Proofs.Ending
import TraceScript.Proofs.FrameSafety
import TraceScript.Proofs.FrameLayout
import TraceScript.Proofs.Initialized
import TraceScript.Proofs.Limits
import TraceScript.Proofs.Outcomes
import TraceScript.Proofs.Dialogue
import TraceScript.Proofs.Protocol
import TraceScript.Proofs.Relabeled
import TraceScript.Proofs.RelabeledLayout
import TraceScript.Proofs.RelabeledFlow
import TraceScript.Proofs.Erased
import TraceScript.Proofs.Renamed
import TraceScript.Proofs.Rebound
import TraceScript.Proofs.SameCode
import TraceScript.Proofs.Pieces
import TraceScript.Proofs.Control
import TraceScript.Proofs.Grammar
import TraceScript.Proofs.Reading
import TraceScript.Proofs.Machine
import TraceScript.Proofs.Execution
import TraceScript.Proofs.Words
import TraceScript.Proofs.MachineMirror
import TraceScript.Proofs.InstructionCode
import TraceScript.Proofs.CallCode
import TraceScript.Proofs.Simulation
import TraceScript.Proofs.Translation
import TraceScript.Proofs.Homes
import TraceScript.Proofs.Spelling
import TraceScript.Proofs.Recased
import TraceScript.Proofs.RecasedTrees
import TraceScript.Proofs.CaseInsensitive
import TraceScript.Proofs.Utf8
import TraceScript.Proofs.Rendered
import TraceScript.Proofs.LivePaths
import TraceScript.Proofs.SingleUse
import TraceScript.Proofs.TwoAddressRuns
import TraceScript.Proofs.ExactRanges
import TraceScript.Proofs.Retyped
import TraceScript.Proofs.Agreement
import TraceScript.Proofs.Reannotated
import TraceScript.Proofs.PlacedAgain
import TraceScript.Proofs.Consistent
import TraceScript.Proofs.StringEquality
import TraceScript.Proofs.History
import TraceScript.Proofs.FewestSpills
import TraceScript.Proofs.RangeInsertion
import TraceScript.Proofs.Aligned
import TraceScript.Proofs.SelfUpdate
import TraceScript.Proofs.Appended
import TraceScript.Proofs.CodeInsertion
import TraceScript.Proofs.SpanOrder
import TraceScript.Proofs.RegionStores
import TraceScript.Proofs.Lossless
import TraceScript.Proofs.LineTokens
