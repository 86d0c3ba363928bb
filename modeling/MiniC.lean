import MiniC.CommandLine
import MiniC.FileTree
import MiniC.Main
import MiniC.Tree.Declared
import MiniC.Proofs.FunctionCorrect
import MiniC.Proofs.ParseFrame
import MiniC.Proofs.ProgramGrammar
import MiniC.Proofs.Calls
import MiniC.Proofs.SessionLabels
import MiniC.Proofs.Layout
import MiniC.Proofs.RegisterNeed
import MiniC.Proofs.SessionContexts
import MiniC.Proofs.ListingNames
import MiniC.Proofs.LowerRenaming
import MiniC.Proofs.Conditions
import MiniC.Proofs.AssignedValue
import MiniC.Proofs.FrameAccess
import MiniC.Proofs.StackDiscipline
import MiniC.Proofs.LiteralData
import MiniC.Proofs.Lines
import MiniC.Proofs.Reparsing
import MiniC.Proofs.Sections
import MiniC.Proofs.Progress
import MiniC.Proofs.Indexing
import MiniC.Proofs.ByteScanning
