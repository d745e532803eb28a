import ScriptIR.Inspector.View
import ScriptIR.Main
import ScriptIR.Proofs.Compile.Joined
import ScriptIR.Proofs.Grammar.Derivation
import ScriptIR.Proofs.Grammar.Print
import ScriptIR.Proofs.Grammar.Reading
import ScriptIR.Proofs.Grammar.Runs
import ScriptIR.Proofs.Lowering.Census
import ScriptIR.Proofs.Lowering.Order
import ScriptIR.Proofs.Lowering.Pending
import ScriptIR.Proofs.Lowering.Skeleton
import ScriptIR.Proofs.Lowering.Total
import ScriptIR.Proofs.Token.Joined
import ScriptIR.Text.Width
import ScriptIR.Proofs.Token.Written
import ScriptIR.Proofs.Grammar.Numbered
import ScriptIR.Proofs.Compile.Layout
import ScriptIR.Proofs.Inspector.History
import ScriptIR.Proofs.Tree.ReadBack
import ScriptIR.Proofs.Command.Outcome
import ScriptIR.Proofs.Instruction.ReadBack
import ScriptIR.Proofs.Inspector.Scrolling
import ScriptIR.Proofs.Inspector.Marked
import ScriptIR.Proofs.Compile.Mended
import ScriptIR.Proofs.Grammar.RightNested
import ScriptIR.Proofs.Lowering.Walk
import ScriptIR.Proofs.Lowering.Revisit
import ScriptIR.Proofs.Lowering.Weights
import ScriptIR.Proofs.Compile.Ungrouped
import ScriptIR.Proofs.Grammar.Placed
import ScriptIR.Proofs.Inspector.Coloured
import ScriptIR.Proofs.Inspector.Kept
import ScriptIR.Proofs.Compile.Journalled
import ScriptIR.Proofs.Instruction.Tally
import ScriptIR.Proofs.Tree.Preorder
import ScriptIR.Proofs.Inspector.Listed
import ScriptIR.Proofs.Inspector.Composed
import ScriptIR.Proofs.Tree.Counted
import ScriptIR.Proofs.Grammar.Progress
