import Llast.OperandSafety
import Llast.CompilerCorrectness
import Llast.Rejection
import Llast.EntryBlock
import Llast.OperandOrigins
import Llast.Independence
import Llast.PrintedTree
import Llast.Declarations
import Llast.VariableIdentity
import Llast.Signatures
import Llast.EntryPoints
import Llast.Conditionals
import Llast.Pipeline
import Llast.HashOrder
import Llast.Session
import Llast.DebugBuild
import Llast.SsaForm
import Llast.Blueprint
import Llast.WellFormed
import Llast.BlockSafety
import Llast.Printing
