import BlockProgram.Main
import BlockProgram.Proofs.TypeGraph.Confluence
import BlockProgram.Proofs.TypeGraph.Congruence
import BlockProgram.Proofs.Scope.Declarations
import BlockProgram.Proofs.Scope.RawNames
import BlockProgram.Proofs.Typing.Termination
import BlockProgram.Proofs.Compile.Disabled
import BlockProgram.Proofs.Compile.Removal
import BlockProgram.Proofs.Compile.Callees
import BlockProgram.Proofs.Compile.Enums
import BlockProgram.Proofs.Compile.EnumNames
import BlockProgram.Proofs.Compile.TopBlocks
import BlockProgram.Proofs.CommandLine.SourceMap
import BlockProgram.Proofs.Emit.Openings
import BlockProgram.Proofs.Code.LineMap
import BlockProgram.Proofs.Host.Registration
import BlockProgram.Proofs.Host.Supertypes
import BlockProgram.Proofs.Text.NormalForm
import BlockProgram.Proofs.Workspace.Preorder
