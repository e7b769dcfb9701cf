import JackCompiler.Main
import JackCompiler.Files.Tree
import JackCompiler.Token.Cursor
import JackCompiler.Proofs.Syntax.Steps
import JackCompiler.Proofs.Grammar.Places
import JackCompiler.Proofs.Grammar.WalkExpression
import JackCompiler.Proofs.Grammar.WalkStatement
import JackCompiler.Proofs.Grammar.WalkClass
import JackCompiler.Proofs.Grammar.Soundness
import JackCompiler.Proofs.Generation.Declarations
import JackCompiler.Proofs.Generation.Rules
import JackCompiler.Proofs.Generation.Follow
import JackCompiler.Proofs.Generation.FollowClass
import JackCompiler.Proofs.Generation.Acceptance
import JackCompiler.Proofs.Machine.Machine
import JackCompiler.Proofs.Machine.Meaning
import JackCompiler.Proofs.Machine.Expressions
import JackCompiler.Proofs.Machine.AcceptedCode
import JackCompiler.Proofs.Machine.Function
import JackCompiler.Proofs.Machine.ControlFlow
import JackCompiler.Proofs.Machine.Subroutines
import JackCompiler.Proofs.Code.Flow
import JackCompiler.Proofs.Code.Depth
import JackCompiler.Proofs.Code.Origins
import JackCompiler.Proofs.Code.Jumps
import JackCompiler.Proofs.Code.Segments
import JackCompiler.Proofs.Scanning.Constants
import JackCompiler.Proofs.Scanning.Written
import JackCompiler.Proofs.Code.Constants
import JackCompiler.Proofs.Grammar.Viable
import JackCompiler.Proofs.Scanning.Pieces
import JackCompiler.Proofs.Variables.History
import JackCompiler.Proofs.Scanning.Decomposition
import JackCompiler.Proofs.Scanning.RoundTrip
import JackCompiler.Proofs.Generation.Separate
import JackCompiler.Proofs.Generation.Strict
import JackCompiler.Proofs.Scanning.Places
import JackCompiler.Proofs.Grammar.Declared
import JackCompiler.Proofs.Generation.Located
import JackCompiler.Proofs.Syntax.Productions
import JackCompiler.Proofs.Syntax.Derivation
import JackCompiler.Proofs.Syntax.Licensed
import JackCompiler.Proofs.Grammar.Begun
import JackCompiler.Proofs.Syntax.Nested
import JackCompiler.Proofs.Syntax.Unambiguous
import JackCompiler.Proofs.Generation.Trace
import JackCompiler.Proofs.Scanning.Defects
import JackCompiler.Proofs.Scanning.Listing
import JackCompiler.Proofs.Generation.Relocated
import JackCompiler.Proofs.Variables.Renaming
import JackCompiler.Proofs.Syntax.Renaming
import JackCompiler.Proofs.Generation.Renaming
import JackCompiler.Proofs.Code.Names
import JackCompiler.Proofs.Code.Reading
import JackCompiler.Proofs.Project.CodeFiles
import JackCompiler.Proofs.Project.Listings
import JackCompiler.Proofs.Project.Overwritten
import JackCompiler.Proofs.Scanning.Lines
import JackCompiler.Proofs.Project.Sharing
import JackCompiler.Proofs.CommandLine.Courses
import JackCompiler.Proofs.CommandLine.ExitStatus
import JackCompiler.Proofs.CommandLine.FailureCount
import JackCompiler.Proofs.Generation.StringConstants
import JackCompiler.Proofs.Files.ByteOrder
import JackCompiler.Proofs.Project.Collection
import JackCompiler.Proofs.Scanning.Shown
import JackCompiler.Proofs.Grammar.Arguments
import JackCompiler.Proofs.Generation.Offenders
import JackCompiler.Proofs.CommandLine.Carets
import JackCompiler.Proofs.Scanning.SingleLexemes
import JackCompiler.Proofs.Grammar.CursorRuns
