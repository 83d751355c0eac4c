import SqlCompose.Main
import SqlCompose.Code.Script
import SqlCompose.Query.Steps
import SqlCompose.Render.Select
import SqlCompose.Proofs.Placeholders
import SqlCompose.Proofs.Lexing.Respaced
import SqlCompose.Proofs.Lexing.Inside
import SqlCompose.Proofs.Lexing.Normal
import SqlCompose.Proofs.Lexing.Append
import SqlCompose.Proofs.Lexing.Continues
import SqlCompose.Proofs.Lexing.Words
import SqlCompose.Proofs.Lexing.Literals
import SqlCompose.Proofs.Lexing.Rows
import SqlCompose.Proofs.Pages.Steps
import SqlCompose.Proofs.Pages.Writes
import SqlCompose.Proofs.Pages.Fragments
import SqlCompose.Proofs.Pages.Expressions
import SqlCompose.Proofs.Pages.Selects
import SqlCompose.Proofs.Pages.Statements
import SqlCompose.Proofs.Embedding
import SqlCompose.Proofs.Pages.Extends
import SqlCompose.Proofs.Pages.Indented
import SqlCompose.Proofs.Reading
import SqlCompose.Proofs.Pages.RawItems
import SqlCompose.Proofs.Qualifiers
import SqlCompose.Proofs.Styles.Statements
import SqlCompose.Proofs.Agreement
import SqlCompose.Proofs.Success.Writers
import SqlCompose.Proofs.Success.Queries
import SqlCompose.Proofs.Parameters
import SqlCompose.Proofs.Fragments.Places
import SqlCompose.Proofs.Fragments.Kept
import SqlCompose.Proofs.Fragments.Rows
import SqlCompose.Proofs.Fragments.Formatting
import SqlCompose.Proofs.Fragments.Lines
import SqlCompose.Proofs.Fragments.Reformatting
import SqlCompose.Proofs.Fragments.Slices
import SqlCompose.Proofs.Fragments.Rereading
import SqlCompose.Proofs.Merging
import SqlCompose.Proofs.Lexing.Limits
import SqlCompose.Proofs.Lexing.Positions
import SqlCompose.Proofs.Lexing.Stacked
import SqlCompose.Proofs.Names
import SqlCompose.Proofs.Drafts
import SqlCompose.Proofs.UnknownTypes
import SqlCompose.Proofs.Numbering
import SqlCompose.Proofs.Pages.Hanging
import SqlCompose.Proofs.Identifiers
import SqlCompose.Proofs.TextLiterals
import SqlCompose.Proofs.Templates
import SqlCompose.Proofs.Scripts
import SqlCompose.Proofs.Folding
import SqlCompose.Proofs.Arithmetic.Grammar
import SqlCompose.Proofs.Arithmetic.Writing
import SqlCompose.Proofs.Lexing.Speaks
import SqlCompose.Proofs.Lexing.Apart
import SqlCompose.Proofs.Pages.Speaking
import SqlCompose.Proofs.Pages.Voices
import SqlCompose.Proofs.Operands
import SqlCompose.Proofs.Fragments.Indentation
import SqlCompose.Proofs.WordTails
import SqlCompose.Proofs.Sheets
import SqlCompose.Proofs.Handlers
import SqlCompose.Proofs.References
import SqlCompose.Proofs.Arguments
import SqlCompose.Proofs.Segments
