import FlakeInputs.Command.Invocation
import FlakeInputs.Command.Listing
import FlakeInputs.Command.Options
import FlakeInputs.Command.Run
import FlakeInputs.Command.Verbosity
import FlakeInputs.Edit.Insertion
import FlakeInputs.Edit.Location
import FlakeInputs.Edit.Parameters
import FlakeInputs.Edit.Splice
import FlakeInputs.Edit.Upsert
import FlakeInputs.Edit.Written
import FlakeInputs.Error
import FlakeInputs.Expr.Basic
import FlakeInputs.Expr.Kind
import FlakeInputs.Files.Path
import FlakeInputs.Files.Store
import FlakeInputs.Files.Surroundings
import FlakeInputs.Grammar.Expression
import FlakeInputs.Grammar.Operators
import FlakeInputs.Grammar.Parse
import FlakeInputs.Grammar.Reader
import FlakeInputs.Logged
import FlakeInputs.Main
import FlakeInputs.Manifest.Inputs
import FlakeInputs.Manifest.Load
import FlakeInputs.Manifest.Lookup
import FlakeInputs.Notice
import FlakeInputs.Number.Binary64
import FlakeInputs.Number.Decimal
import FlakeInputs.Proofs.Command.Adding
import FlakeInputs.Proofs.Command.Options
import FlakeInputs.Proofs.Command.Sessions
import FlakeInputs.Proofs.Edit.Acceptance
import FlakeInputs.Proofs.Edit.Additions
import FlakeInputs.Proofs.Edit.Declarations
import FlakeInputs.Proofs.Edit.Entries
import FlakeInputs.Proofs.Edit.Filling
import FlakeInputs.Proofs.Edit.Formals
import FlakeInputs.Proofs.Edit.Growth
import FlakeInputs.Proofs.Edit.Insertion
import FlakeInputs.Proofs.Edit.LineEnds
import FlakeInputs.Proofs.Edit.Literals
import FlakeInputs.Proofs.Edit.NewInputs
import FlakeInputs.Proofs.Edit.Openings
import FlakeInputs.Proofs.Edit.Parameters
import FlakeInputs.Proofs.Edit.Plan
import FlakeInputs.Proofs.Edit.Results
import FlakeInputs.Proofs.Edit.Rooms
import FlakeInputs.Proofs.Edit.Sessions
import FlakeInputs.Proofs.Edit.Simultaneous
import FlakeInputs.Proofs.Edit.Sites
import FlakeInputs.Proofs.Edit.Splices
import FlakeInputs.Proofs.Edit.Threading
import FlakeInputs.Proofs.Edit.Update
import FlakeInputs.Proofs.Expr.Contents
import FlakeInputs.Proofs.Expr.Shape
import FlakeInputs.Proofs.Expr.Subtrees
import FlakeInputs.Proofs.Files.Store
import FlakeInputs.Proofs.Grammar.Arguments
import FlakeInputs.Proofs.Grammar.Chains
import FlakeInputs.Proofs.Grammar.Completeness
import FlakeInputs.Proofs.Grammar.Contents
import FlakeInputs.Proofs.Grammar.Derivation
import FlakeInputs.Proofs.Grammar.Endings
import FlakeInputs.Proofs.Grammar.Faults
import FlakeInputs.Proofs.Grammar.Found
import FlakeInputs.Proofs.Grammar.Frames
import FlakeInputs.Proofs.Grammar.Heads
import FlakeInputs.Proofs.Grammar.Layout
import FlakeInputs.Proofs.Grammar.Nesting
import FlakeInputs.Proofs.Grammar.Operands
import FlakeInputs.Proofs.Grammar.Parts
import FlakeInputs.Proofs.Grammar.Phrases
import FlakeInputs.Proofs.Grammar.Precedence
import FlakeInputs.Proofs.Grammar.Progress
import FlakeInputs.Proofs.Grammar.Readers
import FlakeInputs.Proofs.Grammar.Recursion
import FlakeInputs.Proofs.Grammar.Shapes
import FlakeInputs.Proofs.Grammar.Slices
import FlakeInputs.Proofs.Grammar.Soundness
import FlakeInputs.Proofs.Grammar.Spans
import FlakeInputs.Proofs.Manifest.Cuts
import FlakeInputs.Proofs.Manifest.Declared
import FlakeInputs.Proofs.Manifest.Holes
import FlakeInputs.Proofs.Manifest.Listing
import FlakeInputs.Proofs.Manifest.Lookup
import FlakeInputs.Proofs.Manifest.Matches
import FlakeInputs.Proofs.Manifest.Occurrence
import FlakeInputs.Proofs.Manifest.Plain
import FlakeInputs.Proofs.Manifest.Splitting
import FlakeInputs.Proofs.Outcome
import FlakeInputs.Proofs.Reference.Endings
import FlakeInputs.Proofs.Reference.NormalForm
import FlakeInputs.Proofs.Sample.Draws
import FlakeInputs.Proofs.Sample.Inputs
import FlakeInputs.Proofs.Sample.Manifests
import FlakeInputs.Proofs.Source.Offsets
import FlakeInputs.Proofs.Source.Positions
import FlakeInputs.Proofs.Token.Barriers
import FlakeInputs.Proofs.Token.Bodies
import FlakeInputs.Proofs.Token.Braces
import FlakeInputs.Proofs.Token.Closing
import FlakeInputs.Proofs.Token.Escapes
import FlakeInputs.Proofs.Token.Exchange
import FlakeInputs.Proofs.Token.Lawful
import FlakeInputs.Proofs.Token.Located
import FlakeInputs.Proofs.Token.Lossless
import FlakeInputs.Proofs.Token.Numbers
import FlakeInputs.Proofs.Token.Paths
import FlakeInputs.Proofs.Token.Quotes
import FlakeInputs.Proofs.Token.Runs
import FlakeInputs.Proofs.Token.Seams
import FlakeInputs.Proofs.Token.Spacing
import FlakeInputs.Proofs.Token.Spelling
import FlakeInputs.Proofs.Token.Words
import FlakeInputs.Proofs.Token.Written
import FlakeInputs.Reference.Address
import FlakeInputs.Reference.Basic
import FlakeInputs.Reference.Infer
import FlakeInputs.Reference.Url
import FlakeInputs.Reference.Version
import FlakeInputs.Sample.Draw
import FlakeInputs.Sample.Manifest
import FlakeInputs.Sample.Twister
import FlakeInputs.Source.Line
import FlakeInputs.Source.Position
import FlakeInputs.Source.Span
import FlakeInputs.SyntaxError
import FlakeInputs.Text.Basic
import FlakeInputs.Text.Blank
import FlakeInputs.Text.Digit
import FlakeInputs.Text.Json
import FlakeInputs.Text.Order
import FlakeInputs.Text.Printable
import FlakeInputs.Text.Quoted
import FlakeInputs.Text.Surrogate
import FlakeInputs.Token.Basic
import FlakeInputs.Token.Debug
import FlakeInputs.Token.Literal
import FlakeInputs.Token.Located
import FlakeInputs.Token.Scan
import FlakeInputs.Token.Word
