import Versioning.Text.Run
import Versioning.Decimal
import Versioning.Component
import Versioning.Core
import Versioning.Identifier
import Versioning.Tag
import Versioning.Version.Basic
import Versioning.Version.Order
import Versioning.Version.Hash
import Versioning.Literal.CharClass
import Versioning.Literal.Error
import Versioning.Literal.Reader
import Versioning.Literal.Parse
import Versioning.Version.Change
import Versioning.Version.Draft
import Versioning.Token.Basic
import Versioning.Token.Lexer
import Versioning.Token.Stream
import Versioning.Outcome
import Versioning.Traced
import Versioning.Range.Operator
import Versioning.Range.Basic
import Versioning.Range.Shorthand
import Versioning.Range.Band
import Versioning.Range.Atom
import Versioning.Range.Parser
import Versioning.Event
import Versioning.Catalogue
import Versioning.Datum
import Versioning.Proofs.Decimal
import Versioning.Proofs.Decimal.Order
import Versioning.Proofs.Decimal.Successor
import Versioning.Proofs.Literal.Grammar
import Versioning.Proofs.Literal.Reading
import Versioning.Proofs.Literal.Faults
import Versioning.Proofs.Range.Grammar
import Versioning.Proofs.Range.Numerals
import Versioning.Proofs.Range.Bands
import Versioning.Proofs.Range.Atoms
import Versioning.Proofs.Range.Expressions
import Versioning.Proofs.Distinct
import Versioning.Proofs.StableSort
import Versioning.Proofs.Version.Order
import Versioning.Proofs.Version.Precedence
import Versioning.Proofs.Version.Advance
import Versioning.Proofs.Version.Increments
import Versioning.Proofs.Version.Runs
import Versioning.Proofs.Version.Classes
import Versioning.Proofs.Token.Scanning
import Versioning.Proofs.Range.Shorthands
import Versioning.Proofs.Range.Rendering
import Versioning.Proofs.Token.Cutting
import Versioning.Proofs.Token.Spacing
import Versioning.Proofs.Token.Requests
import Versioning.Proofs.Token.Moves
import Versioning.Proofs.Range.Results
import Versioning.Proofs.Range.Faults
import Versioning.Proofs.Range.Agreement
import Versioning.Proofs.Range.Composition
import Versioning.Proofs.Range.Layout
import Versioning.Proofs.Range.DigitRuns
import Versioning.Proofs.Range.Settings
import Versioning.Proofs.Range.Coincidence
import Versioning.Proofs.Range.Literals
import Versioning.Proofs.Range.Advance
import Versioning.Proofs.Range.Equality
import Versioning.Proofs.Range.Selections
import Versioning.Proofs.Range.Descent
import Versioning.Proofs.Range.Descent.Atoms
import Versioning.Proofs.Range.Progress
import Versioning.Proofs.Version.BuildOrder
import Versioning.Proofs.Literal.Rendering
import Versioning.Proofs.Literal.Modes
import Versioning.Proofs.Literal.Lookahead
import Versioning.Proofs.Literal.Diagnostics
import Versioning.Proofs.Literal.Locality
import Versioning.Proofs.Version.Assembly
import Versioning.Proofs.Version.Slots
import Versioning.Proofs.Version.Decoding
import Versioning.Proofs.Version.Effects
import Versioning.Proofs.Core.Bounds
import Versioning.Proofs.Tag.Counting
import Versioning.Proofs.Catalogue.Sorting
import Versioning.Proofs.Catalogue.Selection
