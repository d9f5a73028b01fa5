import CanonJson.Document
import CanonJson.Layout.Shape
import CanonJson.Main
import CanonJson.Order.Sorted
import CanonJson.Plain.Convert
import CanonJson.Proofs.Number.Spelling
import CanonJson.Proofs.Syntax.Acceptance
import CanonJson.Proofs.Text.Run
import CanonJson.Proofs.Value.Tree
import CanonJson.Sample.Documents
import CanonJson.Syntax.Grammar
import CanonJson.Value.Equivalence
import CanonJson.Proofs.Number.Digits
import CanonJson.Proofs.Number.Normal
import CanonJson.Proofs.Value.Renumber
import CanonJson.Proofs.Text.Utf8
import CanonJson.Proofs.Layout.Escape
import CanonJson.Proofs.Layout.Shape
import CanonJson.Proofs.Layout.RoundTrip
import CanonJson.Proofs.Syntax.Parsed
import CanonJson.Proofs.Value.Walk
import CanonJson.Proofs.Order.Sort
import CanonJson.Proofs.Order.Lex
import CanonJson.Proofs.Order.Element
import CanonJson.Proofs.Order.Arranged
import CanonJson.Proofs.Order.Equivalence
import CanonJson.Proofs.Document
import CanonJson.Proofs.Text.Surrogate
import CanonJson.Proofs.Syntax.Locality
import CanonJson.Proofs.Syntax.Nesting
import CanonJson.Proofs.Failure
import CanonJson.Proofs.Order.Respelled
import CanonJson.Proofs.SecondPass
import CanonJson.Proofs.Files.Replace
import CanonJson.Proofs.Files.Update
import CanonJson.Proofs.Command.Choices
import CanonJson.Proofs.Files.Batch
import CanonJson.Proofs.Command.Transcript
import CanonJson.Proofs.Command.SecondRun
import CanonJson.Proofs.Command.Check
import CanonJson.Proofs.Command.Agreement
import CanonJson.Proofs.Value.Token
import CanonJson.Proofs.Order.NormalForm
import CanonJson.Proofs.Files.Independent
import CanonJson.Proofs.Command.DigestedCheck
import CanonJson.Proofs.Files.Pool
import CanonJson.Proofs.Number.Rational
import CanonJson.Proofs.Number.NormalLayout
import CanonJson.Proofs.Number.Decimal
import CanonJson.Proofs.Order.Numeric
import CanonJson.Proofs.Order.ByMember
import CanonJson.Proofs.Text.ValidPrefix
import CanonJson.Proofs.Syntax.Octets
import CanonJson.Proofs.Layout.Rules
import CanonJson.Proofs.Plain.Collapse
import CanonJson.Proofs.Plain.Walk
import CanonJson.Proofs.Plain.Unfolding
import CanonJson.Proofs.Plain.Expansion
import CanonJson.Proofs.Plain.Number
import CanonJson.Proofs.Plain.Meaning
import CanonJson.Proofs.Plain.RoundTrip
import CanonJson.Proofs.Value.Identity
import CanonJson.Proofs.Number.Shortest
import CanonJson.Proofs.Plain.Accepted
import CanonJson.Proofs.Syntax.NumberText
import CanonJson.Proofs.Order.Encoding
import CanonJson.Proofs.Layout.Alphabet
import CanonJson.Proofs.Number.Conversion
import CanonJson.Proofs.Value.Loop
import CanonJson.Proofs.Value.Foreign
import CanonJson.Proofs.Refusal
import CanonJson.Proofs.Files.Courses
import CanonJson.Proofs.Command.Courses
import CanonJson.Proofs.Command.Added
import CanonJson.Proofs.Command.Account
import CanonJson.Proofs.Command.Volume
