import WhereClause.Proofs.Builder.Fields
import WhereClause.Proofs.Builder.Placeholders
import WhereClause.Proofs.Builder.Quotes
import WhereClause.Proofs.Builder.Values
import WhereClause.Proofs.Builder.Verdict
import WhereClause.Proofs.Dialect.Numeral
import WhereClause.Proofs.Tree.Meaning
import WhereClause.Proofs.Tree.NormalForm
import WhereClause.Proofs.Builder.Limits
import WhereClause.Proofs.Tree.Decoding
import WhereClause.Proofs.Tree.Encoding
import WhereClause.Proofs.Rule.Shape
import WhereClause.Proofs.Tree.FirstDefect
import WhereClause.Proofs.Tree.Parentheses
import WhereClause.Proofs.Tree.Transparency
import WhereClause.Proofs.Dialect.LetterCase
import WhereClause.Proofs.Renderers.Precedence
import WhereClause.Proofs.Dialect.Name
import WhereClause.Proofs.Identifier.Grammar
import WhereClause.Proofs.DeclaredType
import WhereClause.Proofs.DeclaredType.Text
import WhereClause.Proofs.Text.Bytes
