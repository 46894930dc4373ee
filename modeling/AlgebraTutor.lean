import AlgebraTutor.Service.Reply
import AlgebraTutor.Proofs.Canonical.Fraction
import AlgebraTutor.Proofs.Canonical.Places
import AlgebraTutor.Proofs.Pattern.Agreement
import AlgebraTutor.Proofs.Pattern.Monomials
import AlgebraTutor.Proofs.Step.Verdict
import AlgebraTutor.Proofs.Step.Walk
import AlgebraTutor.Proofs.Symmetry
import AlgebraTutor.Proofs.Canonical.Distributed
import AlgebraTutor.Proofs.Canonical.Tidied
import AlgebraTutor.Proofs.Decimal.Nearest
import AlgebraTutor.Proofs.Decimal.Printed
import AlgebraTutor.Proofs.DoubledOperator
import AlgebraTutor.Proofs.Reader.Decimal
import AlgebraTutor.Proofs.Reader.DecimalRoundTrip
import AlgebraTutor.Proofs.Pattern.Arithmetic
import AlgebraTutor.Proofs.Pattern.DecimalForm
import AlgebraTutor.Proofs.Step.Move
import AlgebraTutor.Proofs.Pattern.Reciprocals
import AlgebraTutor.Proofs.Pattern.TermTexts
import AlgebraTutor.Proofs.Text.Plain
import AlgebraTutor.Proofs.Text.Spelled
