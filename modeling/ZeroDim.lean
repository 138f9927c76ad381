import ZeroDim.Operator.Diagonal
import ZeroDim.Operator.Multiplication
import ZeroDim.Parametrization.Text
import ZeroDim.Poly.Lemmas
import ZeroDim.Proofs.Hankel.Columns
import ZeroDim.Proofs.KeyEquation
import ZeroDim.Proofs.Sequence.Series
import ZeroDim.Solver.Session
import ZeroDim.Proofs.Hankel.Solution
import ZeroDim.Proofs.Numerator
import ZeroDim.Proofs.Agreement
import ZeroDim.Proofs.Poly.Multiplicity
import ZeroDim.Proofs.Poly.SquareFree
import ZeroDim.Proofs.Operator.Matrix
import ZeroDim.Proofs.Krylov.Sequence
import ZeroDim.Proofs.Krylov.Record
import ZeroDim.Proofs.Variables
import ZeroDim.Proofs.Parametrization.Filling
import ZeroDim.Proofs.Solver.Stages
import ZeroDim.Proofs.Solver.Outcome
import ZeroDim.Proofs.Solver.ShapePosition
import ZeroDim.Proofs.Solver.Quotients
import ZeroDim.Proofs.Solver.ProbeInvariance
import ZeroDim.Proofs.Elimination
import ZeroDim.Proofs.Solver.Totality
import ZeroDim.Proofs.Solver.WellFormed
import ZeroDim.Proofs.Hankel.Regular
import ZeroDim.Proofs.Hankel.Exactness
import ZeroDim.Proofs.Solver.Failures
import ZeroDim.Proofs.Solver.Freshness
import ZeroDim.Proofs.Strict.Poly
import ZeroDim.Proofs.Strict.Euclid
import ZeroDim.Proofs.Strict.Hankel
import ZeroDim.Proofs.Strict.Sequence
import ZeroDim.Proofs.Strict.Coordinates
import ZeroDim.Proofs.Strict.Session
import ZeroDim.Proofs.Solver.LearnedDegree
import ZeroDim.Proofs.Solver.Proportional
import ZeroDim.Proofs.Solver.ProbeScaling
import ZeroDim.Proofs.Solver.Verification
import ZeroDim.Proofs.Hankel.Escalation
import ZeroDim.Proofs.Hankel.Fingerprint
import ZeroDim.Proofs.Hankel.Degree
import ZeroDim.Proofs.Sequence.MinimalPolynomial
import ZeroDim.Proofs.Poly.Factors
import ZeroDim.Proofs.Poly.Radical
import ZeroDim.Proofs.QuotientCheck
import ZeroDim.Proofs.Operator.Partition
import ZeroDim.Proofs.Operator.Rows
import ZeroDim.Proofs.Krylov.Generation
import ZeroDim.Proofs.Parametrization.Substitution
import ZeroDim.Proofs.Poly.Bezout
import ZeroDim.Proofs.Poly.Convolution
import ZeroDim.Proofs.Poly.Expression
import ZeroDim.Proofs.Field.Invertible
import ZeroDim.Proofs.Field.Modulus
import ZeroDim.Proofs.Field.ScalarProduct
import ZeroDim.Proofs.Poly.LongDivision
import ZeroDim.Proofs.Sequence.Approximation
import ZeroDim.Proofs.Parametrization.Text
import ZeroDim.Proofs.Solver.Written
