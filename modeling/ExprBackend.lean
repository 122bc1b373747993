import ExprBackend.Proofs.ArgumentBinding
import ExprBackend.Proofs.ArgumentPaths
import ExprBackend.Proofs.Chains
import ExprBackend.Proofs.ConstantPool
import ExprBackend.Proofs.Fingerprint
import ExprBackend.Proofs.Identifiers
import ExprBackend.Proofs.IntegerArithmetic
import ExprBackend.Proofs.NameCoverage
import ExprBackend.Proofs.Numbering
import ExprBackend.Proofs.Recollection
import ExprBackend.Proofs.Registration
import ExprBackend.Proofs.Repetition
import ExprBackend.Proofs.Scoping
import ExprBackend.Proofs.Termination
import ExprBackend.Proofs.TextSlices
import ExprBackend.Proofs.ValueOrder
