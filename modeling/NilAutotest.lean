import NilAutotest.Text.Lines
import NilAutotest.Text.Numeral
import NilAutotest.Posix.Pattern
import NilAutotest.Posix.Filters
import NilAutotest.Python.Text
import NilAutotest.Python.Number
import NilAutotest.Autotest.Massif
import NilAutotest.Autotest.Heap
import NilAutotest.Autotest.Peak
import NilAutotest.Autotest.Time
import NilAutotest.Python.Action
import NilAutotest.Autotest.Suite
import NilAutotest.Autotest.Verdict
import NilAutotest.Rollback.Trace
import NilAutotest.Contract.StorageProofVerifier
import NilAutotest.Contract.Authority
import NilAutotest.Contract.Binding
import NilAutotest.Codec.Reader
import NilAutotest.JavaScript.BigInt
import NilAutotest.JavaScript.Value
import NilAutotest.Tasks.Format
import NilAutotest.Tasks.Params
import NilAutotest.Tasks.Decoding
import NilAutotest.Tasks.Rejection
import NilAutotest.StorageProof.MockData
import NilAutotest.StorageProof.SendData
import NilAutotest.Evm.Memory
import NilAutotest.GateArgument.Program
import NilAutotest.GateArgument.Template
import NilAutotest.GateArgument.Evaluation
import NilAutotest.Batching.Combination
import NilAutotest.Arithmetic.Primality
import NilAutotest.GateArgument.Modulus
import NilAutotest.Control.Except
import NilAutotest.Evm.Placement
import NilAutotest.GateArgument.Meaning
import NilAutotest.GateArgument.Argument
import NilAutotest.GateArgument.Soundness
import NilAutotest.Circuit.Expression
import NilAutotest.Circuit.Verifier
import NilAutotest.GateArgument.Agreement
import NilAutotest.Fourier.Transform
import NilAutotest.Domain.Radix2
import NilAutotest.Domain.EvaluationDomain
import NilAutotest.Domain.PolynomialDfs
import NilAutotest.Domain.Bounded
import NilAutotest.Domain.Division
import NilAutotest.Circuit.Computed
import NilAutotest.Circuit.Prover
import NilAutotest.Circuit.ProverAgreement
import NilAutotest.Permutation.Cycles
import NilAutotest.Circuit.CopyConstraints
import NilAutotest.Circuit.Quotient
import NilAutotest.Circuit.PermutationArgument
import NilAutotest.Circuit.PermutationAgreement
import NilAutotest.Circuit.Placeholder
import NilAutotest.Circuit.ArgumentPolynomials
import NilAutotest.Circuit.PlaceholderAgreement
