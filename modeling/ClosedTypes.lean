import ClosedTypes.Proofs.Context.Commit
import ClosedTypes.Reduction.Relation
import ClosedTypes.Session.Reachable
import ClosedTypes.Term.Nameless
import ClosedTypes.Typing.Declarative
import ClosedTypes.Proofs.Context.Rollback
import ClosedTypes.Proofs.Answers
import ClosedTypes.Proofs.Block.Validators
import ClosedTypes.Proofs.Ty.Bind
import ClosedTypes.Proofs.Typing.Formed
import ClosedTypes.Proofs.Typing.Solutions
import ClosedTypes.Proofs.Typing.Unification
import ClosedTypes.Proofs.Typing.Answers
import ClosedTypes.Proofs.Context.Extension
import ClosedTypes.Proofs.Typing.State
import ClosedTypes.Proofs.Term.Free
import ClosedTypes.Proofs.Typing.Soundness
import ClosedTypes.Proofs.Typing.Inference
import ClosedTypes.Proofs.Typing.Scope
import ClosedTypes.Proofs.Context.Growth
import ClosedTypes.Proofs.Context.WellFormed
import ClosedTypes.Proofs.Context.Closed
import ClosedTypes.Proofs.Context.Reachable
import ClosedTypes.Proofs.Archive.Utf8
import ClosedTypes.Proofs.Archive.Reads
import ClosedTypes.Proofs.Archive.Header
import ClosedTypes.Proofs.Archive.Fits
import ClosedTypes.Proofs.Archive.Codec
import ClosedTypes.Proofs.Context.Installed
import ClosedTypes.Proofs.Archive.Log
import ClosedTypes.Proofs.Archive.Recomputed
import ClosedTypes.Proofs.Session
import ClosedTypes.Proofs.Reduction.Evaluation
import ClosedTypes.Proofs.Term.Substitution
import ClosedTypes.Proofs.Typing.Erased
import ClosedTypes.Proofs.Reduction.Preservation
import ClosedTypes.Proofs.Reduction.Canonicity
import ClosedTypes.Proofs.Term.Nameless
import ClosedTypes.Proofs.Term.Capture
import ClosedTypes.Proofs.Typing.Programs
import ClosedTypes.Proofs.Reduction.NormalForm
import ClosedTypes.Proofs.Reduction.SubjectReduction
import ClosedTypes.Proofs.Context.Conservative
import ClosedTypes.Proofs.Term.Uses
import ClosedTypes.Proofs.Reduction.Fold
import ClosedTypes.Proofs.Reduction.Agreement
import ClosedTypes.Proofs.Reduction.Lockstep
import ClosedTypes.Proofs.Faithfulness
import ClosedTypes.Term.Skeleton
import ClosedTypes.Term.Frame
import ClosedTypes.Reduction.Skeleton
import ClosedTypes.Proofs.Term.Skeleton
import ClosedTypes.Proofs.Reduction.Skeleton
import ClosedTypes.Proofs.Reduction.Computed
import ClosedTypes.Proofs.Reduction.Translation
import ClosedTypes.Proofs.Reduction.Uniqueness
import ClosedTypes.Proofs.Reduction.Reducts
import ClosedTypes.Proofs.Reduction.Loading
import ClosedTypes.Proofs.Context.Fitting
import ClosedTypes.Proofs.Context.Congruence
import ClosedTypes.Proofs.Context.Instances
import ClosedTypes.Proofs.Reduction.Declared
import ClosedTypes.Proofs.Reduction.Budget
import ClosedTypes.Proofs.Reduction.Renaming
import ClosedTypes.Proofs.Typing.Backed
import ClosedTypes.Proofs.Reduction.Loaded
import ClosedTypes.Proofs.Context.Reordered
import ClosedTypes.Typing.Reachable
import ClosedTypes.Proofs.Term.Alpha
import ClosedTypes.Proofs.Typing.MostGeneral
import ClosedTypes.Proofs.Reduction.Equivalence
import ClosedTypes.Proofs.Archive.Locality
import ClosedTypes.Term.Value
import ClosedTypes.Proofs.Reduction.Arithmetic
import ClosedTypes.Proofs.Faithfulness.Coverage
import ClosedTypes.Proofs.Faithfulness.Verdicts
import ClosedTypes.Proofs.Context.Faithfulness
import ClosedTypes.Archive.Bounds
import ClosedTypes.Proofs.Archive.Bounds
import ClosedTypes.Typing.Walks
import ClosedTypes.Proofs.Typing.Walks
import ClosedTypes.Proofs.Typing.Survival
import ClosedTypes.Proofs.Reduction.Termination
import ClosedTypes.Term.Plain
import ClosedTypes.Proofs.Reduction.Plain
import ClosedTypes.Proofs.Reduction.Linear
import ClosedTypes.Proofs.Reduction.FreeVariables
import ClosedTypes.Proofs.Typing.Renaming
import ClosedTypes.Proofs.Session.Staging
import ClosedTypes.Proofs.Context.Unobservable
