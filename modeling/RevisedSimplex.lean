import RevisedSimplex.Proofs.BasisOrder
import RevisedSimplex.Proofs.Construction
import RevisedSimplex.Proofs.DualRatio
import RevisedSimplex.Proofs.Elements
import RevisedSimplex.Proofs.Fairness
import RevisedSimplex.Proofs.Isolation
import RevisedSimplex.Proofs.LexDescent
import RevisedSimplex.Proofs.NearOptimality
import RevisedSimplex.Proofs.PhaseTwo
import RevisedSimplex.Proofs.Reinsertion
import RevisedSimplex.Proofs.Rendering
import RevisedSimplex.Proofs.RowSymmetry
import RevisedSimplex.Proofs.Truncation
import RevisedSimplex.Proofs.Workspace
import RevisedSimplex.Proofs.ZeroLevel
import RevisedSimplex.RowMatrix.Lemmas
import RevisedSimplex.Run.Lemmas
import RevisedSimplex.Run.Log
import RevisedSimplex.Solver
