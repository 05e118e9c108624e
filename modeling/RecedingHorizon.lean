import RecedingHorizon.ClosedLoop
import RecedingHorizon.Journal
import RecedingHorizon.Proofs.Budget
import RecedingHorizon.Proofs.Certificate
import RecedingHorizon.Proofs.Comparison
import RecedingHorizon.Proofs.Complementarity
import RecedingHorizon.Proofs.ConvergedAnswers
import RecedingHorizon.Proofs.Convergence
import RecedingHorizon.Proofs.ConvexWeights
import RecedingHorizon.Proofs.Coordinates
import RecedingHorizon.Proofs.CostUnit
import RecedingHorizon.Proofs.Dimensions
import RecedingHorizon.Proofs.Equilibrium
import RecedingHorizon.Proofs.FiniteAnswers
import RecedingHorizon.Proofs.FiniteFactor
import RecedingHorizon.Proofs.Finiteness
import RecedingHorizon.Proofs.Homogeneity
import RecedingHorizon.Proofs.InPlace
import RecedingHorizon.Proofs.IndependentParts
import RecedingHorizon.Proofs.LowerTriangle
import RecedingHorizon.Proofs.PositiveDefinite
import RecedingHorizon.Proofs.Refusal
import RecedingHorizon.Proofs.Scaling
import RecedingHorizon.Proofs.SetPoint
import RecedingHorizon.Proofs.StageBounds
import RecedingHorizon.Proofs.StageOrder
import RecedingHorizon.Proofs.SymmetryTest
import RecedingHorizon.Proofs.TrackingCost
import RecedingHorizon.Proofs.Violation
import RecedingHorizon.Settings.Text
