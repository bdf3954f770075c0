import LinOpt.Analysis.Duality
import LinOpt.Analysis.NewConstraint
import LinOpt.Analysis.Sensitivity
import LinOpt.Dense.Block
import LinOpt.Document.Json
import LinOpt.Document.Print
import LinOpt.Document.Schema
import LinOpt.Instance.Benchmark
import LinOpt.Instance.Command
import LinOpt.Integer.BranchAndBound
import LinOpt.Integer.CuttingPlane
import LinOpt.Integer.Knapsack
import LinOpt.Main
import LinOpt.Service
import LinOpt.Tableau.Stated
import LinOpt.Trace.Text
import LinOpt.Proofs.Simplex.Optimum
import LinOpt.Proofs.Simplex.PhaseOne
import LinOpt.Proofs.Simplex.Unbounded
import LinOpt.Proofs.Tableau.AddedRow
import LinOpt.Proofs.Tableau.DualOutcome
import LinOpt.Proofs.Tableau.FromBasis
import LinOpt.Proofs.Tableau.Reachable
import LinOpt.Proofs.Integer.Bounds
import LinOpt.Proofs.Analysis.WeakDuality
import LinOpt.Proofs.Integer.Search
import LinOpt.Proofs.Simplex.Solution
import LinOpt.Proofs.Integer.Accepted
import LinOpt.Proofs.Integer.CutVerdicts
import LinOpt.Proofs.StandardForm.Labels
import LinOpt.Proofs.StandardForm.Relaxation
import LinOpt.Proofs.Analysis.Rewritings
import LinOpt.Proofs.Analysis.CostRanges
import LinOpt.Proofs.Analysis.RhsRanges
import LinOpt.Proofs.Analysis.ShadowPrices
import LinOpt.Proofs.Analysis.NewConstraint
import LinOpt.Proofs.Integer.ExactCuts
import LinOpt.Proofs.Integer.Frontier
import LinOpt.Proofs.Service
import LinOpt.Proofs.Analysis.DualOfDual
import LinOpt.Proofs.Integer.BestBound
import LinOpt.Proofs.Integer.Nodes
import LinOpt.Proofs.Simplex.Termination
import LinOpt.Proofs.Simplex.Ties
import LinOpt.Proofs.Inversion
import LinOpt.Proofs.Instance
import LinOpt.Proofs.Operations
import LinOpt.Proofs.Integer.Separation
import LinOpt.Proofs.Analysis.NewActivity
import LinOpt.Proofs.StandardForm.WellFormed
