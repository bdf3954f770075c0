import LinOpt.Instance.Generate
import LinOpt.Integer.BranchAndBound
/-!
# The benchmark table

Two small models and three random ones are solved by both simplex methods, and three random integer models
by branch and bound. Each solve is a row of comma-separated columns.
-/

namespace LinOpt

namespace Benchmark

/-- A production plan: two products under two capacities. -/
def production : Model Float :=
  { name := "production"
    sense := .max
    rows := [[1, 1], [2, 1]]
    rhs := [4, 6]
    costs := [3, 2]
    signs := [.le, .le]
    kinds := [.nonneg, .nonneg]
    givenNames := some ["tables", "chairs"] }

/-- A diet: two foods under two requirements. -/
def diet : Model Float :=
  { name := "diet"
    sense := .min
    rows := [[1, 2], [3, 1]]
    rhs := [8, 6]
    costs := [3, 2]
    signs := [.ge, .ge]
    kinds := [.nonneg, .nonneg]
    givenNames := some ["x", "y"] }

/-- The continuous models, with the names they are listed under. -/
def continuousCases : List (String × Model Float) :=
  [("examples/production.json", production), ("examples/diet.json", diet)] ++
    (List.range 3).map fun (seed : Nat) => (s!"random-{seed}", Instance.ofSeed ⟨6, 5, false⟩ seed)

/-- A row of the table. -/
def row (name method : String) (result : Result Float) : String :=
  let objective := match result.objective with
    | some z => Decimal.shortest z
    | none => "None"
  ",".intercalate [name, method, result.status.name, objective, toString result.iterations]

/-- The column titles. -/
def heading : String := "name,method,status,objective,iterations"

/-- The table, or the first failure. -/
def table : Except (Fault Float) (List String) := do
  let continuous ← continuousCases.mapM fun (name, model) =>
    Method.all.mapM fun method => do
      let result ← (Simplex.solve .silent { method } model).outcome
      return row name method.name result
  let integer ← (List.range 3).mapM fun (seed : Nat) => do
    let model := Instance.ofSeed ⟨4, 3, true⟩ seed
    let outcome ← (BranchAndBound.search .silent { maxNodes := 200 } model).outcome
    return row s!"random-ilp-{seed}" "branch_and_bound" outcome.result
  return heading :: continuous.flatten ++ integer

end Benchmark

end LinOpt
