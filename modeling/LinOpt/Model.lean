import LinOpt.Position
import LinOpt.Dense.Basic
/-!
# Models

A model asks to optimise `costs · x` subject to one relation for each row of a dense matrix and to one
restriction for each variable. It is a plain record of parallel lists, because a caller may put one
together unchecked; `Model.shapeFault?` is the check that the lists agree in size.

A sense, a relation or a kind that is none of the known words is kept as it was given. The solvers read
an unknown sense as minimisation, an unknown relation as an equation and an unknown kind as `nonneg`.
-/

namespace LinOpt

/-- The direction of optimisation. -/
inductive Sense where
  | min
  | max
  | other (word : String)
  deriving Repr, DecidableEq

namespace Sense

/-- The word for a sense. -/
def name : Sense → String
  | .min => "min"
  | .max => "max"
  | .other word => word

/-- The sense a word stands for. -/
def ofName : String → Sense
  | "min" => .min
  | "max" => .max
  | word => .other word

/-- One for maximisation and minus one otherwise: the sign that turns the model into a maximisation. -/
def factor {α : Type} [Scalar α] : Sense → α
  | .max => 1
  | _ => -1

end Sense

/-- The relation between the two sides of a row. -/
inductive Relation where
  | le
  | ge
  | eq
  | other (word : String)
  deriving Repr, DecidableEq

namespace Relation

/-- The symbol of a relation. -/
def name : Relation → String
  | .le => "<="
  | .ge => ">="
  | .eq => "=="
  | .other word => word

/-- The relation a symbol stands for. -/
def ofName : String → Relation
  | "<=" => .le
  | ">=" => .ge
  | "==" => .eq
  | word => .other word

/-- The relation after both sides are negated. -/
def flip : Relation → Relation
  | .le => .ge
  | .ge => .le
  | r => r

end Relation

/-- What a variable may be. -/
inductive Kind where
  | free
  | nonneg
  | nonpos
  | int
  | bin
  | other (word : String)
  deriving Repr, DecidableEq

namespace Kind

/-- The word for a kind. -/
def name : Kind → String
  | .free => "free"
  | .nonneg => "nonneg"
  | .nonpos => "nonpos"
  | .int => "int"
  | .bin => "bin"
  | .other word => word

/-- The kind a word stands for. -/
def ofName : String → Kind
  | "free" => .free
  | "nonneg" => .nonneg
  | "nonpos" => .nonpos
  | "int" => .int
  | "bin" => .bin
  | word => .other word

/-- Must the variable be a whole number? -/
def isInteger : Kind → Bool
  | .int | .bin => true
  | _ => false

/-- The kind without the demand for whole numbers. -/
def relaxed (kind : Kind) : Kind := if kind.isInteger then .nonneg else kind

end Kind

/-- A linear model, continuous or integer, in dense form. -/
structure Model (α : Type) where
  /-- A title. -/
  name : String := "problem"
  /-- The direction of optimisation. -/
  sense : Sense
  /-- The coefficients, row by row. -/
  rows : Dense α
  /-- The right-hand sides. -/
  rhs : List α
  /-- The objective coefficients. -/
  costs : List α
  /-- The relation of each row. -/
  signs : List Relation
  /-- The kind of each variable. -/
  kinds : List Kind
  /-- The names of the variables, where they are given. -/
  givenNames : Option (List String) := none
  deriving Repr, DecidableEq

namespace Model

variable {α : Type}

/-- The number of rows. -/
def rowCount (model : Model α) : Nat := model.rhs.length

/-- The number of variables. -/
def variableCount (model : Model α) : Nat := model.costs.length

/-- The names of the variables: as given, or `x1`, `x2` and so on. -/
def names (model : Model α) : List String :=
  match model.givenNames with
  | some given => given
  | none => (List.range model.variableCount).map fun j => s!"x{j + 1}"

/-- The places of the variables that must be whole numbers. -/
def integerIndices (model : Model α) : List Nat :=
  (List.range model.kinds.length).filter fun j => (model.kinds.getD j .free).isInteger

/-- The first row whose length is not `expected`. -/
def rowFault? (expected : Nat) : Nat → Dense α → Option ShapeFault
  | _, [] => none
  | i, row :: more =>
    if row.length ≠ expected then some (.rowLength i row.length expected)
    else rowFault? expected (i + 1) more

/-- The first disagreement in size between the parts of a model. -/
def shapeFault? (model : Model α) : Option ShapeFault :=
  let m := model.rowCount
  let n := model.variableCount
  if model.rows.length ≠ m then some (.rowCount model.rows.length m)
  else match rowFault? n 0 model.rows with
    | some fault => some fault
    | none =>
      if model.signs.length ≠ m then some (.signCount m model.signs.length)
      else if model.kinds.length ≠ n then some (.kindCount n model.kinds.length)
      else match model.givenNames with
        | none => none
        | some given => if given.length ≠ n then some (.nameCount n given.length) else none

/-- The coefficients as a matrix of `rowCount` rows and `variableCount` columns. -/
def matrix (model : Model α) : Except (Fault α) (Dense α) :=
  let entries := model.rows.flatten
  let m := model.rowCount
  let n := model.variableCount
  if model.rows.any (fun row => row.length != (model.rows.headD []).length) then
    .error (.ragged [model.rows.length])
  else if entries.length ≠ m * n then .error (.reshape entries.length m n)
  else .ok ((List.range m).map fun i => (entries.drop (i * n)).take n)

/-- The model with one more row. -/
def withRow (model : Model α) (coefficients : List α) (sign : Relation) (rhs : α) :
    Except (Fault α) (Model α) :=
  if coefficients.length ≠ model.variableCount then
    .error (.rowLength coefficients.length model.variableCount)
  else .ok { model with
    rows := model.rows ++ [coefficients]
    rhs := model.rhs ++ [rhs]
    signs := model.signs ++ [sign] }

variable [Scalar α]

/-- The model with one more row that bounds the variable at position `index`. -/
def withBound (model : Model α) (index : Int) (value : α) (upper : Bool) :
    Except (Fault α) (Model α) := do
  let row ← Position.write (zeros model.variableCount) index 1
  model.withRow row (if upper then .le else .ge) value

/-- The places of the binary variables. -/
def binaryIndices (model : Model α) : List Nat :=
  (List.range model.kinds.length).filter fun j => model.kinds.getD j .free == .bin

/-- The continuous relaxation: whole numbers become nonnegative ones, and each binary variable gets a row
that bounds it by one. -/
def relaxed (model : Model α) : Except (Fault α) (Model α) :=
  model.binaryIndices.foldlM (fun (current : Model α) (j : Nat) => current.withBound j 1 true)
    { model with kinds := model.kinds.map Kind.relaxed }

/-- The model with the coefficient at a row and a column position replaced. -/
def setCoefficient (model : Model α) (row column : Int) (value : α) : Except (Fault α) (Model α) := do
  let old ← Position.read model.rows row
  let new ← Position.write old column value
  let rows ← Position.write model.rows row new
  return { model with rows := rows }

end Model

end LinOpt
