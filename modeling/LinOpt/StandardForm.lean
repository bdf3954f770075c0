import LinOpt.Model
import LinOpt.Options
/-!
# Standard form

The simplex method works on `rows x = rhs`, `x ≥ 0` with a maximised cost vector and a starting basis of
unit columns. A model is brought there in three steps.

* Each variable is held in one or two *structural* columns: a free one as a difference, a nonpositive one
  negated. The column and sign of each part are the variable's *components*.
* Each row is written over the structural columns and negated where its right-hand side is negative. A
  binary variable adds a row that bounds it by one.
* Each row gets columns of its own behind the structural ones: a slack for `≤`, a surplus and an
  artificial for `≥`, an artificial for an equation. Artificials cost `-bigM`.

The third step is `place`: everything about the own columns of a row is read off the row's number and its
first own column.
-/

namespace LinOpt

variable {α : Type} [Scalar α]

/-! ## Columns of a variable -/

/-- The columns that hold a variable, with the sign each has in it. -/
abbrev Components (α : Type) := List (List (Nat × α))

namespace Kind

/-- The columns, from column `first`, that hold a variable of this kind. -/
def parts (first : Nat) : Kind → List (Nat × α)
  | .free => [(first, 1), (first + 1, -1)]
  | .nonpos => [(first, -1)]
  | _ => [(first, 1)]

/-- The number of columns that hold a variable of this kind. -/
def width : Kind → Nat
  | .free => 2
  | _ => 1

/-- The names of the columns of a variable. -/
def columnNames (name : String) : Kind → List String
  | .free => [name ++ "__pos", name ++ "__neg"]
  | .nonpos => [name ++ "__neg"]
  | _ => [name]

end Kind

/-- The components of variables of the given kinds, from column `first` on. -/
def componentsFrom : Nat → List Kind → Components α
  | _, [] => []
  | first, kind :: kinds => kind.parts first :: componentsFrom (first + kind.width) kinds

/-- The entries with `value` added in a column. -/
def addEntry {κ : Type} [DecidableEq κ] (column : κ) (value : α) : List (κ × α) → List (κ × α)
  | [] => [(column, 0 + value)]
  | (k, v) :: entries =>
    if k = column then (k, v + value) :: entries else (k, v) :: addEntry column value entries

/-- Coefficients over variables as entries over structural columns, in the order in which the columns are
first met. A zero coefficient needs no component. The columns are names here, of any type. -/
def structuralRow {κ : Type} [DecidableEq κ] (components : List (List (κ × α))) (coefficients : List α) :
    Except (Fault α) (List (κ × α)) :=
  coefficients.zipIdx.foldlM
    (fun entries (coef, j) =>
      if coef == 0 then pure entries
      else do
        let parts ← Position.get components j
        return parts.foldl (fun entries (column, sign) => addEntry column (coef * sign) entries) entries)
    []

/-- The variables of a vector over columns; a value of negligible size is zero. -/
def reconstruct (components : Components α) (x : List α) : List α :=
  components.map fun parts =>
    Scalar.clean (parts.foldl (fun sum (column, sign) => sum + sign * entry x column) 0)

/-- The largest entry of `x` at the given columns, or zero without columns. -/
def artificialLevel (artificials : List Nat) (x : List α) : α :=
  match artificials.map (entry x) with
  | [] => 0
  | first :: rest => rest.foldl Scalar.larger first

/-! ## Rows over the structural columns -/

/-- What a column of the standard form is for. -/
inductive ColumnType where
  | structural
  | slack
  | surplus
  | artificial
  deriving Repr, DecidableEq

namespace ColumnType

/-- The word for a column type. -/
def name : ColumnType → String
  | .structural => "structural"
  | .slack => "slack"
  | .surplus => "surplus"
  | .artificial => "artificial"

end ColumnType

/-- Where a row of the standard form comes from. -/
inductive RowSource where
  /-- A row of the model. -/
  | model
  /-- The bound of a binary variable. -/
  | bound
  deriving Repr, DecidableEq

namespace RowSource

/-- The word for a source. -/
def name : RowSource → String
  | .model => "model"
  | .bound => "bound"

end RowSource

/-- A row as it is stated, over the variables. -/
structure StatedRow (α : Type) where
  name : String
  coefficients : List α
  sign : Relation
  rhs : α
  source : RowSource

/-- A row over the structural columns, with a right-hand side that is not negative. -/
structure OrientedRow (α : Type) where
  name : String
  source : RowSource
  /-- The entries over the structural columns. -/
  entries : List (Nat × α)
  sign : Relation
  rhs : α
  /-- Has the row been negated? -/
  flipped : Bool

/-- Writes a row over the structural columns and negates it where its right-hand side is negative. -/
def StatedRow.orient (components : Components α) (row : StatedRow α) :
    Except (Fault α) (OrientedRow α) := do
  let entries ← structuralRow components row.coefficients
  if row.rhs < 0 then
    return ⟨row.name, row.source, entries.map fun (k, v) => (k, -v), row.sign.flip, -row.rhs, true⟩
  else
    return ⟨row.name, row.source, entries, row.sign, row.rhs, false⟩

/-! ## The own columns of a row -/

/-- A row with its number and the first of its own columns. -/
structure PlacedRow (α : Type) where
  row : OrientedRow α
  index : Nat
  first : Nat

namespace Relation

/-- The number of own columns of a row with this relation. -/
def ownWidth : Relation → Nat
  | .ge => 2
  | _ => 1

/-- The types of the own columns. -/
def ownTypes : Relation → List ColumnType
  | .le => [.slack]
  | .ge => [.surplus, .artificial]
  | _ => [.artificial]

end Relation

namespace PlacedRow

/-- The entries of the row in its own columns. -/
def ownEntries (placed : PlacedRow α) : List (Nat × α) :=
  match placed.row.sign with
  | .le => [(placed.first, 1)]
  | .ge => [(placed.first, -1), (placed.first + 1, 1)]
  | _ => [(placed.first, 1)]

/-- The names of the own columns: a letter for the type, and the number of the row. -/
def ownNames (placed : PlacedRow α) : List String :=
  let number := placed.index + 1
  match placed.row.sign with
  | .le => [s!"s{number}"]
  | .ge => [s!"e{number}", s!"a{number}"]
  | _ => [s!"a{number}"]

/-- The column that is basic in this row at the start. -/
def basic (placed : PlacedRow α) : Nat :=
  match placed.row.sign with
  | .ge => placed.first + 1
  | _ => placed.first

/-- The slack or surplus column of the row and its sign in the row; an equation has none. -/
def slack (placed : PlacedRow α) : Option (Nat × α) :=
  match placed.row.sign with
  | .le => some (placed.first, 1)
  | .ge => some (placed.first, -1)
  | _ => none

/-- The artificial column of the row. -/
def artificial (placed : PlacedRow α) : Option Nat :=
  match placed.row.sign with
  | .le => none
  | .ge => some (placed.first + 1)
  | _ => some placed.first

/-- The slack column of a `≤` row. -/
def slackOnly (placed : PlacedRow α) : Option Nat :=
  match placed.row.sign with
  | .le => some placed.first
  | _ => none

end PlacedRow

/-- Numbers the rows from `index` and gives them own columns from `first` on. -/
def place : Nat → Nat → List (OrientedRow α) → List (PlacedRow α)
  | _, _, [] => []
  | index, first, row :: rows => ⟨row, index, first⟩ :: place (index + 1) (first + row.sign.ownWidth) rows

/-! ## The whole form -/

/-- A model as equations over nonnegative columns, with what is needed to read answers back. -/
structure StandardForm (α : Type) where
  /-- The coefficients, row by row. -/
  rows : Dense α
  /-- The right-hand sides, none negative. -/
  rhs : List α
  /-- The costs to maximise, with `-bigM` on the artificial columns. -/
  costs : List α
  /-- The basic column of each row at the start. -/
  basis : List Nat
  /-- The names of the variables. -/
  variableNames : List String
  /-- The direction of the model. -/
  sense : Sense
  /-- The names of the columns. -/
  columnNames : List String
  /-- The types of the columns. -/
  columnTypes : List ColumnType
  /-- The columns of each variable. -/
  components : Components α
  /-- The names of the rows. -/
  rowNames : List String
  /-- Where each row comes from. -/
  rowSources : List RowSource
  /-- Which rows have been negated. -/
  flipped : List Bool
  /-- The slack or surplus of each row. -/
  rowSlack : List (Option (Nat × α))
  /-- The artificial columns. -/
  artificials : List Nat
  /-- The slack columns of `≤` rows. -/
  slacks : List Nat
  /-- The structural columns. -/
  structurals : List Nat
  /-- The costs without the penalty. -/
  objective : List α

namespace StandardForm

/-- The number of columns. -/
def width (form : StandardForm α) : Nat := form.costs.length

/-- The number of rows. -/
def height (form : StandardForm α) : Nat := form.rows.length

/-- The name of a column. -/
def columnName (form : StandardForm α) (column : Nat) : Except (Fault α) String :=
  Position.get form.columnNames column

/-- Puts the placed rows together. `objective` has an entry for each column. -/
def assemble (opts : Options α) (model : Model α) (structuralNames : List String)
    (components : Components α) (objective : List α) (placed : List (PlacedRow α)) : StandardForm α :=
  let artificials := placed.filterMap PlacedRow.artificial
  let structuralWidth := structuralNames.length
  { rows := placed.map fun p => scatter (zeros objective.length) (p.row.entries ++ p.ownEntries)
    rhs := placed.map (·.row.rhs)
    costs := scatter objective (artificials.map fun k => (k, -opts.bigM))
    basis := placed.map PlacedRow.basic
    variableNames := model.names
    sense := model.sense
    columnNames := structuralNames ++ placed.flatMap PlacedRow.ownNames
    columnTypes := List.replicate structuralWidth .structural ++ placed.flatMap (·.row.sign.ownTypes)
    components
    rowNames := placed.map (·.row.name)
    rowSources := placed.map (·.row.source)
    flipped := placed.map (·.row.flipped)
    rowSlack := placed.map PlacedRow.slack
    artificials
    slacks := placed.filterMap PlacedRow.slackOnly
    structurals := List.range structuralWidth
    objective }

/-- A variable's name, and the row that bounds it where it is binary. -/
def readVariable (model : Model α) (kind : Kind) (j : Nat) :
    Except (Fault α) (String × Option (StatedRow α)) := do
  let name ← Position.get model.names j
  if kind = .bin then
    let unit ← Position.write (zeros model.variableCount) j 1
    return (name, some ⟨s!"bound_{name}_ub", unit, .le, 1, .bound⟩)
  else return (name, none)

/-- Row `i` of the model. -/
def readRow (model : Model α) (rhs : α) (i : Nat) : Except (Fault α) (StatedRow α) := do
  let coefficients ← Position.get model.rows i
  let sign ← Position.get model.signs i
  return ⟨s!"c{i + 1}", coefficients, sign, rhs, .model⟩

/-- The standard form of a model. -/
def build (opts : Options α) (model : Model α) : Except (Fault α) (StandardForm α) := do
  let declared ← model.kinds.zipIdx.mapM fun (kind, j) => readVariable model kind j
  let components : Components α := componentsFrom 0 model.kinds
  let structuralNames :=
    (List.zipWith (fun kind (name, _) => Kind.columnNames name kind) model.kinds declared).flatten
  -- every cost needs a variable, also a cost of zero
  if components.length < model.costs.length then throw .indexOutOfRange
  let costEntries ← structuralRow components (model.costs.map (model.sense.factor * ·))
  let stated ← model.rhs.zipIdx.mapM fun (rhs, i) => readRow model rhs i
  let oriented ← (stated ++ declared.filterMap (·.2)).mapM (StatedRow.orient components)
  let placed := place 0 structuralNames.length oriented
  let ownWidth := (placed.flatMap PlacedRow.ownNames).length
  let objective := scatter (zeros (structuralNames.length + ownWidth)) costEntries
  return assemble opts model structuralNames components objective placed

end StandardForm

end LinOpt
