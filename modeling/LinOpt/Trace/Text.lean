import LinOpt.Dense.Block
import LinOpt.Text.Blank
import LinOpt.Trace
/-!
# The text of a trace

Events become lines of fixed width. A matrix has a line for its column names and one for each row, with
ten characters to a number; a vector has one line for each entry. Matrix entries are rounded by scaling,
vector entries exactly.
-/

namespace LinOpt

namespace Layout

/-- The width of a matrix column. -/
def columnWidth : Nat := 10

/-- A power of ten: exact up to `10 ^ 22`, and from there on multiplied by ten step by step. -/
def powerOfTen (n : Nat) : Float :=
  -- four hundred steps lead to infinity
  (List.range (min (n - 22) 400)).foldl (fun power _ => power * 10) (Float.ofScientific 1 false (min n 22))

/-- A number rounded to `digits` places by scaling with a power of ten. -/
def roundScaled (digits : Nat) (x : Float) : Float :=
  let scale := powerOfTen digits
  rintFloat (x * scale) / scale

/-- A matrix entry, at the right of its column. -/
def cell (digits : Nat) (x : Float) : String :=
  Decimal.padLeft columnWidth ' ' (Decimal.fixed digits (roundScaled digits x))

/-- The lines of a matrix. -/
def matrixLines (title : String) (rows : Dense Float) (digits : Nat)
    (columnNames rowNames : List String) : List String :=
  let labelWidth := (rowNames.map String.length).foldl Nat.max 0
  let heading :=
    if columnNames.isEmpty then []
    else [trimLineEnd (String.join
      (Decimal.padRight labelWidth "" :: columnNames.map (Decimal.padLeft columnWidth ' ')))]
  let body := (if rows.isEmpty then [[]] else rows).mapIdx fun i row =>
    Decimal.padRight labelWidth (rowNames.getD i "") ++ String.join (row.map (cell digits))
  s!"{title}:" :: heading ++ body

/-- The lines of a vector; an entry without a name goes by its place. -/
def vectorLines (title : String) (entries : List Float) (digits : Nat) (names : List String) :
    List String :=
  s!"{title}:" :: entries.mapIdx fun i x =>
    let name := if names.isEmpty then s!"[{i}]" else names.getD i ""
    s!"{name}: " ++ Decimal.fixed digits x

end Layout

namespace Event

/-- The lines of an event that can be laid out. -/
def layout : Event Float → List String
  | .line phrase => [phrase.render]
  | .header title => [s!"=== {title} ==="]
  | .matrix title rows digits columnNames rowNames =>
    Layout.matrixLines title rows digits.toNat columnNames rowNames
  | .vector title entries digits names => Layout.vectorLines title entries digits.toNat names

/-- Why an event of binary64 numbers cannot be laid out, if it cannot. The entries of a vector are rounded
before they are printed, and to a negative count of digits this alone may fail. -/
def layoutFault? (event : Event Float) : Option (Fault Float) :=
  match event with
  | .vector _ (first :: _) digits _ =>
    if digits < 0 && Decimal.roundsBeyond digits first then some .roundedTooLarge else event.fault?
  | event => event.fault?

/-- The lines of an event, or why it has none. -/
def lines (event : Event Float) : Except (Fault Float) (List String) :=
  match event.layoutFault? with
  | some cause => .error cause
  | none => .ok event.layout

/-- Shows a block of any rank as a matrix: a number or a vector is one row. Above rank two an entry of a row
is itself an array, which cannot be printed as a number. -/
def ofBlock (title : String) (block : Block Float) (digits : Int) (columnNames rowNames : List String) :
    Except (Fault Float) (Event Float) :=
  let matrix (rows : Dense Float) : Event Float := .matrix title rows digits columnNames rowNames
  match block.shape with
  | [] => .ok (matrix [block.entries])
  | [_] => .ok (matrix [block.entries])
  | [m, n] => .ok (matrix (block.rows m n))
  | m :: 0 :: _ => .ok (matrix (List.replicate m []))
  | _ => .error .unformattable

end Event

namespace Traced

/-- The lines of the events of a computation. -/
def log {β : Type} (run : Traced Float β) : List String := run.events.flatMap Event.layout

end Traced

/-! ## Journals -/

/-- How important a line is that is handed on. -/
inductive Level where
  | critical
  | error
  | warning
  | info
  | debug
  /-- No importance at all: the line is not taken. -/
  | unset
  deriving Repr, DecidableEq

namespace Level

/-- The words for levels; two of them have two. -/
def words : List (String × Level) :=
  [("CRITICAL", .critical), ("FATAL", .critical), ("ERROR", .error), ("WARNING", .warning),
   ("WARN", .warning), ("INFO", .info), ("DEBUG", .debug), ("NOTSET", .unset)]

/-- The level that a word stands for. -/
def ofWord? (word : String) : Option Level := words.lookup word

/-- The name under which a level is recorded. -/
def name : Level → String
  | .critical => "CRITICAL"
  | .error => "ERROR"
  | .warning => "WARNING"
  | .info => "INFO"
  | .debug => "DEBUG"
  | .unset => "NOTSET"

end Level

/-- What a journal does with the lines of an event. -/
inductive Sink where
  /-- Keeps them. -/
  | keep
  /-- Lets every event pass, without laying it out. -/
  | discard
  /-- Hands them on at a level. -/
  | forward (level : Level)
  deriving Repr, DecidableEq

/-- A book of lines. -/
structure Journal where
  /-- What happens to the lines. -/
  sink : Sink
  /-- The lines kept. -/
  lines : List String := []
  /-- The lines handed on, with their level. -/
  records : List (Level × String) := []
  deriving Repr, DecidableEq

namespace Journal

/-- Takes an event. An event that cannot be stated or laid out changes nothing. -/
def add (journal : Journal) (event : Except (Fault Float) (Event Float)) :
    Except (Fault Float) Journal :=
  match journal.sink with
  | .discard => .ok journal
  | .keep => do
    let lines ← (← event).lines
    return { journal with lines := journal.lines ++ lines }
  | .forward level => do
    let lines ← (← event).lines
    if level = .unset then return journal
    else return { journal with records := journal.records ++ lines.map (level, ·) }

/-- Drops the lines kept. -/
def clear (journal : Journal) : Except (Fault Float) Journal :=
  match journal.sink with
  | .discard => .error (.keepsNothing "clear")
  | _ => .ok { journal with lines := [] }

/-- The lines kept, as one text. -/
def text (journal : Journal) : Except (Fault Float) String :=
  match journal.sink with
  | .discard => .error (.keepsNothing "text")
  | _ => .ok ("\n".intercalate journal.lines)

end Journal

end LinOpt
