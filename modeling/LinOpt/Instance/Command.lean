import LinOpt.Instance.Generate
import LinOpt.Number.Numeral
/-!
# The command line of the generator

Options are given as `--name value` or `--name=value`, and a name may be shortened as long as it stays
unambiguous. What each argument is, is settled for all arguments before any of them takes effect: a name that
could stand for two options refuses the whole line. Then the options take effect from left to right, and an
argument that nothing asked for refuses the line at its end, so a plea for help before that is still heard.
-/

namespace LinOpt

namespace Instance

/-- What the generator is asked for. -/
structure Request where
  variableCount : Int := 3
  rows : Int := 3
  seed : Int := 0
  count : Int := 1
  integer : Bool := false
  /-- The file to write to, instead of standard output. -/
  out : Option String := none
  deriving Repr, DecidableEq

/-- The ways to leave the command line without generating. -/
inductive Refusal where
  /-- Help was asked for. -/
  | help
  /-- The arguments make no sense. -/
  | usage
  deriving Repr, DecidableEq

namespace Refusal

/-- The exit code. -/
def exitCode : Refusal → Nat
  | .help => 0
  | .usage => 2

end Refusal

/-- The options. -/
inductive Flag where
  | variableCount
  | constraints
  | seed
  | count
  | integer
  | out
  | help
  deriving Repr, DecidableEq

namespace Flag

/-- Every option with its name. -/
def names : List (String × Flag) :=
  [("--vars", .variableCount), ("--constraints", .constraints), ("--seed", .seed), ("--count", .count),
    ("--integer", .integer), ("--out", .out), ("--help", .help)]

/-- The options whose names begin with the given characters. -/
def beginning (name : List Char) : List Flag :=
  (names.filter fun (full, _) => name.isPrefixOf full.toList).map (·.2)

end Flag

/-! ## What an argument is -/

/-- What an argument is, by itself. -/
inductive Reading where
  /-- A value, for an option that asks for one. -/
  | value
  /-- An option, with the value joined to it. -/
  | option (flag : Flag) (joined : Option String)
  /-- Letters behind an option that takes none. -/
  | misuse
  /-- It looks like an option, and there is none of that name. -/
  | unknown
  deriving Repr, DecidableEq

/-- Is the text a negative number, and so a value? -/
def isNegativeNumber (text : List Char) : Bool :=
  -- a line end may close the number
  let text := if text.getLast? = some '\n' then text.dropLast else text
  match text with
  | '-' :: rest =>
    let whole := rest.takeWhile isDecimalDigit
    match rest.dropWhile isDecimalDigit with
    | [] => !whole.isEmpty
    | '.' :: fraction => !fraction.isEmpty && fraction.all isDecimalDigit
    | _ => false
  | _ => false

/-- The letters behind `-h`: the letter may be repeated, and from any other letter on they are ignored. -/
def helpCluster : List Char → Reading
  | [] => .option .help none
  | c :: rest =>
    if c = '-' then .misuse
    else if c = 'h' then
      if rest.head? = some '=' then .misuse else helpCluster rest
    else .option .help none

/-- An argument that names no option and is none by its form: a value or an unknown option. -/
def readPlain (text : List Char) : Reading :=
  if isNegativeNumber text || text.contains ' ' then .value else .unknown

/-- What an argument is; there is no answer where a shortened name is ambiguous. -/
def readArgument (argument : String) : Option Reading :=
  let text := argument.toList
  let name := text.takeWhile (· != '=')
  let joined := match text.dropWhile (· != '=') with
    | _ :: value => some (String.ofList value)
    | [] => none
  match text with
  | '-' :: '-' :: _ =>
    match Flag.names.lookup (String.ofList name) with
    | some flag => some (.option flag joined)
    | none =>
      match Flag.beginning name with
      | [] => some (readPlain text)
      | [flag] => some (.option flag joined)
      | _ => none
  | '-' :: 'h' :: '=' :: _ => some (.option .help joined)
  | '-' :: 'h' :: rest => some (helpCluster rest)
  | '-' :: _ :: _ => some (readPlain text)
  | _ => some .value

/-- What the arguments are. Behind a bare `--`, which is of no use here, all are values. -/
def readArguments : List String → Option (List (String × Reading))
  | [] => some []
  | argument :: rest =>
    if argument = "--" then some ((argument, .unknown) :: rest.map (·, .value))
    else do return (argument, ← readArgument argument) :: (← readArguments rest)

/-! ## What they ask for -/

/-- The request with an option set to a value. -/
def Request.set (request : Request) (flag : Flag) (value : String) : Except Refusal Request :=
  match flag with
  | .out => .ok { request with out := some value }
  | .integer | .help => .error .usage
  | flag =>
    match Numeral.int? value with
    | none => .error .usage
    | some n => .ok (match flag with
      | .variableCount => { request with variableCount := n }
      | .constraints => { request with rows := n }
      | .seed => { request with seed := n }
      | _ => { request with count := n })

/-- How the options are given. -/
def Request.usage : String :=
  "usage: [-h] [--vars VARS] [--constraints CONSTRAINTS] [--seed SEED] [--count COUNT] [--integer] [--out OUT]"

/-- Lets the options take effect one by one. The flag says that an argument was not asked for. -/
def Request.fill : List (String × Reading) → Bool → Request → Except Refusal Request
  | [], stray, request => if stray then .error .usage else .ok request
  | (_, reading) :: rest, stray, request =>
    match reading with
    | .value | .unknown => Request.fill rest true request
    | .misuse => .error .usage
    | .option .help none => .error .help
    | .option .integer none => Request.fill rest stray { request with integer := true }
    | .option flag (some value) => do
      let request ← request.set flag value
      Request.fill rest stray request
    | .option flag none =>
      match rest with
      | (value, .value) :: rest => do
        let request ← request.set flag value
        Request.fill rest stray request
      | _ => .error .usage

/-- Reads the arguments. -/
def Request.parse (arguments : List String) : Except Refusal Request :=
  match readArguments arguments with
  | none => .error .usage
  | some readings => Request.fill readings false {}

/-- The instances asked for; each one has the next seed. -/
def Request.instances (request : Request) : List (Model Float) :=
  (List.range request.count.toNat).map fun (i : Nat) =>
    ofSeed ⟨request.variableCount, request.rows, request.integer⟩ (request.seed + i)

end Instance

end LinOpt
