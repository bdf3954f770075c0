import LinOpt.Dense.Basic
import LinOpt.Position
/-!
# Traces

A solver tells an observer what it does, as a sequence of events. An event is data: numbers are not yet
text. An observer that records has to be able to lay the event out, and an event that cannot be laid out
stops the run; a silent observer takes everything and keeps nothing.

`Traced` is the type of a computation that emits events and may fail. What it answers depends on the
answers of its parts only: `outcome_bind` is the law through which later arguments leave the events out.
-/

namespace LinOpt

/-- Something a solver reports while it runs. -/
inductive Event (α : Type) where
  /-- A line. -/
  | line (phrase : Phrase α)
  /-- The title of a part of the trace. -/
  | header (title : String)
  /-- A matrix with names for its columns and rows. No names are an empty list. -/
  | matrix (title : String) (rows : Dense α) (digits : Int) (columnNames rowNames : List String)
  /-- A vector with a name for each entry. No names are an empty list. -/
  | vector (title : String) (entries : List α) (digits : Int) (names : List String)
  deriving Repr

namespace Event

variable {α : Type}

/-- What is wrong with laying out a matrix row by row: a row without a name, where rows are named, or a
number to a negative count of digits. -/
def rowFault? (digits : Int) (named : Bool) : Dense α → List String → Option (Fault α)
  | [], _ => none
  | row :: rows, names =>
    if named && names.isEmpty then some .indexOutOfRange
    else if digits < 0 && !row.isEmpty then some .missingPrecision
    else rowFault? digits named rows names.tail

/-- What is wrong with laying out a vector entry by entry. -/
def entryFault? (digits : Int) (named : Bool) : List α → List String → Option (Fault α)
  | [], _ => none
  | _ :: entries, names =>
    if named && names.isEmpty then some .indexOutOfRange
    else if digits < 0 then some .missingPrecision
    else entryFault? digits named entries names.tail

/-- Why the event cannot be laid out, if it cannot. -/
def fault? : Event α → Option (Fault α)
  | .line _ => none
  | .header _ => none
  | .matrix _ rows digits _ rowNames =>
    -- a matrix without rows is laid out as one empty row
    rowFault? digits (!rowNames.isEmpty) (if rows.isEmpty then [[]] else rows) rowNames
  | .vector _ entries digits names => entryFault? digits (!names.isEmpty) entries names

end Event

/-- A computation that emits events and ends in a value or a fault. -/
structure Traced (α β : Type) where
  /-- The events, in order. -/
  events : List (Event α)
  /-- The value or the fault. -/
  outcome : Except (Fault α) β

namespace Traced

variable {α β γ : Type}

/-- Emits nothing. -/
def ofExcept (outcome : Except (Fault α) β) : Traced α β := ⟨[], outcome⟩

/-- Hands the fault to the caller as a value. -/
def attempt (run : Traced α β) : Traced α (Except (Fault α) β) := ⟨run.events, .ok run.outcome⟩

/-- Goes on with the value, unless there is a fault. -/
def andThen (first : Traced α β) (next : β → Traced α γ) : Traced α γ :=
  match first.outcome with
  | .ok value =>
    let rest := next value
    ⟨first.events ++ rest.events, rest.outcome⟩
  | .error cause => ⟨first.events, .error cause⟩

instance : Monad (Traced α) where
  pure value := ⟨[], .ok value⟩
  bind := andThen

instance : MonadExcept (Fault α) (Traced α) where
  throw cause := ⟨[], .error cause⟩
  tryCatch first handler := first.attempt.andThen fun
    | .ok value => ⟨[], .ok value⟩
    | .error cause => handler cause

instance : MonadLift (Except (Fault α)) (Traced α) where
  monadLift := ofExcept

@[simp] theorem outcome_pure (value : β) : (pure value : Traced α β).outcome = .ok value := rfl

@[simp] theorem outcome_ofExcept (result : Except (Fault α) β) : (ofExcept result).outcome = result := rfl

@[simp] theorem outcome_attempt (run : Traced α β) : run.attempt.outcome = .ok run.outcome := rfl

@[simp] theorem outcome_throw (cause : Fault α) :
    (throw cause : Traced α β).outcome = .error cause := rfl

/-- **The outcome of a sequence is the sequence of the outcomes.** -/
@[simp] theorem outcome_bind (first : Traced α β) (next : β → Traced α γ) :
    (first >>= next).outcome = first.outcome >>= fun value => (next value).outcome := by
  obtain ⟨events, outcome⟩ := first
  cases outcome <;> rfl

end Traced

/-- Who follows a run. -/
inductive Observer where
  /-- Takes every event and keeps none. -/
  | silent
  /-- Keeps every event that can be laid out. -/
  | recording
  deriving Repr, DecidableEq

namespace Observer

variable {α : Type}

/-- Shows an event to the observer. -/
def notice (observer : Observer) (event : Event α) : Traced α Unit :=
  match observer with
  | .silent => pure ()
  | .recording =>
    match event.fault? with
    | some cause => throw cause
    | none => ⟨[event], .ok ()⟩

/-- Shows a line. -/
def line (observer : Observer) (phrase : Phrase α) : Traced α Unit := observer.notice (.line phrase)

/-- Shows a line of words. -/
def say (observer : Observer) (words : String) : Traced α Unit := observer.line (.words words)

/-- Shows a title. -/
def header (observer : Observer) (title : String) : Traced α Unit := observer.notice (.header title)

/-- Shows a vector to three decimals. -/
def vector (observer : Observer) (title : String) (entries : List α) (names : List String) :
    Traced α Unit := observer.notice (.vector title entries 3 names)

/-- Shows a matrix to three decimals. -/
def matrix (observer : Observer) (title : String) (rows : Dense α)
    (columnNames rowNames : List String) : Traced α Unit :=
  observer.notice (.matrix title rows 3 columnNames rowNames)

end Observer

end LinOpt
