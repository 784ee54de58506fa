import JsonSelect.Json.Printer
import JsonSelect.Check
import JsonSelect.Manual

/-!
# Commands

There are three commands: `check` with an expression and options, `docs`, and `doc` with the name
of a category.  Which of them the arguments of the program stand for is up to a parser of arguments,
and everything here is for any parser (`ArgumentParser`).  Instead of a command it may find that the
arguments ask for a text about the program, such as its version, or that they do not fit.

A check without an input of its own reads the standard input, unless that is a terminal or only the
expression is of interest.  It does so before anything else, so that an input that cannot be read is
noticed before the expression is.
-/

namespace JsonSelect

/-! ### Commands -/

/-- A command with everything that its arguments say. -/
inductive Command where
  | check (request : CheckRequest) (pretty : Bool)
  | docs
  | doc (category : String)

/-- Why arguments stand for no command. -/
inductive Interruption where
  /-- They ask for a text about the program: how it is used, or its version. -/
  | information (text : String)
  /-- They do not fit. -/
  | misuse

/-- A parser of the arguments of the program. -/
abbrev ArgumentParser := List String → Except Interruption Command

/-! ### The standard input -/

/-- A standard input that is no terminal. -/
inductive InputStream where
  /-- A stream of bytes. -/
  | bytes (content : ByteArray)
  /-- A stream that cannot be read to its end. -/
  | failing (reason : String)

/-- A text is a stream of the bytes that encode it. -/
instance : Coe String InputStream := ⟨fun text => .bytes text.toUTF8⟩

/-- The text that a stream holds, or why there is none. -/
def InputStream.text : InputStream → Except String String
  | bytes content =>
    match String.fromUTF8? content with
    | some text => .ok text
    | none => .error "stream did not contain valid UTF-8"
  | failing reason => .error reason

/-- Whether a check takes its document from the standard input. -/
def CheckRequest.readsInput (request : CheckRequest) : Bool :=
  request.input.isNone && !request.expressionOnly

/-- The text that a check is applied to, if there is one, or why it cannot be read. -/
def CheckRequest.inputFrom (request : CheckRequest) (stdin : Option InputStream) :
    Except String (Option String) :=
  if request.readsInput then
    match stdin with
    | some stream => stream.text.map some
    | none => .ok none
  else .ok request.input

/-! ### Runs -/

/-- How a run of the program ends. -/
inductive Outcome where
  /-- With a text on the standard output. -/
  | finished (stdout : String)
  /-- With the error of a command. -/
  | failed (error : CommandError)
  /-- With a standard input that cannot be read. -/
  | unreadable (reason : String)
  /-- Without having understood its arguments. -/
  | misused

namespace Outcome

/-- The exit code. -/
def code : Outcome → Nat
  | finished _ => 0
  | failed _ => 1
  | unreadable _ => 1
  | misused => 2

/-- The text on the standard output. -/
def stdout : Outcome → String
  | finished text => text
  | _ => ""

/-- The message on the standard error.  What is said about arguments that do not fit is not
determined here. -/
def message? : Outcome → Option String
  | finished _ => none
  | failed error => some error.message
  | unreadable reason => some ("IO error: " ++ reason)
  | misused => none

/-- The end of a run with the result of its command. -/
def ofResult : Except CommandError String → Outcome
  | .ok text => finished text
  | .error error => failed error

end Outcome

namespace Command

/-- Whether a command takes its document from the standard input. -/
def readsInput : Command → Bool
  | check request _ => request.readsInput
  | _ => false

/-- The text that the result of a check is shown as. -/
def resultText (pretty : Bool) : CheckResult → String
  | .valid selectors => "Syntax is valid (" ++ toString selectors ++ " filter(s))\n"
  | .matched found => (if pretty then found.pretty else found.compact) ++ "\n"

/-- Carries out a command with the given standard input, if there is one to read. -/
def run (command : Command) (stdin : Option InputStream) : Outcome :=
  match command with
  | check request pretty =>
    match request.inputFrom stdin with
    | .ok input =>
      .ofResult ((JsonSelect.check { request with input := input }).map (resultText pretty))
    | .error reason => .unreadable reason
  | docs => .finished manualOverview
  | doc category =>
    match ManualCategory.ofName? category with
    | some category => .finished category.page
    | none => .failed (.unknownCategory category)

end Command

/-- A run of the program with the given arguments and standard input, if there is one to read. -/
def ArgumentParser.run (parser : ArgumentParser) (arguments : List String)
    (stdin : Option InputStream) : Outcome :=
  match parser arguments with
  | .ok command => command.run stdin
  | .error (.information text) => .finished text
  | .error .misuse => .misused

end JsonSelect
