import JsonSelect.Command

/-!
# The command line

The parser of arguments that the program uses.  The first argument is the name of a command, or it
asks for help or for the version.  Options stand anywhere among the other arguments of a command, in
a long form (`--input`) or a short one (`-i`); short ones may be joined to a cluster.  A value
follows its option as the next argument or directly, after an `=` if need be.  Behind `--` nothing
is an option any more.  An option may be given once.

Arguments are read from left to right, and the first one that ends the reading decides what comes of
it.  Where help is asked for, nothing behind it matters any more, but what does not fit in front of
it does.
-/

namespace JsonSelect

/-! ### Reading the arguments of a command -/

/-- An option of a command. -/
structure CommandOption where
  long : String
  short : Option Char
  takesValue : Bool

/-- How a command is written. -/
structure CommandForm where
  /-- The options, apart from the one for help. -/
  options : List CommandOption
  /-- The number of operands. -/
  operands : Nat
  /-- The help for the command. -/
  help : String
  /-- The command, from its operands and the options given with their values. -/
  command? : List String → List (String × String) → Option Command

/-- The arguments of a command as far as they have been read. -/
structure SortedArguments where
  operands : List String
  /-- The options with their values.  A switch has the empty value. -/
  given : List (String × String)
  /-- The option whose value is the next argument. -/
  awaiting : Option String

namespace SortedArguments

/-- No arguments. -/
def start : SortedArguments := ⟨[], [], none⟩

/-- The arguments with one more option, unless it is there already. -/
def addOption (sorted : SortedArguments) (option value : String) :
    Except Interruption SortedArguments :=
  if (sorted.given.lookup option).isSome then .error .misuse
  else .ok { sorted with given := (option, value) :: sorted.given, awaiting := none }

end SortedArguments

/-- Whether an argument cannot stand for the value of an option because of its hyphen.  A single
hyphen can. -/
def startsLikeOption (argument : String) : Bool :=
  match argument.toList with
  | '-' :: _ :: _ => true
  | _ => false

namespace CommandForm

variable (form : CommandForm)

/-- Takes in an operand, unless there are enough of them. -/
def readOperand (sorted : SortedArguments) (operand : String) :
    Except Interruption SortedArguments :=
  if sorted.operands.length < form.operands then
    .ok { sorted with operands := sorted.operands ++ [operand] }
  else .error .misuse

/-- Takes in a long option, which may have its value behind an `=`. -/
def readLong (sorted : SortedArguments) (text : List Char) : Except Interruption SortedArguments :=
  let name := String.ofList (text.takeWhile (· != '='))
  match form.options.find? (fun option => option.long == name), text.dropWhile (· != '=') with
  | some option, [] =>
    if option.takesValue then .ok { sorted with awaiting := some option.long }
    else sorted.addOption option.long ""
  | some option, _ :: value =>
    if option.takesValue then sorted.addOption option.long (String.ofList value)
    else .error .misuse
  | none, [] => .error (if name = "help" then .information form.help else .misuse)
  | none, _ :: _ => .error .misuse

/-- Takes in a cluster of short options: switches, and at its end perhaps an option that takes a
value, which may be joined to it. -/
def readCluster (sorted : SortedArguments) : List Char → Except Interruption SortedArguments
  | [] => .ok sorted
  | c :: rest =>
    match form.options.find? fun option => option.short == some c with
    | some option =>
      if option.takesValue then
        match rest with
        | [] => .ok { sorted with awaiting := some option.long }
        | '=' :: value => sorted.addOption option.long (String.ofList value)
        | value => sorted.addOption option.long (String.ofList value)
      else do
        let sorted ← sorted.addOption option.long ""
        readCluster sorted rest
    | none => .error (if c = 'h' then .information form.help else .misuse)

/-- Takes in an argument in front of the end of the options. -/
def readArgument (sorted : SortedArguments) (argument : String) :
    Except Interruption SortedArguments :=
  match sorted.awaiting with
  | some option =>
    if startsLikeOption argument then .error .misuse else sorted.addOption option argument
  | none =>
    match argument.toList with
    | '-' :: '-' :: text => form.readLong sorted text
    | '-' :: c :: rest => form.readCluster sorted (c :: rest)
    | _ => form.readOperand sorted argument

/-- Takes in all arguments.  Behind the end of the options they are operands. -/
def readArguments (sorted : SortedArguments) : List String → Except Interruption SortedArguments
  | [] => .ok sorted
  | argument :: rest =>
    if argument = "--" then rest.foldlM form.readOperand sorted
    else do
      let sorted ← form.readArgument sorted argument
      readArguments sorted rest

/-- The command that arguments stand for when all of them have been read. -/
def finish (sorted : SortedArguments) : Except Interruption Command :=
  match sorted.awaiting, form.command? sorted.operands sorted.given with
  | none, some command => .ok command
  | _, _ => .error .misuse

/-- The command that the arguments behind its name stand for. -/
def parse (arguments : List String) : Except Interruption Command :=
  form.readArguments .start arguments >>= form.finish

end CommandForm

/-! ### The program -/

/-- How `check` is written. -/
def checkForm : CommandForm where
  options := [⟨"input", some 'i', true⟩, ⟨"pretty", some 'p', false⟩, ⟨"strict", some 's', false⟩,
    ⟨"syntax-only", none, false⟩]
  operands := 1
  help := checkHelp
  command?
    | [expression], given =>
      some (.check
        { expression := expression
          input := given.lookup "input"
          strict := (given.lookup "strict").isSome
          expressionOnly := (given.lookup "syntax-only").isSome }
        (given.lookup "pretty").isSome)
    | _, _ => none

/-- How `docs` is written. -/
def docsForm : CommandForm where
  options := []
  operands := 0
  help := docsHelp
  command?
    | [], _ => some .docs
    | _, _ => none

/-- How `doc` is written. -/
def docForm : CommandForm where
  options := []
  operands := 1
  help := docHelp
  command?
    | [category], _ => some (.doc category)
    | _, _ => none

/-- The commands by their names. -/
def commandForms : List (String × CommandForm) :=
  [("check", checkForm), ("docs", docsForm), ("doc", docForm)]

/-- What comes of asking for help on a command, or on the program if none is named. -/
def interruptionOfHelp : List String → Interruption
  | [] => .information programHelp
  | ["help"] => .information helpHelp
  | [name] =>
    match commandForms.lookup name with
    | some form => .information form.help
    | none => .misuse
  | _ => .misuse

/-- What comes of a first argument that names no command. -/
def interruptionOfOption (argument : String) : Interruption :=
  match argument.toList with
  | '-' :: '-' :: text =>
    if text = "help".toList then .information programHelp
    else if text = "version".toList then .information programVersion
    else .misuse
  | '-' :: 'h' :: _ => .information programHelp
  | '-' :: 'V' :: _ => .information programVersion
  | _ => .misuse

/-- The parser of the arguments of the program. -/
def parseArguments : ArgumentParser
  | [] => .error .misuse
  | first :: rest =>
    match commandForms.lookup first with
    | some form => form.parse rest
    | none =>
      .error (if first = "help" then interruptionOfHelp rest else interruptionOfOption first)

/-- A run of the program. -/
def runProgram (arguments : List String) (stdin : Option InputStream) : Outcome :=
  parseArguments.run arguments stdin

end JsonSelect
