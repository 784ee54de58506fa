/-!
# Manual

The texts of the manual: an overview, and one page for each category. A category is asked for by
one of its names, in any mixture of case. Apart from the manual there is a short help for the
program and for each command.
-/

namespace JsonSelect

/-- A category of the manual. -/
inductive ManualCategory where
  | paths
  | indexers
  | filters
  | evaluation
  deriving DecidableEq

namespace ManualCategory

/-- The names of a category, in lower case. -/
def names : ManualCategory → List String
  | paths => ["syntax"]
  | indexers => ["indexers", "indexer", "arrays", "array"]
  | filters => ["queries", "query", "filters"]
  | evaluation => ["evaluation", "eval", "strict"]

/-- All categories. -/
def all : List ManualCategory :=
  [paths, indexers, filters, evaluation]

/-- The category of that name. The names hold ASCII letters only, none of which is the lower-case
form of a letter outside ASCII, so only the case of ASCII letters matters. -/
def ofName? (name : String) : Option ManualCategory :=
  all.find? fun category => category.names.contains (name.map Char.toLower)

end ManualCategory

/-! ### Texts -/

/-- The overview of the manual. -/
def manualOverview : String :=
  "JPATH DOCUMENTATION

jpath selects nodes from a JSON document with a path expression such as
$.store.book[0].title or $..book[?(@.price < 10)].

DOCUMENTATION CATEGORIES

  syntax        Root, member access, wildcards and recursive descent
  indexers      Bracket indexers: quoted names, indexes, lists and slices
  queries       Query indexers [?(...)], operators and literals
  evaluation    Match order, missing values and --strict

QUICK REFERENCE

  $                 Root document
  $.name            Member
  $['a b']          Quoted member
  $.*               Every child
  $..name           Every descendant member called name
  $[0]  $[-1]       Array element
  $[0,2]            Several elements
  $[1:3]  $[::-1]   Slice
  $[?(@.x > 1)]     Query

Run 'jpath doc <category>' for detailed documentation.
"

/-- The page on paths and members. -/
def pathsPage : String :=
  "SYNTAX - Paths and Members

ROOT
  $
    The whole document. A path may also start directly with a member
    name or an indexer: `store.book` and `[0]` are valid paths.

MEMBER ACCESS
  $.name
    Member of an object. Names run until the next `.`, `[`, `(` or space.

    Example:
      Input:  \x7b\"user\": \x7b\"name\": \"Alice\"\x7d\x7d
      Path:   $.user.name
      Output: [\"Alice\"]

WILDCARD
  $.*
    Every member value of an object, or every element of an array.

RECURSIVE DESCENT
  $..name
    Every member called `name`, at any depth, in document order.

  $..*
    The starting node and every node below it.

    Example:
      Input:  \x7b\"a\": \x7b\"b\": \x7b\"a\": 1\x7d\x7d\x7d
      Path:   $..a
      Output: [\x7b\"b\": \x7b\"a\": 1\x7d\x7d, 1]
"

/-- The page on indexers. -/
def indexersPage : String :=
  "INDEXERS - Brackets

Indexers use [ ] or ( ). The closer must match the opener.

QUOTED MEMBER
  $['name with spaces']
    Escapes: \\' for a quote, \\\\ for a backslash. Nothing else.

    Example:
      Input:  \x7b\"it's\": 1\x7d
      Path:   $['it\\'s']
      Output: [1]

INDEX
  $[0]        First element
  $[-1]       Last element
  $[*]        Every element

INDEX LIST
  $[3,0]
    Elements in the listed order; repeats are allowed.

SLICE
  $[start:end:step]
    Any part may be left out. Negative start/end count from the end.
    A negative step walks backwards. A step of 0 is rejected.

      $[1:3]      Elements 1 and 2
      $[-2:]      Last two elements
      $[::2]      Every other element
      $[::-1]     Reversed
"

/-- The page on filters. -/
def filtersPage : String :=
  "QUERIES - Filtering Children

  $[?(expression)]
    Selects the children (array elements or member values) for which the
    expression holds. `@` is the child under test.

EXISTENCE
  $[?(@.isbn)]
    Children that have an `isbn` member.

COMPARISON
  $[?(@.price < 10)]

  Operators:  ==  !=  <>  <  <=  >  >=
  Literals:   'text'  42  -1.5  2e3  true  false  null

  Numbers compare numerically, strings ordinally, booleans as booleans.
  Comparing different types is never an error: it is simply false
  (except != which is true).

SEVERAL EXPRESSIONS
  $[?(@.a == 1 && @.b == 2)]
    All expressions must hold.
"

/-- The page on evaluation. -/
def evaluationPage : String :=
  "EVALUATION - Results and Missing Values

ORDER
  Matches come out in document order for wildcards, descent and queries,
  and in listed order for index lists and slices.

MISSING VALUES
  By default a member or index that does not exist selects nothing.

  --strict
    Fail instead, naming the member or index that was missing.
    Recursive descent and queries never fail for lack of matches.

    Example:
      Input:  \x7b\"a\": 1\x7d
      Path:   $.b
      Output: []                        (default)
      Error:  Property 'b' does not exist on object   (--strict)
"

/-- The page of a category. -/
def ManualCategory.page : ManualCategory → String
  | paths => pathsPage
  | indexers => indexersPage
  | filters => filtersPage
  | evaluation => evaluationPage

/-! ### Help -/

/-- The version of the program. -/
def programVersion : String := "jpath 0.1.0\n"

/-- The help for the program. -/
def programHelp : String :=
  "jpath - select nodes from JSON documents with JSONPath expressions

Usage: jpath <COMMAND>

Commands:
  check  Validate and evaluate a path expression
  docs   List documentation categories
  doc    Show documentation for a specific category
  help   Print this message or the help of the given subcommand(s)

Options:
  -h, --help     Print help
  -V, --version  Print version
"

/-- The help for `check`. -/
def checkHelp : String :=
  "Validate and evaluate a path expression

Usage: jpath check [OPTIONS] <PATH>

Arguments:
  <PATH>  The path expression to evaluate

Options:
  -i, --input <INPUT>  JSON input (reads from stdin if not provided)
  -p, --pretty         Pretty-print the output
  -s, --strict         Fail when a member, index or slice selects nothing
      --syntax-only    Only validate syntax, don't evaluate
  -h, --help           Print help
"

/-- The help for `docs`. -/
def docsHelp : String :=
  "List documentation categories

Usage: jpath docs

Options:
  -h, --help  Print help
"

/-- The help for `doc`. -/
def docHelp : String :=
  "Show documentation for a specific category

Usage: jpath doc <CATEGORY>

Arguments:
  <CATEGORY>  Category name (use 'jpath docs' to list categories)

Options:
  -h, --help  Print help
"

/-- The help for `help`. -/
def helpHelp : String :=
  "Print this message or the help of the given subcommand(s)

Usage: jpath help [COMMAND]...

Arguments:
  [COMMAND]...  Print help for the subcommand(s)
"

end JsonSelect
