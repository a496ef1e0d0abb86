import ScriptCompiler.Config.Numeral

/-!
# Configuration documents

A configuration document consists of lines. A line assigns a value to a key, or is a header that
names the table to which the keys below it belong; both may be followed by a comment. A key is a
sequence of names, and no key is given two meanings.

## Main definitions

* `Value`: a value, of which only integers matter
* `Entry`, `Document`: what the keys of a document mean
* `name?`, `key?`, `value?`: the parts of a line
* `Document.readLine`: adds what a line says to a document
* `Document.ofText`: reads a document
-/

namespace ScriptCompiler

/-- What is wrong with a configuration. -/
structure ConfigError where
  detail : String
deriving DecidableEq, Repr, Inhabited

/-- The text of the error. -/
def ConfigError.message (e : ConfigError) : String := "invalid configuration: " ++ e.detail

namespace Config

/-- A value, of which only integers matter. -/
inductive Value where
  | integer (value : Int)
  | other
deriving DecidableEq, Repr, Inhabited

/-! ## Parts of a line -/

/-- Removes blanks from the front. -/
def skipBlanks (line : List Char) : List Char := line.dropWhile fun c => c == ' ' || c == '\t'

/-- Whether a character may stand in a comment or in a string. -/
def isPrintable (c : Char) : Bool := c == '\t' || (' ' ≤ c && c != '\x7f')

/-- Whether nothing but blanks and a comment is left of a line. -/
def isLineEnd (line : List Char) : Bool :=
  match skipBlanks line with
  | [] => true
  | '#' :: comment => comment.all isPrintable
  | _ => false

/-- Whether a character may stand in a name without quotes. -/
def isBare (c : Char) : Bool := c.isAlphanum || c == '_' || c == '-'

/-- The character with a code point given by hexadecimal digits. -/
def codePoint? (digits : List Char) : Option Char := do
  let code ← digits? 16 digits
  if code.isValidChar ∧ '_' ∉ digits then some (Char.ofNat code) else none

/-- The character that a backslash and a letter stand for. -/
def escape? : Char → Option Char
  | 'b' => some '\x08'
  | 't' => some '\t'
  | 'n' => some '\n'
  | 'f' => some '\x0c'
  | 'r' => some '\r'
  | '"' => some '"'
  | '\\' => some '\\'
  | _ => none

/-- The text before the closing double quote, in which a backslash starts an escape, and what
follows. The text read so far is given, last character first. -/
def basicString? (read : List Char) : List Char → Option (String × List Char)
  | [] => none
  | '"' :: rest => some (String.ofList read.reverse, rest)
  | '\\' :: 'u' :: a :: b :: c :: d :: rest => do
    basicString? ((← codePoint? [a, b, c, d]) :: read) rest
  | '\\' :: 'U' :: a :: b :: c :: d :: e :: f :: g :: h :: rest => do
    basicString? ((← codePoint? [a, b, c, d, e, f, g, h]) :: read) rest
  | '\\' :: c :: rest => do basicString? ((← escape? c) :: read) rest
  | c :: rest => if c != '\\' && isPrintable c then basicString? (c :: read) rest else none

/-- The text before the closing single quote, which stands for itself. -/
def literalString? (line : List Char) : Option (String × List Char) :=
  match line.span (· != '\x27') with
  | (text, _ :: rest) => if text.all isPrintable then some (String.ofList text, rest) else none
  | (_, []) => none

/-- A string in quotes of either kind, and what follows. -/
def quoted? : List Char → Option (String × List Char)
  | '"' :: rest => basicString? [] rest
  | '\x27' :: rest => literalString? rest
  | _ => none

/-- A name, with or without quotes, and what follows. -/
def name? (line : List Char) : Option (String × List Char) :=
  match line.span isBare with
  | ([], line) => quoted? line
  | (name, rest) => some (String.ofList name, rest)

/-- Names with dots between them, and what follows the blanks behind them. The number of names is
bounded by `fuel`. -/
def key? : (fuel : Nat) → List Char → Option (List String × List Char)
  | 0, _ => none
  | fuel + 1, line => do
    let (name, rest) ← name? (skipBlanks line)
    match skipBlanks rest with
    | '.' :: rest => do
      let (names, rest) ← key? fuel rest
      return (name :: names, rest)
    | rest => return ([name], rest)

/-- A number or a truth value, and what follows. -/
def scalar? (line : List Char) : Option (Value × List Char) :=
  let (token, rest) := line.span fun c => isBare c || c == '+' || c == '.'
  match integer? token with
  | some value => some (.integer value, rest)
  | none =>
    if token == "true".toList || token == "false".toList || isFloat token then some (.other, rest)
    else none

mutual

/-- A value, and what follows. The values in it, and their commas, are bounded by `fuel`. -/
def value? : (fuel : Nat) → List Char → Option (Value × List Char)
  | fuel + 1, '[' :: rest => do return (.other, ← elements? fuel (skipBlanks rest))
  | _, '"' :: rest => do return (.other, (← quoted? ('"' :: rest)).2)
  | _, '\x27' :: rest => do return (.other, (← quoted? ('\x27' :: rest)).2)
  | _, line => scalar? line

/-- What follows the values of an array and its closing bracket; a comma may stand before it. -/
def elements? : (fuel : Nat) → List Char → Option (List Char)
  | _, ']' :: rest => some rest
  | fuel + 1, line => do
    let (_, rest) ← value? fuel line
    match skipBlanks rest with
    | ']' :: rest => some rest
    | ',' :: rest => elements? fuel (skipBlanks rest)
    | _ => none
  | 0, _ => none

end

/-! ## Documents -/

/-- What a key of a document means. -/
inductive Entry where
  /-- A value. -/
  | value (value : Value)
  /-- A table with a header of its own. -/
  | table
  /-- A table that only headers of its parts name. -/
  | outerTable
  /-- A table that keys with dots make. -/
  | dottedTable
deriving DecidableEq, Repr, Inhabited

/-- **A document**: what its keys mean, and the table to which the next key belongs. -/
structure Document where
  entries : List (List String × Entry) := []
  table : List String := []
deriving DecidableEq, Repr, Inhabited

namespace Document

/-- What a key means. -/
def get? (document : Document) (key : List String) : Option Entry := document.entries.lookup key

/-- Gives a key a meaning. -/
def insert (document : Document) (key : List String) (entry : Entry) : Document :=
  { document with entries := (key, entry) :: document.entries }

/-- The error of a key that would get a second meaning. -/
def duplicateKey (key : List String) : ConfigError := ⟨"duplicate key " ++ ".".intercalate key⟩

/-- Makes a table of the names `front` and of every further name but the last; a key in `taken` may
already be one. -/
def openTables (taken : Entry → Bool) (fresh : Entry) (front : List String) :
    (names : List String) → Document → Except ConfigError Document
  | [], document | [_], document => .ok document
  | name :: rest, document =>
    let key := front ++ [name]
    match document.get? key with
    | none => openTables taken fresh key rest (document.insert key fresh)
    | some entry =>
      if taken entry then openTables taken fresh key rest document else .error (duplicateKey key)

/-- Reads a header. -/
def readHeader (document : Document) (names : List String) : Except ConfigError Document := do
  let document ← openTables (· ∈ [.table, .outerTable, .dottedTable]) .outerTable [] names document
  match document.get? names with
  | none | some .outerTable => return { document.insert names .table with table := names }
  | some _ => throw (duplicateKey names)

/-- Reads the assignment of a value to a key. -/
def readAssignment (document : Document) (names : List String) (value : Value) :
    Except ConfigError Document := do
  let document ← openTables (· = .dottedTable) .dottedTable document.table names document
  let key := document.table ++ names
  match document.get? key with
  | none => return document.insert key (.value value)
  | some _ => throw (duplicateKey key)

/-- The names of the header that a line is. -/
def header? (line : List Char) : Option (List String) := do
  let '[' :: rest := line | none
  let (names, ']' :: rest) ← key? rest.length rest | none
  guard (isLineEnd rest)
  return names

/-- The key and the value of the assignment that a line is. -/
def assignment? (line : List Char) : Option (List String × Value) := do
  let (names, '=' :: rest) ← key? line.length line | none
  let rest := skipBlanks rest
  let (value, rest) ← value? (2 * rest.length) rest
  guard (isLineEnd rest)
  return (names, value)

/-- **Adds what a line means to a document.** -/
def readLine (document : Document) (line : List Char) : Except ConfigError Document :=
  let line := skipBlanks line
  if isLineEnd line then .ok document
  else match header? line, assignment? line with
    | some names, _ => document.readHeader names
    | none, some (names, value) => document.readAssignment names value
    | none, none => .error ⟨"malformed line: " ++ String.ofList line⟩

/-- The lines of a text. A carriage return before the end of a line belongs to that end. -/
def lines (text : List Char) : List (List Char) :=
  let rec split (line : List Char) : List Char → List (List Char)
    | [] => [line.reverse]
    | '\n' :: rest => line.reverse :: split [] rest
    | '\r' :: '\n' :: rest => line.reverse :: split [] rest
    | c :: rest => split (c :: line) rest
  split [] text

/-- The characters of a text without the byte order mark that may stand before it. -/
def characters (text : String) : List Char :=
  match text.toList with
  | '\uFEFF' :: rest => rest
  | all => all

/-- **The document with a given text.** -/
def ofText (text : String) : Except ConfigError Document :=
  (lines (characters text)).foldlM readLine {}

end Document

end Config

end ScriptCompiler
