import Axiomc.Foundation.Sorting
import Axiomc.Foundation.Text
import Mathlib.Data.List.DropRight

/-!
# The formatter

The embedding of `formatter_core.rs`.  The formatter works line by line and below the parser: a line is
cut into lexemes and written out again with its own spacing, indented by the braces before it.  Macro
declarations and comments are copied.  Neighbouring imports are sorted afterwards.

* `splitComment`, `braceDelta`: scans of a line that know quotes;
* `lex`, `needsSpace`, `genericTightJunctions`, `formatCodeLine`: one line;
* `layoutLine`, `layout`: the loop over the lines;
* `importBlock`, `sortImportGroups`: the imports;
* `format`.

A loop over byte offsets is a recursion on what is left of the text; where a turn of the loop can take
more than one character, the first argument bounds the number of turns.
-/

namespace Axiomc.Formatter

open Foundation

/-! ### Quotes and comments -/

def isQuote (c : Char) : Bool := c == '"' || c == '\''

/-- The variables `quote` and `escaped` of the scans. -/
structure Quoting where
  quote : Option Char
  escaped : Bool
  deriving DecidableEq

def unquoted : Quoting := ⟨none, false⟩

/-- What a scan does with one character. -/
def Quoting.next (q : Quoting) (c : Char) : Quoting :=
  match q.quote with
  | some delimiter =>
    if q.escaped then { q with escaped := false }
    else if c == '\\' then { q with escaped := true }
    else if c == delimiter then { q with quote := none }
    else q
  | none => if isQuote c then { q with quote := some c } else q

/-- A comment begins here. -/
def startsComment : Text → Bool
  | '#' :: _ => true
  | '/' :: '/' :: _ => true
  | _ => false

/-- The loop of `split_comment`. -/
def splitCommentFrom (q : Quoting) : Text → Text × Option Text
  | [] => ([], none)
  | c :: rest =>
    if q.quote.isNone && startsComment (c :: rest) then ([], some (c :: rest))
    else
      let result := splitCommentFrom (q.next c) rest
      (c :: result.1, result.2)

/-- `split_comment`. -/
def splitComment (line : Text) : Text × Option Text := splitCommentFrom unquoted line

/-- The loop of `brace_delta`. -/
def braceDeltaFrom (q : Quoting) : Text → Int
  | [] => 0
  | c :: rest =>
    (if q.quote.isNone then if c == '{' then 1 else if c == '}' then -1 else 0 else 0) +
      braceDeltaFrom (q.next c) rest

/-- `brace_delta`. -/
def braceDelta (line : Text) : Int := braceDeltaFrom unquoted (splitComment line).1

/-! ### Lexemes -/

inductive Kind where
  | word
  | literal
  | operator
  | punctuation
  deriving DecidableEq

structure Lexeme where
  text : Text
  kind : Kind
  deriving DecidableEq

/-- `MULTI`. -/
def multi : List Text :=
  [[':', ':'], ['-', '>'], ['=', '>'], ['=', '='], ['!', '='], ['<', '='], ['>', '='], ['&', '&'],
    ['|', '|'], ['+', '='], ['-', '='], ['*', '='], ['/', '=']]

def isPunctuation (c : Char) : Bool :=
  ['{', '}', '(', ')', '[', ']', ',', ';', ':', '.'].contains c

def isOperator (c : Char) : Bool :=
  ['+', '-', '*', '/', '%', '=', '<', '>', '!', '&', '|', '?'].contains c

/-- A character that ends a word. -/
def endsWord (c : Char) : Bool := isWhitespace c || isPunctuation c || isOperator c || isQuote c

/-- `quoted_end`, behind the opening quote: the rest of the literal, and what follows it. -/
def quoted (delimiter : Char) : Bool → Text → Text × Text
  | _, [] => ([], [])
  | true, c :: rest => ((c :: (quoted delimiter false rest).1), (quoted delimiter false rest).2)
  | false, c :: rest =>
    if c == '\\' then ((c :: (quoted delimiter true rest).1), (quoted delimiter true rest).2)
    else if c == delimiter then ([c], rest)
    else ((c :: (quoted delimiter false rest).1), (quoted delimiter false rest).2)

/-- A turn of the loop of `lex` at a character that is no white space. -/
def nextLexeme (c : Char) (rest : Text) : Lexeme × Text :=
  if isQuote c then (⟨c :: (quoted c false rest).1, .literal⟩, (quoted c false rest).2)
  else
    match multi.find? fun operator => operator.isPrefixOf (c :: rest) with
    | some operator => (⟨operator, .operator⟩, (c :: rest).drop operator.length)
    | none =>
      if isPunctuation c then (⟨[c], .punctuation⟩, rest)
      else if isOperator c then (⟨[c], .operator⟩, rest)
      else (⟨c :: rest.takeWhile (!endsWord ·), .word⟩, rest.dropWhile (!endsWord ·))

/-- The loop of `lex`. -/
def lexFrom : Nat → Text → List Lexeme
  | 0, _ => []
  | _ + 1, [] => []
  | turns + 1, c :: rest =>
    if isWhitespace c then lexFrom turns rest
    else (nextLexeme c rest).1 :: lexFrom turns (nextLexeme c rest).2

/-- `lex`. -/
def lex (code : Text) : List Lexeme := lexFrom code.length code

/-! ### Spacing -/

/-- `needs_space`. -/
def needsSpace (previous current : Lexeme) : Bool :=
  if current.kind = .operator ∨ previous.kind = .operator then
    !([['!'], ['?']].contains current.text) && !([['!'], ['&']].contains previous.text)
  else if [[')'], [']'], ['}'], [','], [';'], ['.'], [':']].contains current.text ||
      [['('], ['['], ['.']].contains previous.text then false
  else if [[':'], [',']].contains previous.text then true
  else if current.text == ['('] &&
      ["if".toList, "while".toList, "match".toList, "for".toList, "return".toList, "print".toList,
        "panic".toList, "defer".toList].contains previous.text then true
  else if previous.text == "mut".toList && current.text == ['['] then true
  else if previous.text == ['}'] && current.kind == .word then true
  else if current.text == ['{'] then !([['('], ['['], ['{']].contains previous.text)
  else if previous.text == ['{'] then false
  else
    (previous.kind == .word || previous.kind == .literal) &&
      (current.kind == .word || current.kind == .literal)

/-- The loop of `generic_argument_close`, over the lexemes behind the bracket. -/
def genericCloseFrom (index depth : Nat) (sawArgument : Bool) : List Lexeme → Option Nat
  | [] => none
  | current :: rest =>
    if current.kind = .operator ∧ current.text = ['<'] then
      genericCloseFrom (index + 1) (depth + 1) sawArgument rest
    else if current.kind = .operator ∧ current.text = ['>'] then
      if depth = 0 then if sawArgument then some index else none
      else genericCloseFrom (index + 1) (depth - 1) sawArgument rest
    else if current.kind = .word then genericCloseFrom (index + 1) depth true rest
    else if current.kind = .punctuation ∧ current.text = [','] then
      genericCloseFrom (index + 1) depth sawArgument rest
    else none

/-- `generic_argument_close`. -/
def genericArgumentClose (lexemes : List Lexeme) (opening : Nat) : Option Nat :=
  genericCloseFrom (opening + 1) 0 false (lexemes.drop (opening + 1))

/-- A generic argument list whose word is at `index` closes at the result. -/
def genericAt (lexemes : List Lexeme) (index : Nat) : Option Nat :=
  match lexemes[index]?, lexemes[index + 1]? with
  | some word, some bracket =>
    if word.kind = .word ∧ bracket.kind = .operator ∧ bracket.text = ['<'] then
      genericArgumentClose lexemes (index + 1)
    else none
  | _, _ => none

/-- The junctions of the argument list from `index` to `close` that are tight. -/
def tightBetween (lexemes : List Lexeme) (index close : Nat) : List Nat :=
  ((List.range' (index + 1) (close - index)).filter fun junction =>
      (lexemes[junction - 1]?).map (·.text) ≠ some [',']) ++
    if (lexemes[close + 1]?).any fun next =>
        [['('], [','], [')'], [']'], [';'], ['>']].contains next.text then [close + 1] else []

/-- The loop of `generic_tight_junctions`. -/
def genericTightFrom (lexemes : List Lexeme) : Nat → Nat → List Nat
  | 0, _ => []
  | turns + 1, index =>
    if index + 1 < lexemes.length then
      match genericAt lexemes index with
      | some close => tightBetween lexemes index close ++ genericTightFrom lexemes turns (close + 1)
      | none => genericTightFrom lexemes turns (index + 1)
    else []

/-- `generic_tight_junctions`. -/
def genericTightJunctions (lexemes : List Lexeme) : List Nat :=
  genericTightFrom lexemes lexemes.length 0

/-- A space is written before the lexeme at `index`. -/
def spaceAt (lexemes : List Lexeme) (index : Nat) : Bool :=
  match lexemes[index - 1]?, lexemes[index]? with
  | some previous, some current =>
    index > 0 && !(genericTightJunctions lexemes).contains index && needsSpace previous current
  | _, _ => false

/-- The lexemes with the spaces between them. -/
def render (lexemes : List Lexeme) : Text :=
  lexemes.zipIdx.flatMap fun entry =>
    (if spaceAt lexemes entry.2 then [' '] else []) ++ entry.1.text

/-- `format_code_line`. -/
def formatCodeLine (line : Text) : Text :=
  if startsComment line then line
  else
    let rendered := render (lex (splitComment line).1)
    match (splitComment line).2 with
    | some comment => (if rendered.isEmpty then rendered else rendered ++ [' ']) ++ comment
    | none => rendered

/-! ### Lines -/

/-- `starts_macro_declaration`. -/
def startsMacroDeclaration (line : Text) : Bool :=
  "macro ".toList.isPrefixOf ((stripStart "pub ".toList line).getD line)

/-- The variables of the loop over the lines. -/
structure Layout where
  previousBlank : Bool
  indent : Nat
  macroDepth : Int
  deriving DecidableEq

def leadingCloses (line : Text) : Nat := (line.takeWhile (· == '}')).length

/-- `indent` after a line. -/
def indentAfter (indent : Nat) (delta : Int) : Nat :=
  if delta < 0 then indent - delta.natAbs else indent + delta.toNat

/-- A turn of the loop over the lines: the variables after it, and what it puts out. -/
def layoutLine (state : Layout) (line : Text) : Layout × List Text :=
  let trimmed := trim line
  let macroStart := state.macroDepth == 0 && startsMacroDeclaration trimmed
  if state.macroDepth > 0 ∨ macroStart then
    (⟨false, state.indent, max (state.macroDepth + braceDelta line) 0⟩, [line])
  else if trimmed.isEmpty then
    ({ state with previousBlank := true }, if state.previousBlank then [] else [[]])
  else
    (⟨false, indentAfter state.indent (braceDelta trimmed), state.macroDepth⟩,
      [List.replicate (4 * (state.indent - leadingCloses trimmed)) ' ' ++ formatCodeLine trimmed])

/-- The loop over the lines. -/
def layout (state : Layout) : List Text → List Text
  | [] => []
  | line :: rest => (layoutLine state line).2 ++ layout (layoutLine state line).1 rest

/-! ### Imports -/

/-- `is_comment`. -/
def isComment (line : Text) : Bool := startsComment (trimStart line)

/-- `is_import`. -/
def isImport (line : Text) : Bool :=
  let code := trimEnd (splitComment (trim line)).1
  "import \"".toList.isPrefixOf code && code.getLast? == some '"'

/-- `import_block`: the comments and the import the lines begin with, and the lines after it. -/
def importBlock (lines : List Text) : Option (List Text × List Text) :=
  match lines.dropWhile isComment with
  | line :: rest => if isImport line then some (lines.takeWhile isComment ++ [line], rest) else none
  | [] => none

/-- The blocks the lines begin with, and the lines after them. -/
def importBlocks : Nat → List Text → List (List Text) × List Text
  | 0, lines => ([], lines)
  | turns + 1, lines =>
    match importBlock lines with
    | some (block, rest) =>
      (block :: (importBlocks turns rest).1, (importBlocks turns rest).2)
    | none => ([], lines)

/-- The order of import blocks. -/
def blockOrder (left right : List Text) : Ordering :=
  byteOrder (trim (left.getLastD [])) (trim (right.getLastD []))

/-- `sort_import_groups`. -/
def sortGroupsFrom : Nat → List Text → List Text
  | 0, lines => lines
  | turns + 1, lines =>
    match importBlocks lines.length lines with
    | ([], []) => []
    | ([], line :: rest) => line :: sortGroupsFrom turns rest
    | (blocks, rest) => (sortBy blockOrder blocks).flatten ++ sortGroupsFrom turns rest

def sortImportGroups (lines : List Text) : List Text := sortGroupsFrom lines.length lines

/-! ### Texts -/

/-- Both kinds of line ends and the single carriage return become line feeds. -/
def normalize : Text → Text
  | '\r' :: '\n' :: rest => '\n' :: normalize rest
  | '\r' :: rest => '\n' :: normalize rest
  | c :: rest => c :: normalize rest
  | [] => []

/-- `str::lines`, for a text without carriage returns. -/
def lines (text : Text) : List Text :=
  let parts := text.splitOn '\n'
  if parts.getLast? = some [] then parts.dropLast else parts

/-- `format`. -/
def format (source : Text) : Text :=
  let output := sortImportGroups (layout ⟨false, 0, 0⟩ (lines (normalize source)))
  ['\n'].intercalate (output.rdropWhile List.isEmpty) ++ ['\n']

end Axiomc.Formatter
