/-
  QuantumMemory.Document.Yaml — reading trees from indented text.

  Taken is the part of YAML that descriptions use: block mappings and block lists nested
  by indentation, flow mappings and flow lists, which may run over lines, plain, single
  quoted and double quoted scalars, and comments. JSON text is among it. Anchors, tags,
  block scalars and scalars that run over lines are not, and have no reading.

  Block text is read line by line, each line with the column its content starts at; what
  is in brackets or quotes is read character by character and gives back whole lines.
  Recursion is bounded by a multiple of the length of the text.
-/

import QuantumMemory.Document.Tree
import QuantumMemory.Number.Written

namespace QuantumMemory.Document.Yaml

def isSpace (c : Char) : Bool := c = ' ' || c = '\t'

def isGap (c : Char) : Bool := isSpace c || c = '\n'

def isBracket (c : Char) : Bool := [',', '[', ']', '{', '}'].contains c

/-- No further character, or a blank one. -/
def atGap : List Char → Bool
  | [] => true
  | c :: _ => isGap c

/-- Past blanks, line breaks and comments; a comment needs a blank before it. -/
def skipGap (comment blank : Bool) : List Char → List Char
  | [] => []
  | c :: cs =>
    if comment then skipGap (c ≠ '\n') true cs
    else if isGap c then skipGap false true cs
    else if c = '#' ∧ blank then skipGap true true cs
    else c :: cs

def trim (cs : List Char) : List Char := ((cs.dropWhile isGap).reverse.dropWhile isGap).reverse

/-- Characters that begin something else than a plain scalar. -/
def indicators : List Char := ['#', '&', '*', '!', '|', '>', '\'', '"', '%', '@', '\x60']

/-- A plain scalar may begin here. -/
def startsPlain : List Char → Bool
  | [] => false
  | c :: cs =>
    if ['-', '?', ':'].contains c then !atGap cs
    else !isGap c && !isBracket c && !(indicators.contains c)

/-! ## Quoted scalars -/

/-- The rest of a single quoted scalar: a quote inside it is written twice. -/
def singleQuoted? : List Char → Option (List Char × List Char)
  | [] => none
  | '\'' :: '\'' :: cs => (singleQuoted? cs).map fun (t, rest) => ('\'' :: t, rest)
  | '\'' :: cs => some ([], cs)
  | c :: cs => if c = '\n' then none else (singleQuoted? cs).map fun (t, rest) => (c :: t, rest)

def escaped? : Char → Option Char
  | '0' => some '\x00'
  | 'a' => some '\x07'
  | 'b' => some '\x08'
  | 't' => some '\t'
  | 'n' => some '\n'
  | 'v' => some '\x0b'
  | 'f' => some '\x0c'
  | 'r' => some '\r'
  | 'e' => some '\x1b'
  | ' ' => some ' '
  | '"' => some '"'
  | '/' => some '/'
  | '\\' => some '\\'
  | 'N' => some '\u0085'
  | '_' => some '\u00a0'
  | 'L' => some '\u2028'
  | 'P' => some '\u2029'
  | _ => none

/-- The character of a code in base sixteen, which no half of a surrogate pair has. -/
def coded? (ds : List Char) : Option Char := do
  let n ← natOfDigits? 16 ds
  if n < 0xD800 ∨ (0xDFFF < n ∧ n < 0x110000) then some (Char.ofNat n) else none

/-- The rest of a double quoted scalar. -/
def doubleQuoted? : List Char → Option (List Char × List Char)
  | [] => none
  | '"' :: cs => some ([], cs)
  | '\\' :: 'x' :: a :: b :: cs => put (coded? [a, b]) (doubleQuoted? cs)
  | '\\' :: 'u' :: a :: b :: c :: d :: cs => put (coded? [a, b, c, d]) (doubleQuoted? cs)
  | '\\' :: 'U' :: a :: b :: c :: d :: e :: f :: g :: h :: cs =>
    put (coded? [a, b, c, d, e, f, g, h]) (doubleQuoted? cs)
  | '\\' :: c :: cs => put (escaped? c) (doubleQuoted? cs)
  | c :: cs => put (if c = '\n' ∨ c = '\\' then none else some c) (doubleQuoted? cs)
where
  put (c : Option Char) (tail : Option (List Char × List Char)) : Option (List Char × List Char) := do
    let c ← c
    let (t, rest) ← tail
    return (c :: t, rest)

/-! ## Flow style -/

/-- The characters of a plain scalar between brackets, and what ends it. -/
def flowPlain (blank : Bool) : List Char → List Char × List Char
  | [] => ([], [])
  | c :: cs =>
    if isBracket c || (c = ':' && (atGap cs || cs.head?.any isBracket)) || (c = '#' && blank) then
      ([], c :: cs)
    else
      let (t, rest) := flowPlain (isGap c) cs
      (c :: t, rest)

/-- A scalar in quotes or without. -/
def flowScalar? (cs : List Char) : Option (Document × List Char) :=
  match cs with
  | '"' :: cs => (doubleQuoted? cs).map fun (t, rest) => (.text (some (String.ofList t)), rest)
  | '\'' :: cs => (singleQuoted? cs).map fun (t, rest) => (.text (some (String.ofList t)), rest)
  | cs =>
    if startsPlain cs then
      let (t, rest) := flowPlain false cs
      some (.plain (String.ofList (trim t)), rest)
    else none

/-- The text of a scalar that is used as a key. -/
def nameOf? : Document → Option String
  | .text s => s
  | .plain s => some s
  | _ => none

mutual

def flowValue? : Nat → List Char → Option (Document × List Char)
  | 0, _ => none
  | fuel + 1, cs =>
    match skipGap false true cs with
    | '[' :: rest => (flowItems? fuel rest).map fun (items, rest) => (.list items, rest)
    | '{' :: rest => (flowMembers? fuel rest).map fun (fields, rest) => (.object fields, rest)
    | rest => flowScalar? rest

/-- Items up to the closing bracket, a comma after the last or not. -/
def flowItems? : Nat → List Char → Option (List Document × List Char)
  | 0, _ => none
  | fuel + 1, cs =>
    match skipGap false true cs with
    | ']' :: rest => some ([], rest)
    | rest => do
      let (item, rest) ← flowValue? fuel rest
      match skipGap false false rest with
      | ']' :: rest => return ([item], rest)
      | ',' :: rest =>
        let (items, rest) ← flowItems? fuel rest
        return (item :: items, rest)
      | _ => none

/-- Members up to the closing brace; a key may stand without a value. -/
def flowMembers? : Nat → List Char → Option (List (Option String × Document) × List Char)
  | 0, _ => none
  | fuel + 1, cs =>
    match skipGap false true cs with
    | '}' :: rest => some ([], rest)
    | rest => do
      let (key, rest) ← flowScalar? rest
      let name ← nameOf? key
      let (value, rest) ← match skipGap false false rest with
        | ':' :: rest => match skipGap false true rest with
          | ',' :: rest => some (.plain "", ',' :: rest)
          | '}' :: rest => some (.plain "", '}' :: rest)
          | rest => flowValue? fuel rest
        | rest => some (.plain "", rest)
      match skipGap false false rest with
      | '}' :: rest => return ([(some name, value)], rest)
      | ',' :: rest =>
        let (members, rest) ← flowMembers? fuel rest
        return ((some name, value) :: members, rest)
      | _ => none

end

/-! ## Block style -/

abbrev Line := List Char

def indent (line : Line) : Nat := (line.takeWhile (· = ' ')).length

/-- Blank, or only a comment. -/
def isIdle (line : Line) : Bool :=
  match line.dropWhile isSpace with
  | [] => true
  | c :: _ => c = '#'

def skipIdle (lines : List Line) : List Line := lines.dropWhile isIdle

/-- A dash that begins a list item. -/
def isItem : Line → Bool
  | '-' :: cs => atGap cs
  | _ => false

/-- A plain scalar up to a comment or to a colon that ends a key, and what follows. -/
def blockPlain (blank : Bool) : Line → Line × Line
  | [] => ([], [])
  | c :: cs =>
    if (c = ':' && atGap cs) || (c = '#' && blank) then ([], c :: cs)
    else
      let (t, rest) := blockPlain (isGap c) cs
      (c :: t, rest)

/-- The key that a line of a block mapping begins with, and what follows its colon. -/
def splitKey? (line : Line) : Option (String × Line) := do
  let (key, rest) ← match line with
    | '"' :: cs => doubleQuoted? cs
    | '\'' :: cs => singleQuoted? cs
    | cs => if startsPlain cs then some (blockPlain false cs) else none
  match rest.dropWhile isSpace with
  | ':' :: after => if atGap after then some (String.ofList (trim key), after) else none
  | _ => none

def joinLines (lines : List Line) : List Char := (lines.intersperse ['\n']).flatten

/-- The lines of a text. -/
def splitLines : List Char → List Line
  | [] => [[]]
  | c :: cs =>
    if c = '\n' then [] :: splitLines cs
    else match splitLines cs with
      | [] => [[c]]
      | line :: lines => (c :: line) :: lines

/-- A value on the line of its key or dash: in brackets or quotes it may run over the
    next lines, and nothing but a comment follows it. -/
def inline? (fuel : Nat) (cs : Line) (lines : List Line) : Option (Document × List Line) :=
  match cs with
  | [] => none
  | c :: _ =>
    if ['[', '{', '"', '\''].contains c then do
      let (d, rest) ← flowValue? fuel (joinLines (cs :: lines))
      match splitLines rest with
      | tail :: lines => if isIdle tail && atGap tail then some (d, lines) else none
      | [] => none
    else if startsPlain cs then
      match blockPlain false cs with
      | (_, ':' :: _) => none
      | (t, _) => some (.plain (String.ofList (trim t)), lines)
    else none

mutual

/-- The node whose lines are indented by `low` at least; with no such line it is empty. -/
def block? : Nat → Nat → List Line → Option (Document × List Line)
  | 0, _, _ => none
  | fuel + 1, low, lines =>
    match skipIdle lines with
    | [] => some (.plain "", [])
    | line :: rest =>
      let column := indent line
      let body := line.drop column
      if column < low then some (.plain "", line :: rest)
      else if isItem body then
        (blockItems? fuel column (line :: rest)).map fun (items, rest) => (.list items, rest)
      else if (splitKey? body).isSome then
        (blockMembers? fuel column (line :: rest)).map fun (fields, rest) => (.object fields, rest)
      else inline? fuel body rest

/-- The items whose dashes stand in one column. -/
def blockItems? : Nat → Nat → List Line → Option (List Document × List Line)
  | 0, _, _ => none
  | fuel + 1, column, lines =>
    match skipIdle lines with
    | [] => some ([], [])
    | line :: rest =>
      if indent line < column then some ([], line :: rest)
      else if column < indent line then none
      else if isItem (line.drop column) then do
        let body := line.drop (column + 1)
        let (item, rest) ← block? fuel (column + 1) ((List.replicate (column + 1) ' ' ++ body) :: rest)
        let (items, rest) ← blockItems? fuel column rest
        return (item :: items, rest)
      else some ([], line :: rest)

/-- The members whose keys stand in one column. A list may be their value in it too. -/
def blockMembers? : Nat → Nat → List Line → Option (List (Option String × Document) × List Line)
  | 0, _, _ => none
  | fuel + 1, column, lines =>
    match skipIdle lines with
    | [] => some ([], [])
    | line :: rest =>
      if indent line < column then some ([], line :: rest)
      else if column < indent line then none
      else do
        let (name, after) ← splitKey? (line.drop column)
        let (value, rest) ←
          if isIdle after then
            match skipIdle rest with
            | next :: rest =>
              if indent next = column ∧ isItem (next.drop column) then
                (blockItems? fuel column (next :: rest)).map fun (items, rest) => (.list items, rest)
              else block? fuel (column + 1) (next :: rest)
            | [] => some (.plain "", [])
          else inline? fuel (after.dropWhile isSpace) rest
        let (members, rest) ← blockMembers? fuel column rest
        return ((some name, value) :: members, rest)

end

/-- A line that marks a document's beginning or end with three characters. -/
def isMarker (c : Char) (line : Line) : Bool :=
  line.take 3 == [c, c, c] && atGap (line.drop 3) && isIdle (line.drop 3)

/-- The one document of the text, between marker lines or without. A byte order mark in
    front is no part of it. -/
def read (s : String) : Option Document := do
  let cs := s.toList.filter (· ≠ '\r')
  let cs := if cs.head? = some '\ufeff' then cs.tail else cs
  let lines := skipIdle (splitLines cs)
  let lines := if lines.head?.any (isMarker '-') then lines.tail else lines
  let (lines, after) := lines.span fun line => !isMarker '.' line
  let (d, rest) ← block? (4 * cs.length + 8) 0 lines
  if (skipIdle rest).isEmpty && (skipIdle after.tail).isEmpty then some d else none

end QuantumMemory.Document.Yaml
