/-
  QuantumMemory.Document.Json — reading and writing trees as JSON text.

  The reader takes exactly one value with blanks around it: no comment, no trailing
  comma, no sign or point in front of a number's digits. An escape pair names one
  character; an escape that stands alone in the surrogate range leaves the string
  without a text, which is no fault of the syntax. Recursion is bounded by the length of
  the text, which every level shortens.

  `compact` writes no blanks; `pretty` puts each item on a line of its own, two blanks
  deeper than the line of its bracket. Both leave characters beyond ASCII as they are.
-/

import QuantumMemory.Document.Tree

namespace QuantumMemory.Document.Json

/-! ## Reading -/

def isBlank (c : Char) : Bool := c = ' ' || c = '\n' || c = '\r' || c = '\t'

def skipBlank (cs : List Char) : List Char := cs.dropWhile isBlank

/-- The text after `word`, which has to come next. -/
def literal? (word : String) (cs : List Char) : Option (List Char) :=
  if word.toList.isPrefixOf cs then some (cs.drop word.length) else none

def hexDigit? (c : Char) : Option Nat :=
  if c.isDigit then some (c.toNat - '0'.toNat)
  else if 'a' ≤ c ∧ c ≤ 'f' then some (c.toNat - 'a'.toNat + 10)
  else if 'A' ≤ c ∧ c ≤ 'F' then some (c.toNat - 'A'.toNat + 10)
  else none

def hexQuad? (a b c d : Char) : Option Nat := do
  return ((← hexDigit? a) * 16 + (← hexDigit? b)) * 256 + (← hexDigit? c) * 16 + (← hexDigit? d)

def escaped? : Char → Option Char
  | '"' => some '"'
  | '\\' => some '\\'
  | '/' => some '/'
  | 'b' => some '\x08'
  | 'f' => some '\x0c'
  | 'n' => some '\n'
  | 'r' => some '\r'
  | 't' => some '\t'
  | _ => none

def isHighSurrogate (u : Nat) : Bool := decide (0xD800 ≤ u ∧ u < 0xDC00)
def isLowSurrogate (u : Nat) : Bool := decide (0xDC00 ≤ u ∧ u < 0xE000)

/-- The characters of a string body as code points, surrogates included, up to its
    closing quote, and the text after it. -/
def stringBody? : List Char → Option (List Nat × List Char)
  | [] => none
  | '"' :: rest => some ([], rest)
  | '\\' :: 'u' :: a :: b :: c :: d :: rest => do
    let unit ← hexQuad? a b c d
    let (units, rest) ← stringBody? rest
    return (unit :: units, rest)
  | '\\' :: c :: rest => do
    let c ← escaped? c
    let (units, rest) ← stringBody? rest
    return (c.toNat :: units, rest)
  | c :: rest =>
    if c.toNat < 0x20 || c = '\\' then none
    else do
      let (units, rest) ← stringBody? rest
      return (c.toNat :: units, rest)

/-- The text of code points in which each surrogate pair names one character. -/
def textOfUnits? : List Nat → Option (List Char)
  | [] => some []
  | [u] => if isHighSurrogate u || isLowSurrogate u then none else some [Char.ofNat u]
  | u :: v :: rest =>
    if isHighSurrogate u then
      if isLowSurrogate v then
        (textOfUnits? rest).map (Char.ofNat (0x10000 + (u - 0xD800) * 0x400 + (v - 0xDC00)) :: ·)
      else none
    else if isLowSurrogate u then none
    else (textOfUnits? (v :: rest)).map (Char.ofNat u :: ·)

/-- A string after its opening quote. -/
def string? (cs : List Char) : Option (Option String × List Char) := do
  let (units, rest) ← stringBody? cs
  return ((textOfUnits? units).map String.ofList, rest)

/-- The whole part of a number: one zero, or digits that begin with another. -/
def whole? (cs : List Char) : Option (List Char × List Char) :=
  match cs.span Char.isDigit with
  | ([], _) => none
  | ('0' :: _ :: _, _) => none
  | (ds, rest) => some (ds, rest)

def fraction? : List Char → Option (List Char × List Char)
  | '.' :: rest => match rest.span Char.isDigit with
    | ([], _) => none
    | (ds, rest) => some (ds, rest)
  | rest => some ([], rest)

def exponentDigits? (negative : Bool) (cs : List Char) : Option (Option Int × List Char) :=
  match cs.span Char.isDigit with
  | ([], _) => none
  | (ds, rest) =>
    let e : Int := Nat.ofDigitChars 10 ds 0
    some (some (if negative then -e else e), rest)

def exponent? : List Char → Option (Option Int × List Char)
  | c :: rest =>
    if c = 'e' ∨ c = 'E' then
      match rest with
      | '-' :: rest => exponentDigits? true rest
      | '+' :: rest => exponentDigits? false rest
      | rest => exponentDigits? false rest
    else some (none, c :: rest)
  | [] => some (none, [])

def numeral? (negative : Bool) (cs : List Char) : Option (Numeral × List Char) := do
  let (whole, rest) ← whole? cs
  let (fraction, rest) ← fraction? rest
  let (exponent, rest) ← exponent? rest
  return (⟨negative, whole, fraction, exponent⟩, rest)

/-- A value that is neither an object nor a list. -/
def scalar? (cs : List Char) : Option (Document × List Char) :=
  match cs with
  | [] => none
  | '"' :: rest => (string? rest).map fun (s, rest) => (.text s, rest)
  | '-' :: rest => (numeral? true rest).map fun (n, rest) => (.number n, rest)
  | c :: _ =>
    if c.isDigit then (numeral? false cs).map fun (n, rest) => (.number n, rest)
    else if c = 'n' then (literal? "null" cs).map fun rest => (.null, rest)
    else if c = 't' then (literal? "true" cs).map fun rest => (.bool true, rest)
    else if c = 'f' then (literal? "false" cs).map fun rest => (.bool false, rest)
    else none

mutual

/-- A value and the text after it; blanks may come first. -/
def value? : Nat → List Char → Option (Document × List Char)
  | 0, _ => none
  | fuel + 1, cs =>
    match skipBlank cs with
    | '[' :: rest => match skipBlank rest with
      | ']' :: rest => some (.list [], rest)
      | rest => (items? fuel rest).map fun (items, rest) => (.list items, rest)
    | '{' :: rest => match skipBlank rest with
      | '}' :: rest => some (.object [], rest)
      | rest => (members? fuel rest).map fun (fields, rest) => (.object fields, rest)
    | rest => scalar? rest

/-- The items of a list that has some, up to its closing bracket. -/
def items? : Nat → List Char → Option (List Document × List Char)
  | 0, _ => none
  | fuel + 1, cs => do
    let (item, rest) ← value? fuel cs
    match skipBlank rest with
    | ']' :: rest => return ([item], rest)
    | ',' :: rest =>
      let (items, rest) ← items? fuel rest
      return (item :: items, rest)
    | _ => none

/-- The members of an object that has some, up to its closing brace. -/
def members? : Nat → List Char → Option (List (Option String × Document) × List Char)
  | 0, _ => none
  | fuel + 1, cs =>
    match skipBlank cs with
    | '"' :: rest => do
      let (name, rest) ← string? rest
      match skipBlank rest with
      | ':' :: rest =>
        let (value, rest) ← value? fuel rest
        match skipBlank rest with
        | '}' :: rest => return ([(name, value)], rest)
        | ',' :: rest =>
          let (members, rest) ← members? fuel rest
          return ((name, value) :: members, rest)
        | _ => none
      | _ => none
    | _ => none

end

/-- The value that is the whole text. -/
def read (s : String) : Option Document := do
  let cs := s.toList
  let (d, rest) ← value? (cs.length + 1) cs
  if (skipBlank rest).isEmpty then some d else none

/-! ## Writing -/

def hexChar (n : Nat) : Char := Nat.digitChar n

def escape (c : Char) : List Char :=
  if c = '"' then ['\\', '"']
  else if c = '\\' then ['\\', '\\']
  else if c = '\x08' then ['\\', 'b']
  else if c = '\x0c' then ['\\', 'f']
  else if c = '\n' then ['\\', 'n']
  else if c = '\r' then ['\\', 'r']
  else if c = '\t' then ['\\', 't']
  else if c.toNat < 0x20 then ['\\', 'u', '0', '0', hexChar (c.toNat / 16), hexChar (c.toNat % 16)]
  else [c]

def quoted (s : String) : List Char := '"' :: (s.toList.flatMap escape ++ ['"'])

/-- A string without a text has no spelling but an empty one. -/
def key (name : Option String) : List Char := quoted (name.getD "")

mutual

def compact : Document → List Char
  | .null => "null".toList
  | .bool b => if b then "true".toList else "false".toList
  | .number n => n.toText
  | .text s => key s
  | .plain s => quoted s
  | .list items => '[' :: (compactItems items ++ [']'])
  | .object fields => '{' :: (compactMembers fields ++ ['}'])

def compactItems : List Document → List Char
  | [] => []
  | [d] => compact d
  | d :: rest => compact d ++ ',' :: compactItems rest

def compactMembers : List (Option String × Document) → List Char
  | [] => []
  | [(name, d)] => key name ++ ':' :: compact d
  | (name, d) :: rest => key name ++ ':' :: (compact d ++ ',' :: compactMembers rest)

end

/-- A line break and the blanks of a nesting depth. -/
def newline (depth : Nat) : List Char := '\n' :: List.replicate (2 * depth) ' '

mutual

def prettyAt (depth : Nat) : Document → List Char
  | .list [] => ['[', ']']
  | .object [] => ['{', '}']
  | .list (d :: rest) =>
    '[' :: (newline (depth + 1) ++ prettyAt (depth + 1) d ++ prettyItems depth rest ++ [']'])
  | .object ((name, d) :: rest) =>
    '{' :: (newline (depth + 1) ++ key name ++ ':' :: ' ' :: prettyAt (depth + 1) d
      ++ prettyMembers depth rest ++ ['}'])
  | .null => "null".toList
  | .bool b => if b then "true".toList else "false".toList
  | .number n => n.toText
  | .text s => key s
  | .plain s => quoted s

def prettyItems (depth : Nat) : List Document → List Char
  | [] => newline depth
  | d :: rest => ',' :: (newline (depth + 1) ++ prettyAt (depth + 1) d ++ prettyItems depth rest)

def prettyMembers (depth : Nat) : List (Option String × Document) → List Char
  | [] => newline depth
  | (name, d) :: rest =>
    ',' :: (newline (depth + 1) ++ key name ++ ':' :: ' ' :: prettyAt (depth + 1) d
      ++ prettyMembers depth rest)

end

def pretty (d : Document) : String := String.ofList (prettyAt 0 d)

def write (d : Document) : String := String.ofList (compact d)

end QuantumMemory.Document.Json
