/-
**Reading JSON text.**

The grammar is the standard one: no comments, no trailing commas, no leading zeros, no control
characters in strings, and no half of a surrogate pair alone. Each reader takes the rest of the text
and gives a value and what follows it.
-/

import Cascades.Json.Basic

namespace Cascades.Json

namespace Reader

/-! ### Characters -/

/-- Space, tab, line feed and carriage return. -/
def isBlank (character : Char) : Bool :=
  character = ' ' || character = '\t' || character = '\n' || character = '\r'

/-- An ASCII digit. -/
def isDigit (character : Char) : Bool := '0' ≤ character && character ≤ '9'

/-- Drops blanks in front. -/
def skipBlank (text : List Char) : List Char := text.dropWhile isBlank

/-- The value of a hexadecimal digit. -/
def hexDigit? (character : Char) : Option Nat :=
  if isDigit character then some (character.toNat - '0'.toNat)
  else if 'a' ≤ character && character ≤ 'f' then some (character.toNat - 'a'.toNat + 10)
  else if 'A' ≤ character && character ≤ 'F' then some (character.toNat - 'A'.toNat + 10)
  else none

/-- The value of four hexadecimal digits. -/
def hexQuad? (first second third fourth : Char) : Option Nat := do
  return ((← hexDigit? first) * 16 + (← hexDigit? second)) * 256
    + (← hexDigit? third) * 16 + (← hexDigit? fourth)

/-- The character of a short escape. -/
def shortEscape? : Char → Option Char
  | '"' => some '"'
  | '\\' => some '\\'
  | '/' => some '/'
  | 'b' => some '\x08'
  | 'f' => some '\x0c'
  | 'n' => some '\n'
  | 'r' => some '\r'
  | 't' => some '\t'
  | _ => none

/-! ### Strings -/

/-- The rest of a string after its opening quote; `done` holds what was read, last first. -/
def stringTail (done : List Char) : List Char → Option (String × List Char)
  | [] => none
  | '"' :: rest => some (String.ofList done.reverse, rest)
  | '\\' :: 'u' :: a :: b :: c :: d :: '\\' :: 'u' :: e :: f :: g :: h :: rest =>
    match hexQuad? a b c d with
    | none => none
    | some unit =>
      if 0xd800 ≤ unit ∧ unit < 0xdc00 then
        match hexQuad? e f g h with
        | none => none
        | some low =>
          if 0xdc00 ≤ low ∧ low < 0xe000 then
            let code := 0x10000 + (unit - 0xd800) * 0x400 + (low - 0xdc00)
            stringTail (Char.ofNat code :: done) rest
          else none
      else if 0xdc00 ≤ unit ∧ unit < 0xe000 then none
      else stringTail (Char.ofNat unit :: done) ('\\' :: 'u' :: e :: f :: g :: h :: rest)
  | '\\' :: 'u' :: a :: b :: c :: d :: rest =>
    match hexQuad? a b c d with
    | none => none
    | some unit =>
      if 0xd800 ≤ unit ∧ unit < 0xe000 then none
      else stringTail (Char.ofNat unit :: done) rest
  | '\\' :: escape :: rest =>
    match shortEscape? escape with
    | none => none
    | some character => stringTail (character :: done) rest
  | character :: rest =>
    if character.toNat < 0x20 then none else stringTail (character :: done) rest
termination_by text => text.length

/-! ### Numbers -/

/-- The number written by digits. -/
def digitsValue (digits : List Char) : Nat :=
  digits.foldl (fun value digit => value * 10 + (digit.toNat - '0'.toNat)) 0

/-- A number; the text starts at its sign or its first digit. -/
def number (text : List Char) : Option (JsonNumber × List Char) :=
  let (negative, text) :=
    match text with
    | '-' :: rest => (true, rest)
    | _ => (false, text)
  let whole :=
    match text with
    | '0' :: rest => (['0'], rest)
    | _ => text.span isDigit
  if whole.1.isEmpty then none
  else
    let fraction :=
      match whole.2 with
      | '.' :: rest => some (rest.span isDigit)
      | rest => some ([], rest)
    match fraction with
    | none => none
    | some (places, rest) =>
      if places.isEmpty && whole.2.head? = some '.' then none
      else
        let digits := digitsValue (whole.1 ++ places)
        let shift : Int := places.length
        match rest with
        | 'e' :: tail | 'E' :: tail =>
          let (down, tail) :=
            match tail with
            | '-' :: tail => (true, tail)
            | '+' :: tail => (false, tail)
            | tail => (false, tail)
          let (power, tail) := tail.span isDigit
          if power.isEmpty then none
          else
            let power : Int := digitsValue power
            some (⟨negative, digits, (if down then -power else power) - shift, false⟩, tail)
        | rest => some (⟨negative, digits, -shift, places.isEmpty⟩, rest)

/-! ### Values -/

mutual

/-- A value; the fuel bounds the characters that are left. -/
def value : (fuel : Nat) → List Char → Option (Json × List Char)
  | 0, _ => none
  | fuel + 1, text =>
    match skipBlank text with
    | '\x7b' :: rest =>
      match skipBlank rest with
      | '\x7d' :: rest => some (.object [], rest)
      | rest => fields fuel [] rest
    | '[' :: rest =>
      match skipBlank rest with
      | ']' :: rest => some (.array [], rest)
      | rest => items fuel [] rest
    | '"' :: rest => (stringTail [] rest).map fun (text, rest) => (.string text, rest)
    | 't' :: 'r' :: 'u' :: 'e' :: rest => some (.bool true, rest)
    | 'f' :: 'a' :: 'l' :: 's' :: 'e' :: rest => some (.bool false, rest)
    | 'n' :: 'u' :: 'l' :: 'l' :: rest => some (.null, rest)
    | rest => (number rest).map fun (value, rest) => (.number value, rest)

/-- The items of a list from the next one on; `done` holds the earlier ones, last first. -/
def items : (fuel : Nat) → List Json → List Char → Option (Json × List Char)
  | 0, _, _ => none
  | fuel + 1, done, text =>
    match value fuel text with
    | none => none
    | some (item, rest) =>
      match skipBlank rest with
      | ',' :: rest => items fuel (item :: done) rest
      | ']' :: rest => some (.array (item :: done).reverse, rest)
      | _ => none

/-- The fields of an object from the next one on; `done` holds the earlier ones, last first. -/
def fields : (fuel : Nat) → List (String × Json) → List Char → Option (Json × List Char)
  | 0, _, _ => none
  | fuel + 1, done, text =>
    match skipBlank text with
    | '"' :: rest =>
      match stringTail [] rest with
      | none => none
      | some (name, rest) =>
        match skipBlank rest with
        | ':' :: rest =>
          match value fuel rest with
          | none => none
          | some (item, rest) =>
            match skipBlank rest with
            | ',' :: rest => fields fuel ((name, item) :: done) rest
            | '\x7d' :: rest => some (.object ((name, item) :: done).reverse, rest)
            | _ => none
        | _ => none
    | _ => none

end

end Reader

/-- The value written by a whole text. -/
def parse? (text : String) : Option Json :=
  let characters := text.toList
  match Reader.value (2 * characters.length + 1) characters with
  | some (json, rest) => if (Reader.skipBlank rest).isEmpty then some json else none
  | none => none

end Cascades.Json
