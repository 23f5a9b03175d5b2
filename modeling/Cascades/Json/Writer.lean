/-
**Writing JSON text.**

`compact` writes a value without blanks, `pretty` with two blanks for each level. A number that is
not whole keeps a point or an exponent, so that it reads back as one.
-/

import Cascades.Json.Basic

namespace Cascades.Json

/-! ### Strings and numbers -/

/-- The lower-case hexadecimal digit of a value below sixteen. -/
def hexChar (value : Nat) : Char :=
  if value < 10 then Char.ofNat ('0'.toNat + value) else Char.ofNat ('a'.toNat + value - 10)

/-- A character inside a string. -/
def escape (character : Char) : List Char :=
  match character with
  | '"' => ['\\', '"']
  | '\\' => ['\\', '\\']
  | '\x08' => ['\\', 'b']
  | '\x0c' => ['\\', 'f']
  | '\n' => ['\\', 'n']
  | '\r' => ['\\', 'r']
  | '\t' => ['\\', 't']
  | _ =>
    let code := character.toNat
    if code < 0x20 then ['\\', 'u', '0', '0', hexChar (code / 16), hexChar (code % 16)]
    else [character]

/-- A text between quotes. -/
def quote (text : String) : String :=
  "\"" ++ String.ofList (text.toList.flatMap escape) ++ "\""

/-- A number: whole ones as digits; others with a point between the sixteenth place above and the
fifth below, and with an exponent elsewhere. -/
def numberText (value : JsonNumber) : String :=
  let digits := Decimal.numeral value.digits
  let point := digits.length + value.exponent
  let body :=
    if value.whole then String.ofList digits
    else if value.digits = 0 then "0.0"
    else if -5 < point ∧ point ≤ 16 then
      let text := Decimal.positional ⟨value.digits, value.exponent⟩
      if 0 ≤ value.exponent then text ++ ".0" else text
    else
      let tail := if digits.length = 1 then [] else '.' :: digits.drop 1
      String.ofList (digits.take 1 ++ tail) ++ "e" ++ toString (point - 1)
  Decimal.signed value.negative body

/-! ### Layout -/

/-- A line break and the blanks of a level, or nothing in compact text. -/
def lineBreak (level : Option Nat) : String :=
  match level with
  | none => ""
  | some level => "\n" ++ String.ofList (List.replicate (2 * level) ' ')

mutual

/-- A value at a level of the layout; no level means compact text. -/
def layout (level : Option Nat) : Json → String
  | .null => "null"
  | .bool value => if value then "true" else "false"
  | .number value => numberText value
  | .string value => quote value
  | .array [] => "[]"
  | .array (item :: rest) =>
    let inner := level.map (· + 1)
    "[" ++ lineBreak inner ++ layout inner item ++ layoutItems inner rest ++ lineBreak level ++ "]"
  | .object [] => "\x7b\x7d"
  | .object ((name, item) :: rest) =>
    let inner := level.map (· + 1)
    let colon := if level.isSome then ": " else ":"
    "\x7b" ++ lineBreak inner ++ quote name ++ colon ++ layout inner item
      ++ layoutFields inner colon rest ++ lineBreak level ++ "\x7d"

/-- The items after the first one. -/
def layoutItems (level : Option Nat) : List Json → String
  | [] => ""
  | item :: rest => "," ++ lineBreak level ++ layout level item ++ layoutItems level rest

/-- The fields after the first one. -/
def layoutFields (level : Option Nat) (colon : String) : List (String × Json) → String
  | [] => ""
  | (name, item) :: rest =>
    "," ++ lineBreak level ++ quote name ++ colon ++ layout level item
      ++ layoutFields level colon rest

end

/-- The text of a value without blanks. -/
def compact (json : Json) : String := json.layout none

/-- The text of a value with a line for each item. -/
def pretty (json : Json) : String := json.layout (some 0)

end Cascades.Json
