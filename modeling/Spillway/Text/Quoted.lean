import Spillway.Text.Numeral
import Spillway.Text.Printable

/-!
# Quoted text

Text between double quotes, in which the quote, the backslash and every character that could not
be seen are escaped.
-/

namespace Spillway.Text

/-- Which characters are escaped although they could be shown. -/
structure QuoteStyle where
  apostrophe : Bool

/-- Strings leave the apostrophe alone. -/
def QuoteStyle.string : QuoteStyle := ⟨false⟩

/-- Paths escape the apostrophe as well. -/
def QuoteStyle.path : QuoteStyle := ⟨true⟩

/-- A character as it stands between the quotes. -/
def escape (style : QuoteStyle) (c : Char) : String :=
  if c = '\x00' then "\\0"
  else if c = '\t' then "\\t"
  else if c = '\r' then "\\r"
  else if c = '\n' then "\\n"
  else if c = '"' ∨ c = '\\' ∨ c = '\'' ∧ style.apostrophe then String.ofList ['\\', c]
  else if isPrintable c then String.singleton c
  else "\\u\x7b" ++ Numeral.hex 1 c.toNat ++ "\x7d"

def quote (style : QuoteStyle) (text : String) : String :=
  "\"" ++ String.join (text.toList.map (escape style)) ++ "\""

/-- A string in quotes. -/
def quoted (text : String) : String := quote .string text

/-- Items in square brackets, with a comma and a blank between them. -/
def bracketed (items : List String) : String :=
  "[" ++ String.intercalate ", " items ++ "]"

/-- A named value with named parts in braces. -/
def record (name : String) (parts : List (String × String)) : String :=
  name ++ " \x7b " ++ String.intercalate ", " (parts.map fun (part, text) => part ++ ": " ++ text)
    ++ " \x7d"

/-- An optional value: `None`, or `Some` around its text. -/
def optional : Option String → String
  | none => "None"
  | some text => "Some(" ++ text ++ ")"

end Spillway.Text
