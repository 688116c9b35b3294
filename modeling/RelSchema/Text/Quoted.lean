import RelSchema.Text.GraphemeExtend
import RelSchema.Text.Printable

/-!
# Quoted text

Text between double quotes, with every character that would not show escaped.
-/

namespace RelSchema.Text

/-- The code point in hexadecimal, without leading zeros. -/
def codePoint (c : Char) : String :=
  "\\u\x7b" ++ String.ofList (Nat.toDigits 16 c.toNat) ++ "\x7d"

/-- Where characters other than the common ones are escaped: apostrophes, and extenders of a
grapheme. -/
structure EscapeRule where
  apostrophe : Bool
  extender : Bool

def escapeChar (rule : EscapeRule) (c : Char) : String :=
  if c = '\x00' then "\\0"
  else if c = '\t' then "\\t"
  else if c = '\r' then "\\r"
  else if c = '\n' then "\\n"
  else if c = '\\' then "\\\\"
  else if c = '"' then "\\\""
  else if c = '\'' then (if rule.apostrophe then "\\'" else "'")
  else if rule.extender && isGraphemeExtend c then codePoint c
  else if isPrintable c then c.toString
  else codePoint c

/-- Quoted text: apostrophes stand as they are, extenders are escaped. -/
def quote (text : String) : String :=
  "\"" ++ String.join (text.toList.map (escapeChar ⟨false, true⟩)) ++ "\""

/-- Quoted prose: apostrophes are escaped, and an extender only where it opens the text and so has
nothing to join. -/
def quoteProse (text : String) : String :=
  let body := match text.toList with
    | [] => []
    | c :: rest => escapeChar ⟨true, true⟩ c :: rest.map (escapeChar ⟨true, false⟩)
  "\"" ++ String.join body ++ "\""

/-- Quoted texts in brackets. -/
def quoteList (texts : List String) : String :=
  "[" ++ ", ".intercalate (texts.map quote) ++ "]"

end RelSchema.Text
