import Clausal.Text.GraphemeExtend
import Clausal.Text.Unprintable

/-!
# Quoted characters

A character literal is written between single quotes. What would end the quotes, break the line
or leave no visible trace is escaped.
-/

namespace Clausal.Quoted

/-- A character as its code point in lower case hexadecimal digits, without padding. -/
def codePoint (c : Char) : String :=
  "\\u\x7b" ++ String.ofList (Nat.toDigits 16 c.toNat) ++ "\x7d"

/-- The escaped form of a character: a letter after a backslash for the common control
characters, the code point for what is invisible or would combine with the opening quote. -/
def escape (c : Char) : String :=
  match c with
  | '\x00' => "\\0"
  | '\t' => "\\t"
  | '\r' => "\\r"
  | '\n' => "\\n"
  | '\'' => "\\'"
  | '\\' => "\\\\"
  | c => if extendsGrapheme c || isUnprintable c then codePoint c else String.singleton c

/-- The character literal that denotes `c`. -/
def char (c : Char) : String := "'" ++ escape c ++ "'"

end Clausal.Quoted
