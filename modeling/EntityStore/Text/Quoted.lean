import EntityStore.Text.CharClass

/-!
# Quoted text

The form in which a name appears inside a message: between double quotes, with escapes for the
quote, the backslash, the four usual controls, and every character that would not show.
-/
namespace EntityStore.Text

/-- The code point in lower-case hexadecimal between braces. -/
def codeEscape (c : Char) : String :=
  "\\u" ++ "\x7b" ++ String.ofList (Nat.toDigits 16 c.toNat) ++ "\x7d"

def escape (c : Char) : String :=
  match c with
  | '\x00' => "\\0"
  | '\t' => "\\t"
  | '\r' => "\\r"
  | '\n' => "\\n"
  | '"' => "\\\""
  | '\\' => "\\\\"
  | c => if isExtending c || isUnprintable c then codeEscape c else c.toString

def quoted (s : String) : String :=
  "\"" ++ String.join (s.toList.map escape) ++ "\""

def bracketed (items : List String) : String :=
  "[" ++ ", ".intercalate items ++ "]"

def braced (name : String) (fields : List (String × String)) (openEnded : Bool) : String :=
  let shown := fields.map fun f => f.1 ++ ": " ++ f.2
  let items := if openEnded then shown ++ [".."] else shown
  name ++ " \x7b " ++ ", ".intercalate items ++ " \x7d"

end EntityStore.Text
