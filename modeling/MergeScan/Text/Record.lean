/-! # Printed records

Descriptions of values are one line long: a record is its name and its fields
between braces, an option is `None` or its value in parentheses after `Some`,
and a set is its members between braces.
-/

namespace MergeScan.Text

private def braced (inside : String) : String :=
  "\x7b " ++ inside ++ " \x7d"

private def field : String × String → String
  | (name, value) => name ++ ": " ++ value

/-- A record with its fields in the given order. A record without fields is
its name alone. -/
def record (name : String) : List (String × String) → String
  | [] => name
  | fields => name ++ " " ++ braced (", ".intercalate (fields.map field))

/-- A record that shows some of its fields and says that it has more. -/
def partialRecord (name : String) (fields : List (String × String)) : String :=
  name ++ " " ++ braced (", ".intercalate (fields.map field ++ [".."]))

/-- A value inside parentheses after the name of what wraps it. -/
def wrapped (name value : String) : String :=
  name ++ "(" ++ value ++ ")"

/-- An optional value. -/
def option : Option String → String
  | none => "None"
  | some value => wrapped "Some" value

/-- A set with its members in the given order. -/
def set (members : List String) : String :=
  "\x7b" ++ ", ".intercalate members ++ "\x7d"

/-- A truth value. -/
def flag : Bool → String
  | true => "true"
  | false => "false"

private def quoteChar : Char → List Char
  | '"' => ['\\', '"']
  | '\\' => ['\\', '\\']
  | other => [other]

/-- A text between quotes. The texts that are quoted hold printable characters
only, so that just the quote and the backslash need an escape. -/
def quotedText (text : String) : String :=
  "\"" ++ String.ofList (text.toList.flatMap quoteChar) ++ "\""

end MergeScan.Text
