/-!
# Text of records and lists

A record is written as its name followed by its fields in braces, a list as its items
between brackets, and a wrapped value as the wrapper's name and the value in parentheses.
-/

namespace RangeKeys.Text

/-- The items between brackets, separated by commas. -/
def list (items : List String) : String :=
  "[" ++ String.intercalate ", " items ++ "]"

/-- The name and then each field with its value; a record without fields is its name alone. -/
def record (name : String) (fields : List (String × String)) : String :=
  match fields with
  | [] => name
  | fields =>
    let texts := fields.map fun (field, value) => field ++ ": " ++ value
    name ++ " \x7b " ++ String.intercalate ", " texts ++ " \x7d"

/-- A value inside a named wrapper. -/
def wrapped (name value : String) : String :=
  name ++ "(" ++ value ++ ")"

/-- A value that may be missing. -/
def optional : Option String → String
  | none => "None"
  | some value => wrapped "Some" value

end RangeKeys.Text
