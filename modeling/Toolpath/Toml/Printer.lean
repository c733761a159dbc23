import Toolpath.Toml

/-!
# Printing TOML

Statements are printed one by one, a blank line before each heading but the first. An array has
one item per line, indented by four blanks and followed by a comma; inner arrays are not indented
further. Real numbers have a point and no exponent.
-/

namespace Toolpath.Toml

/-- The style of real numbers. -/
def realStyle : Number.DecimalStyle :=
  { tie := .up, positional := none, wholeMark := ".0", nan := "nan", infinity := ("inf", "-inf") }

mutual

/-- The text of a value. Strings hold plain names only, and tables are left to their headings. -/
def valueText : Toml → List Char
  | string text => '"' :: text.toList ++ ['"']
  | integer n => (toString n).toList
  | real x => (realStyle.render .double (Number.doubleDatum x)).toList
  | boolean b => (if b then "true" else "false").toList
  | moment => []
  | array [] => ['[', ']']
  | array (item :: rest) => '[' :: '\n' :: itemLines (item :: rest) ++ [']']
  | table _ => []

/-- The lines of the items of an array. -/
def itemLines : List Toml → List Char
  | [] => []
  | item :: rest => "    ".toList ++ valueText item ++ ',' :: '\n' :: itemLines rest

end

/-- The text of a path of plain keys. -/
def pathText (path : List String) : List Char := (".".intercalate path).toList

/-- The text of a statement. -/
def statementText : Statement → List Char
  | .heading path => '[' :: pathText path ++ [']', '\n']
  | .arrayHeading path => '[' :: '[' :: pathText path ++ [']', ']', '\n']
  | .entry path value => pathText path ++ ' ' :: '=' :: ' ' :: valueText value ++ ['\n']

/-- The text of the statements behind the first. -/
def moreStatementsText : List Statement → List Char
  | [] => []
  | .entry path value :: rest => statementText (.entry path value) ++ moreStatementsText rest
  | heading :: rest => '\n' :: statementText heading ++ moreStatementsText rest

/-- The text of a document. -/
def toText : List Statement → String
  | [] => ""
  | first :: rest => String.ofList (statementText first ++ moreStatementsText rest)

end Toolpath.Toml
