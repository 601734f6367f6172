import TypeGraph.Text.Quoted

/-!
# Identifiers

Names that can be written bare in JavaScript and TypeScript, and how one is derived from the label
of a type. Only ASCII letters and digits carry over from a label; every other character separates
words.
-/

namespace TypeGraph.Identifier

/-- ASCII letters and digits in words that each start with an upper-case letter. -/
def pascalChars (wordStarts : Bool) : List Char → List Char
  | [] => []
  | c :: rest =>
    if c.isAlphanum then (if wordStarts then c.toUpper else c) :: pascalChars false rest
    else pascalChars true rest

/-- Whether a label is one capitalised word: an upper-case letter with letters and digits behind
it. -/
def isPascal (label : String) : Bool :=
  label.toList.head?.any Char.isUpper && label.toList.all Char.isAlphanum

/-- The words of a label, capitalised and joined. A label that is one capitalised word stays as it
is. -/
def pascalCase (label : String) : String :=
  if isPascal label then label else String.ofList (pascalChars true label.toList)

/-- The identifier derived from a label, if the label has any letter or digit. A digit in front
gets a `T` before it. -/
def ofLabel? (label : String) : Option String :=
  let name := pascalCase label
  match name.toList with
  | [] => none
  | first :: _ => some (if first.isDigit then "T" ++ name else name)

/-- Whether a character can stand anywhere in a bare identifier. -/
def isPart (c : Char) : Bool := c.isAlphanum || c == '_' || c == '$'

/-- Whether a name can be written as a bare identifier. -/
def isBare (name : String) : Bool :=
  match name.toList with
  | [] => false
  | first :: rest => isPart first && !first.isDigit && rest.all isPart

/-- A property name as it is written in an object: bare if possible, else quoted. -/
def propertyKey (name : String) : String := if isBare name then name else Quoted.quote name

end TypeGraph.Identifier
