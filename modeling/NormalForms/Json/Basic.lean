namespace NormalForms

/-- A JSON value. A number is kept as it is written. A string has no content if it is written with a surrogate that is
not one of a pair, since it is no text then; the same holds of the names of fields. -/
inductive Json where
  | null
  | bool (b : Bool)
  | number (literal : String)
  | string (content : Option String)
  | array (items : List Json)
  | object (fields : List (Option String × Json))
deriving Inhabited

namespace Json

def text (s : String) : Json :=
  string (some s)

def texts (l : List String) : Json :=
  array (l.map text)

def record (fields : List (String × Json)) : Json :=
  object (fields.map fun (name, j) => (some name, j))

def text? : Json → Option String
  | string content => content
  | _ => none

def texts? : Json → Option (List String)
  | array items => items.mapM text?
  | _ => none

def field? (name : String) (fields : List (Option String × Json)) : Option Json :=
  match fields.filter (·.1 = some name) with
  | [(_, j)] => some j
  | _ => none

end Json

end NormalForms
