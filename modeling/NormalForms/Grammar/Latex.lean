import NormalForms.Grammar.Listing

namespace NormalForms.Latex

/-- A character as LaTeX text, given the character after it: of two hyphens in a row, the first one is kept apart. -/
def escapeChar (next? : Option Char) : Char → String
  | '&' => "\\&"
  | '%' => "\\%"
  | '$' => "\\$"
  | '#' => "\\#"
  | '_' => "\\_"
  | '{' => "\\\x7b"
  | '}' => "\\\x7d"
  | '[' => "\x7b[\x7d"
  | ']' => "\x7b]\x7d"
  | '~' => "\\textasciitilde\x7b\x7d"
  | '^' => "\\textasciicircum\x7b\x7d"
  | '<' => "\\textless\x7b\x7d"
  | '>' => "\\textgreater\x7b\x7d"
  | '!' => "!\x7b\x7d"
  | '\\' => "\\textbackslash\x7b\x7d"
  | '-' => if next? = some '-' then "-\x7b\x7d" else "-"
  | c => .ofList [c]

def escapeChars : List Char → List Char
  | [] => []
  | c :: cs => (escapeChar cs.head? c).toList ++ escapeChars cs

def escape (name : String) : String :=
  .ofList (escapeChars name.toList)

def epsilonMacro (c : Char) : List Char :=
  if c = 'ε' then "\\epsilon".toList else [c]

def row (aligned : Bool) (e : Entry) : String :=
  if e.rights = [] then ""
  else
    let arrow := if aligned then " & \\rightarrow &" else " \\rightarrow "
    let rights := e.rights.map fun names => " \\ ".intercalate (names.map escape)
    .ofList ((escape e.left ++ arrow ++ " \\mid ".intercalate rights).toList.flatMap epsilonMacro)

def table (l : Listing) : String :=
  "\\\\\n".intercalate (["\\[\\begin\x7barray\x7d\x7bcll\x7d"] ++ l.entries.map (row true) ++ ["\\end\x7barray\x7d\\]"])

end NormalForms.Latex
