import NormalForms.Grammar.WellFormed
import NormalForms.Text.Pieces

namespace NormalForms.Grammar

/-- A line of a written grammar either opens a rule or goes on with the alternatives of the rule before it. -/
inductive Line where
  | opening (left : String) (rights : List Char)
  | continuation (rights : List Char)

def Line.rights : Line → List Char
  | opening _ rights => rights
  | continuation rights => rights

def Line.read (line : List Char) : Except LineFault Line :=
  match arrowPieces line with
  | [left, rights] =>
    match words left with
    | [] => .error .emptyLeft
    | [name] => if name ∈ epsilonNames then .error .epsilonLeft else .ok (.opening name rights)
    | _ => .error .brokenLeft
  | [body] =>
    match body.dropWhile isBlank with
    | '|' :: rights => .ok (.continuation rights)
    | _ => .error .noLeft
  | _ => .error .manyArrows

def Line.left? (previous : Option String) : Line → Option String
  | opening left _ => some left
  | continuation _ => previous

def readLines (number : Nat) (previous : Option String) : List (List Char) → Except Error (List (String × List Char))
  | [] => .ok []
  | line :: more =>
    if line.all isBlank then readLines (number + 1) previous more
    else
      match Line.read line with
      | .error fault => .error (.line number fault)
      | .ok l =>
        match l.left? previous with
        | none => .error (.line number .noLeft)
        | some left => (readLines (number + 1) (some left) more).map ((left, l.rights) :: ·)

def splitAlternatives (rights : List Char) : List (List String) :=
  ((rights.splitOn '|').map words).filter (· ≠ [])

/-- The left sides are the non-terminals, and every other word but the empty string is a terminal. -/
def symbolOf (lefts : List String) (word : String) : Symbol :=
  if word ∈ epsilonNames then .epsilon
  else if word ∈ lefts then .nonTerminal word
  else .terminal word

def ofAlternatives (start : String) (written : List (String × List (List String))) : Grammar :=
  let lefts := (written.map (·.1)).eraseDups
  let rules : List Rule := written.map fun (left, rights) => ⟨left, rights.map (·.map (symbolOf lefts))⟩
  { start
    terminals := (rules.flatMap fun r => r.alternatives.flatMap Production.terminals).eraseDups
    rules := mergeRules lefts rules }

/-- Reads a grammar with a line `left -> right | ... | right` for each rule, the first one being that of the start
symbol. -/
def read (text : String) : Except Error Grammar := do
  let written ← readLines 1 none (lines text.toList)
  match written with
  | [] => throw (.line 0 .noRules)
  | (start, _) :: _ =>
    (ofAlternatives start (written.map fun (left, rights) => (left, splitAlternatives rights))).checked

variable (g : Grammar)

def addTerminal (a : String) : Grammar :=
  if a ∈ g.terminals then g else { g with terminals := g.terminals ++ [a] }

def addWords (left : String) (names : List String) : Grammar :=
  let p := names.map (symbolOf g.nonTerminals)
  if p = [] then g else ((Production.terminals p).foldl addTerminal g).addProduction left p

/-- Goes through the lines twice, first for their left sides and then for what stands between their bars. -/
def collect (start : String) (written : List (String × List Char)) : Grammar :=
  let opened := written.foldl (fun g x => g.addNonTerminal x.1) ⟨start, [], []⟩
  written.foldl (fun g x => (x.2.splitOn '|').foldl (fun g piece => g.addWords x.1 (words piece)) g) opened

end NormalForms.Grammar
