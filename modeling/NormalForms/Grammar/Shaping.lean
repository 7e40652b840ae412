import NormalForms.Grammar.Chomsky

namespace NormalForms

/-- A grammar while it is being shaped, with the wrappers made so far and the number of links. -/
structure Shaping where
  grammar : Grammar
  wrappers : List (String × String)
  count : Nat

namespace Shaping

def wrapper (s : Shaping) (a : String) : String × Shaping :=
  match s.wrappers.lookup a with
  | some name => (name, s)
  | none =>
    let name := s.grammar.freshName ("T_" ++ a)
    let grammar := (s.grammar.addNonTerminal name).addProduction name [.terminal a]
    (name, { s with grammar, wrappers := s.wrappers ++ [(a, name)] })

def link (s : Shaping) (left : String) : String × Shaping :=
  let name := s.grammar.freshName (left ++ "_" ++ toString (s.count + 1))
  (name, { s with grammar := s.grammar.addNonTerminal name, count := s.count + 1 })

def addProduction (s : Shaping) (left : String) (p : Production) : Shaping :=
  { s with grammar := s.grammar.addProduction left p }

def wrap (s : Shaping) : Production → Production × Shaping
  | [] => ([], s)
  | .terminal a :: p =>
    let (name, s) := s.wrapper a
    let (p, s) := s.wrap p
    (.nonTerminal name :: p, s)
  | x :: p =>
    let (p, s) := s.wrap p
    (x :: p, s)

/-- Gives a long production to the current name pair by pair, each pair being the next symbol and the next link. -/
def fold (s : Shaping) (left current : String) : Production → Shaping
  | x :: y :: z :: p =>
    let (next, s) := s.link left
    (s.addProduction current [x, .nonTerminal next]).fold left next (y :: z :: p)
  | p => s.addProduction current p

def place (s : Shaping) (left : String) (p : Production) : Shaping :=
  if p.length < 2 then s.addProduction left p
  else
    let (p, s) := s.wrap p
    s.fold left left p

def redo (s : Shaping) (left : String) : Shaping :=
  let cleared := { s with grammar := s.grammar.modify left fun _ => [] }
  (s.grammar.productions left).foldl (fun s p => s.place left p) cleared

def run (g : Grammar) : Grammar :=
  (g.nonTerminals.foldl redo ⟨g, [], 0⟩).grammar

end Shaping

end NormalForms
