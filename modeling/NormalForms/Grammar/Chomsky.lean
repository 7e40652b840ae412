import NormalForms.Grammar.Eliminations

namespace NormalForms

/-- A non-terminal that shaping adds: a wrapper stands for a terminal, and a link for the end of an alternative of
`left`, that is of the alternative with the given number. -/
inductive Helper where
  | wrapper (terminal : String)
  | link (left : String) (number : Nat) (rest : Production)
deriving DecidableEq

namespace Helper

def links (left : String) (number : Nat) : Production → List Helper
  | _ :: y :: z :: p => link left number (y :: z :: p) :: links left number (y :: z :: p)
  | _ => []

def needed (left : String) (number : Nat) (p : Production) : List Helper :=
  if p.length < 2 then [] else (Production.terminals p).map wrapper ++ links left number p

def ofRule (r : Rule) : List Helper :=
  r.alternatives.zipIdx.flatMap fun (p, number) => needed r.left number p

/-- Names the helpers one after the other; links are numbered through all rules. -/
def naming (taken : List String) (count : Nat) : List Helper → List (Helper × String)
  | [] => []
  | wrapper a :: helpers =>
    let name := primed taken ("T_" ++ a)
    (wrapper a, name) :: naming (name :: taken) count helpers
  | link left number rest :: helpers =>
    let name := primed taken (left ++ "_" ++ toString (count + 1))
    (link left number rest, name) :: naming (name :: taken) (count + 1) helpers

variable (name : Helper → String)

def wrapped : Symbol → Symbol
  | .terminal a => .nonTerminal (name (wrapper a))
  | s => s

def shaped (left : String) (number : Nat) : Production → Production
  | [] => []
  | [s] => [s]
  | [x, y] => [wrapped name x, wrapped name y]
  | x :: y :: z :: p => [wrapped name x, .nonTerminal (name (link left number (y :: z :: p)))]

def shapedRule (r : Rule) : Rule :=
  ⟨r.left, r.alternatives.zipIdx.map fun (p, number) => shaped name r.left number p⟩

def rule (h : Helper) : Rule :=
  match h with
  | wrapper a => ⟨name h, [[.terminal a]]⟩
  | link left number rest => ⟨name h, [shaped name left number rest]⟩

end Helper

namespace Grammar

variable (g : Grammar)

def helpers : List Helper :=
  (g.rules.flatMap Helper.ofRule).eraseDups

def helperNames : List (Helper × String) :=
  Helper.naming g.takenNames 0 g.helpers

/-- Makes every alternative a single symbol or a pair of non-terminals, with wrappers for the terminals of the longer
ones and with chains of links for those of three symbols or more. -/
def shape : Grammar :=
  let names := g.helperNames
  let name h := (names.lookup h).getD ""
  { g with rules := g.rules.map (Helper.shapedRule name) ++ g.helpers.map (Helper.rule name) }

/-- Dropping the alternatives that derive nothing can leave symbols behind that are no longer accessible. -/
def toChomsky : Grammar :=
  g.eliminateEpsilon.eliminateRenaming.eliminateInaccessible.eliminateNonProductive.eliminateInaccessible.shape

def isChomsky : Bool :=
  g.rules.all fun r => r.alternatives.all fun
    | [.terminal _] => true
    | [.nonTerminal _, .nonTerminal _] => true
    | [.epsilon] => r.left = g.start && !g.occursOnRight g.start
    | _ => false

end Grammar

end NormalForms
