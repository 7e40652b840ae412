import NormalForms.Grammar.Basic

namespace NormalForms

variable (base : Symbol → Bool)

def Rule.isCovered (found : List String) (r : Rule) : Bool :=
  r.alternatives.any fun p => p.all fun s => base s || s.nonTerminal?.any (· ∈ found)

/-- One pass over the rules, which makes use of what it finds at once: all that is found, and the rules left over. -/
def sweep (found : List String) : List Rule → List String × List Rule
  | [] => (found, [])
  | r :: rules =>
    if r.isCovered base found then sweep (found ++ [r.left]) rules
    else
      let (found, waiting) := sweep found rules
      (found, r :: waiting)

def saturate (found : List String) (rules : List Rule) : List String :=
  let (found, waiting) := sweep base found rules
  if waiting.length < rules.length then saturate found waiting else found
termination_by rules.length

namespace Grammar

/-- The non-terminals from which the empty word can be derived. -/
def nullable (g : Grammar) : List String :=
  saturate (· = .epsilon) [] g.rules

/-- The non-terminals from which some word can be derived. -/
def productive (g : Grammar) : List String :=
  saturate (·.nonTerminal? = none) [] g.rules

end Grammar

/-- How far the passes over the rules have come: the names found so far, and whether the last pass has found any. -/
structure Rounds where
  found : List String
  changed : Bool
deriving DecidableEq

namespace Rounds

def look (s : Rounds) (r : Rule) : Rounds :=
  if r.left ∈ s.found then s
  else if r.isCovered base s.found then ⟨s.found ++ [r.left], true⟩
  else s

def round (rules : List Rule) (s : Rounds) : Rounds :=
  if s.changed then rules.foldl (look base) { s with changed := false } else s

end Rounds

end NormalForms
