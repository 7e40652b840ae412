import NormalForms.Symbol

namespace NormalForms

abbrev Production := List Symbol

structure Rule where
  left : String
  alternatives : List Production
deriving DecidableEq

/-- A context-free grammar. Every non-terminal has one rule, which may be without alternatives; the orders of the
terminals, of the rules and of the alternatives are the orders in which they are written. -/
structure Grammar where
  start : String
  terminals : List String
  rules : List Rule
deriving DecidableEq

def Production.nonTerminals (p : Production) : List String :=
  p.filterMap Symbol.nonTerminal?

def Production.terminals (p : Production) : List String :=
  p.filterMap Symbol.terminal?

def Production.isRenaming : Production → Bool
  | [.nonTerminal _] => true
  | _ => false

def mergeRules (lefts : List String) (rules : List Rule) : List Rule :=
  lefts.map fun left => ⟨left, ((rules.filter (·.left = left)).flatMap (·.alternatives)).eraseDups⟩

/-- The name with as many primes behind it as it takes to leave the taken names. Every prime rules out one taken name
for good, as the later candidates are longer. -/
def primed (taken : List String) (name : String) : String :=
  if name ∈ taken then primed (taken.erase name) (name ++ "'") else name
termination_by taken.length
decreasing_by
  rename_i h
  have := List.length_pos_of_mem h
  rw [List.length_erase_of_mem h]
  omega

namespace Grammar

variable (g : Grammar)

def nonTerminals : List String :=
  g.rules.map (·.left)

def productions (name : String) : List Production :=
  ((g.rules.find? (·.left = name)).map (·.alternatives)).getD []

def occursOnRight (name : String) : Bool :=
  g.rules.any fun r => r.alternatives.any (Symbol.nonTerminal name ∈ ·)

def takenNames : List String :=
  epsilonNames ++ g.terminals ++ g.nonTerminals

def freshName (name : String) : String :=
  primed g.takenNames name

/-- One turn of the search for a fresh name. The search is over when the name is left as it is. -/
def addPrime (name : String) : String :=
  if name ∈ g.nonTerminals ∨ name ∈ g.terminals ∨ name ∈ epsilonNames then name ++ "'" else name

def addNonTerminal (name : String) : Grammar :=
  if name ∈ g.nonTerminals then g else { g with rules := g.rules ++ [⟨name, []⟩] }

def modify (left : String) (f : List Production → List Production) : Grammar :=
  { g with rules := g.rules.map fun r => if r.left = left then ⟨left, f r.alternatives⟩ else r }

def addProduction (left : String) (p : Production) : Grammar :=
  (g.addNonTerminal left).modify left fun alternatives =>
    if alternatives.contains p then alternatives else alternatives ++ [p]

/-- Equality up to the orders in which the terminals and the rules are written. -/
def SameAs (g h : Grammar) : Prop :=
  g.start = h.start ∧ g.terminals.Perm h.terminals ∧ g.rules.Perm h.rules

instance (g h : Grammar) : Decidable (g.SameAs h) :=
  inferInstanceAs (Decidable (_ ∧ _ ∧ _))

end Grammar

end NormalForms
