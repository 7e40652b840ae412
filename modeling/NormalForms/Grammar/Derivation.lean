import NormalForms.Grammar.Basic

namespace NormalForms

/-- What a production puts in the place of its left side; the empty string leaves nothing there. -/
def Production.yield (p : Production) : List Symbol :=
  p.filter (· ≠ .epsilon)

namespace Grammar

variable (g : Grammar)

inductive Step : List Symbol → List Symbol → Prop
  | replace (u v : List Symbol) {left : String} {p : Production} :
      p ∈ g.productions left → Step (u ++ .nonTerminal left :: v) (u ++ p.yield ++ v)

inductive DerivesIn : Nat → List Symbol → List Symbol → Prop
  | refl (u : List Symbol) : DerivesIn 0 u u
  | step {n : Nat} {u v w : List Symbol} : g.Step u v → DerivesIn n v w → DerivesIn (n + 1) u w

def Derives (u v : List Symbol) : Prop :=
  ∃ n, g.DerivesIn n u v

def Generates (name : String) (word : List String) : Prop :=
  g.Derives [.nonTerminal name] (word.map .terminal)

end Grammar

end NormalForms
