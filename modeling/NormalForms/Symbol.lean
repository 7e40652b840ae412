namespace NormalForms

open Std

/-- The names that are read as the empty string, and so never name a symbol. -/
def epsilonNames : List String := ["ε", "epsilon"]

inductive Symbol where
  | epsilon
  | terminal (name : String)
  | nonTerminal (name : String)
deriving DecidableEq, Inhabited

namespace Symbol

def name : Symbol → String
  | epsilon => "ε"
  | terminal a => a
  | nonTerminal a => a

def nonTerminal? : Symbol → Option String
  | nonTerminal a => some a
  | _ => none

def terminal? : Symbol → Option String
  | terminal a => some a
  | _ => none

def rank : Symbol → Nat
  | epsilon => 0
  | terminal _ => 1
  | nonTerminal _ => 2

instance : Ord Symbol where
  compare := compareLex (compareOn rank) (compareOn name)

instance : TransOrd Symbol :=
  inferInstanceAs (TransCmp (compareLex (compareOn rank) (compareOn name)))

theorem eq_of_rank_of_name {s t : Symbol} (hr : s.rank = t.rank) (hn : s.name = t.name) : s = t := by
  cases s <;> cases t <;> simp_all [rank, name]

instance : LawfulEqOrd Symbol where
  eq_of_compare {s t} h := by
    obtain ⟨hr, hn⟩ := compareLex_eq_eq.1 h
    exact eq_of_rank_of_name (LawfulEqOrd.eq_of_compare hr) (LawfulEqOrd.eq_of_compare hn)

@[simp] theorem terminal?_eq_some {s : Symbol} {a : String} : s.terminal? = some a ↔ s = terminal a := by
  cases s <;> simp [terminal?]

@[simp] theorem nonTerminal?_eq_some {s : Symbol} {a : String} : s.nonTerminal? = some a ↔ s = nonTerminal a := by
  cases s <;> simp [nonTerminal?]

end Symbol

end NormalForms
