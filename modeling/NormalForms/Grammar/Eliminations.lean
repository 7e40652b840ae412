import NormalForms.Grammar.Saturation
import NormalForms.Reach

namespace NormalForms

/-- All ways to leave out some of the given non-terminals, the production itself first. -/
def Production.deletions (nullable : List String) : Production → List Production
  | [] => [[]]
  | s :: p =>
    let rest := deletions nullable p
    if s.nonTerminal?.any (· ∈ nullable) then rest.flatMap fun q => [s :: q, q] else rest.map (s :: ·)

def Rule.withoutEpsilon (nullable : List String) (keeps : Bool) (r : Rule) : Rule :=
  let kept := r.alternatives.flatMap fun p =>
    if p = [.epsilon] then (if keeps then [p] else []) else (Production.deletions nullable p).filter (· ≠ [])
  ⟨r.left, (kept ++ if keeps then [[Symbol.epsilon]] else []).eraseDups⟩

/-- Takes the empty word from every non-terminal but the start symbol, which keeps it if no production refers to it.
Otherwise a fresh start symbol is put before it. -/
def Grammar.eliminateEpsilon (g : Grammar) : Grammar :=
  let nullable := g.nullable
  let keeps := g.start ∈ nullable ∧ ¬ g.occursOnRight g.start
  let rules := g.rules.map fun r => r.withoutEpsilon nullable (keeps ∧ r.left = g.start)
  if g.start ∈ nullable ∧ ¬ keeps then
    let start := g.freshName g.start
    { g with start, rules := ⟨start, [[.nonTerminal g.start], [.epsilon]]⟩ :: rules }
  else { g with rules }

def keep (kept : List Production) (p : Production) : List Production :=
  if kept.contains p then kept else kept ++ [p]

namespace Production

variable (nullable : List String)

/-- Goes on with a symbol of a production in all versions of what stands before it. A symbol that may be left out
doubles them: those with it come first. -/
def extend (versions : List Production) (s : Symbol) : List Production :=
  let extended := versions.map (· ++ [s])
  if s.nonTerminal?.any (· ∈ nullable) then extended ++ versions else extended

def versions (p : Production) : List Production :=
  p.foldl (extend nullable) [[]]

def putBack (keeps : Bool) (kept : List Production) (p : Production) : List Production :=
  if p = [.epsilon] then if keeps then keep kept p else kept
  else (versions nullable p).foldl (fun kept q => if q = [] then kept else keep kept q) kept

end Production

def Rule.refilled (nullable : List String) (keeps : Bool) (r : Rule) : Rule :=
  ⟨r.left, r.alternatives.foldl (Production.putBack nullable keeps) []⟩

namespace Grammar

variable (g : Grammar)

def refilled : Grammar :=
  let keeps := g.start ∈ g.nullable ∧ ¬ g.occursOnRight g.start
  { g with rules := g.rules.map fun r => r.refilled g.nullable (keeps ∧ r.left = g.start) }

def refill : Grammar :=
  let h := g.refilled
  if g.start ∈ g.nullable ∧ ¬ g.occursOnRight g.start then h.addProduction h.start [.epsilon]
  else if h.start ∈ g.nullable then
    let start := h.freshName h.start
    { h with start, rules := ⟨start, [[.nonTerminal h.start], [.epsilon]]⟩ :: h.rules }
  else h

def renamings : List (String × String) :=
  g.rules.flatMap fun r =>
    (r.alternatives.filter Production.isRenaming).flatMap fun p => (Production.nonTerminals p).map (r.left, ·)

def unitClosure (name : String) : List String :=
  reach g.renamings [name]

def withoutRenamingsIn (r : Rule) : Rule :=
  let proper := fun name => (g.productions name).filter (!Production.isRenaming ·)
  ⟨r.left, ((g.unitClosure r.left).flatMap proper).eraseDups⟩

def eliminateRenaming : Grammar :=
  { g with rules := g.rules.map g.withoutRenamingsIn }

end Grammar

/-- How far the search along the renamings has come: the names found so far in the order of discovery, and the queue of
those that are still to be looked at. -/
structure RenamingSearch where
  visited : List String
  queue : List String
deriving DecidableEq

namespace RenamingSearch

def opening (name : String) : RenamingSearch :=
  ⟨[name], [name]⟩

def visit (s : RenamingSearch) : Production → RenamingSearch
  | [.nonTerminal name] => if name ∈ s.visited then s else ⟨s.visited ++ [name], s.queue ++ [name]⟩
  | _ => s

end RenamingSearch

def Grammar.follow (g : Grammar) (s : RenamingSearch) : RenamingSearch :=
  match s.queue with
  | [] => s
  | name :: queue => (g.productions name).foldl RenamingSearch.visit { s with queue }

namespace Grammar

variable (g : Grammar)

def references : List (String × String) :=
  g.rules.flatMap fun r => r.alternatives.flatMap fun p => (Production.nonTerminals p).map (r.left, ·)

def accessible : List String :=
  reach g.references [g.start]

def eliminateInaccessible : Grammar :=
  let accessible := g.accessible
  { g with rules := g.rules.filter (·.left ∈ accessible) }

def eliminateNonProductive : Grammar :=
  let productive := g.productive
  let kept := g.rules.filter fun r => r.left ∈ productive ∨ r.left = g.start
  let usable := fun p => (Production.nonTerminals p).all (· ∈ productive)
  { g with rules := kept.map fun r => ⟨r.left, r.alternatives.filter usable⟩ }

end Grammar

end NormalForms
