import NormalForms.Proofs.Productions

namespace NormalForms.Grammar

variable {g : Grammar}

/-- A grammar without repeated names is told by what it says about each of them. -/
theorem eq_of_productions {h : Grammar} (hn : g.nonTerminals.Nodup) (hs : g.start = h.start)
    (ht : g.terminals = h.terminals) (hnames : g.nonTerminals = h.nonTerminals)
    (hp : ∀ a ∈ g.nonTerminals, g.productions a = h.productions a) : g = h := by
  have hrules : ∀ {k : Grammar}, k.nonTerminals.Nodup →
      k.rules = k.nonTerminals.map fun a => ⟨a, k.productions a⟩ := by
    intro k hk
    rw [nonTerminals, List.map_map]
    exact (List.map_id' _).symm.trans (List.map_congr_left fun r hr => by simp [productions_left hk hr])
  have he : g.rules = h.rules := by
    rw [hrules hn, hrules (hnames ▸ hn), ← hnames]
    exact List.map_congr_left fun a ha => by rw [hp a ha]
  cases g
  cases h
  simp only at hs ht he
  rw [hs, ht, he]

theorem addNonTerminal_of_mem {name : String} (h : name ∈ g.nonTerminals) : g.addNonTerminal name = g :=
  if_pos h

@[simp] theorem addNonTerminal_start (name : String) : (g.addNonTerminal name).start = g.start := by
  unfold addNonTerminal
  split <;> rfl

@[simp] theorem addNonTerminal_terminals (name : String) : (g.addNonTerminal name).terminals = g.terminals := by
  unfold addNonTerminal
  split <;> rfl

theorem addNonTerminal_nonTerminals {name : String} (h : name ∉ g.nonTerminals) :
    (g.addNonTerminal name).nonTerminals = g.nonTerminals ++ [name] := by
  rw [addNonTerminal, if_neg h, nonTerminals, List.map_append]
  rfl

@[simp] theorem addNonTerminal_productions (name a : String) :
    (g.addNonTerminal name).productions a = g.productions a := by
  by_cases h : name ∈ g.nonTerminals
  · rw [addNonTerminal_of_mem h]
  · rw [addNonTerminal, if_neg h, productions, List.find?_append]
    cases hf : g.rules.find? (·.left = a) with
    | some r => simp [productions, hf]
    | none =>
        by_cases ha : name = a
        · simp [productions, hf, ha]
        · simp [productions, hf, ha]

@[simp] theorem modify_start (left : String) (f : List Production → List Production) :
    (g.modify left f).start = g.start :=
  rfl

@[simp] theorem modify_terminals (left : String) (f : List Production → List Production) :
    (g.modify left f).terminals = g.terminals :=
  rfl

theorem find?_modify (left a : String) (f : List Production → List Production) :
    (g.modify left f).rules.find? (·.left = a) =
      (g.rules.find? (·.left = a)).map fun r => if r.left = left then ⟨left, f r.alternatives⟩ else r := by
  rw [modify, List.find?_map]
  congr 2
  funext r
  by_cases h : r.left = left
  · simp [h]
  · simp [h]

@[simp] theorem modify_nonTerminals (left : String) (f : List Production → List Production) :
    (g.modify left f).nonTerminals = g.nonTerminals := by
  rw [nonTerminals, modify, List.map_map]
  refine List.map_congr_left fun r _ => ?_
  by_cases h : r.left = left
  · simp [h]
  · simp [h]

theorem modify_productions_of_ne {left a : String} (h : a ≠ left) (f : List Production → List Production) :
    (g.modify left f).productions a = g.productions a := by
  rw [productions, find?_modify, productions]
  cases hf : g.rules.find? (·.left = a) with
  | none => rfl
  | some r =>
      have hl := List.find?_some hf
      simp only [decide_eq_true_eq] at hl
      simp [hl, h]

theorem modify_productions_self {left : String} (h : left ∈ g.nonTerminals)
    (f : List Production → List Production) : (g.modify left f).productions left = f (g.productions left) := by
  rw [productions, find?_modify, productions]
  cases hf : g.rules.find? (·.left = left) with
  | none =>
      obtain ⟨r, hr, hl⟩ := mem_nonTerminals.1 h
      exact absurd (decide_eq_true hl) (List.find?_eq_none.1 hf r hr)
  | some r =>
      have hl := List.find?_some hf
      simp only [decide_eq_true_eq] at hl
      simp [hl]

@[simp] theorem addProduction_start (left : String) (p : Production) : (g.addProduction left p).start = g.start := by
  simp [addProduction]

@[simp] theorem addProduction_terminals (left : String) (p : Production) :
    (g.addProduction left p).terminals = g.terminals := by
  simp [addProduction]

theorem addProduction_nonTerminals {left : String} (h : left ∈ g.nonTerminals) (p : Production) :
    (g.addProduction left p).nonTerminals = g.nonTerminals := by
  simp [addProduction, addNonTerminal_of_mem h]

theorem addProduction_productions_of_ne {left a : String} (h : a ≠ left) (p : Production) :
    (g.addProduction left p).productions a = g.productions a := by
  simp [addProduction, modify_productions_of_ne h]

theorem addProduction_productions_self {left : String} (h : left ∈ g.nonTerminals) {p : Production}
    (hp : p ∉ g.productions left) : (g.addProduction left p).productions left = g.productions left ++ [p] := by
  rw [addProduction, addNonTerminal_of_mem h, modify_productions_self h, if_neg (by simpa using hp)]

theorem addProduction_of_mem {left : String} (h : left ∈ g.nonTerminals) {p : Production}
    (hp : p ∈ g.productions left) : (g.addProduction left p).productions left = g.productions left := by
  rw [addProduction, addNonTerminal_of_mem h, modify_productions_self h, if_pos (by simpa using hp)]

end NormalForms.Grammar
