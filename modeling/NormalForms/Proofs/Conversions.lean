import NormalForms.Proofs.Built
import NormalForms.Proofs.StateAutomaton

namespace NormalForms.Automaton

variable {fa : Automaton}

/-- However an automaton is obtained, its parts fit together, and its description gives it back as it is. -/
theorem built_description_round_trip (h : fa.Built) : fa.Valid ∧ ofDescription fa.description = .ok fa :=
  ⟨h.valid, h.valid.ofDescription_description⟩

def circling : Automaton where
  states := .ofList ["p", "q", "r"]
  alphabet := .ofList ["a", "b"]
  transitions := .ofList [⟨⟨"p", .empty⟩, "q"⟩, ⟨⟨"q", .empty⟩, "p"⟩, ⟨⟨"q", .letter "a"⟩, "r"⟩]
  rows := .ofList [⟨"p", .empty⟩, ⟨"q", .empty⟩, ⟨"q", .letter "a"⟩, ⟨"r", .letter "b"⟩]
  initial := "p"
  finals := .ofList ["r"]

theorem circling_built : circling.Built := by
  let d : Description :=
    ⟨["p", "q", "r"], ["b", "a"], [⟨"r", "b", []⟩, ⟨"q", "a", ["r"]⟩, ⟨"q", "ε", ["p"]⟩, ⟨"p", "", ["q"]⟩], "p", ["r"]⟩
  have h : ofDescription d = .ok circling := by rfl
  exact .ofDescription h

theorem circling_description_round_trip : circling.Built ∧ ⟨"r", "b", []⟩ ∈ circling.description.transitions ∧
    ofDescription circling.description = .ok circling ∧
    ofDescription circling.determinize.description = .ok circling.determinize :=
  ⟨circling_built, by decide +kernel, (built_description_round_trip circling_built).2,
    (built_description_round_trip (.determinize circling_built)).2⟩

/-- An automaton has a grammar unless the name of a state cannot be declared as a non-terminal beside its letters, and
the grammar generates the words that the automaton accepts. -/
theorem toGrammar_correct (h : fa.Built) :
    ((∃ g, fa.toGrammar = .ok g) ↔ ∀ q ∈ fa.states, q ∉ fa.alphabet ∧ q ≠ "" ∧ q ∉ epsilonNames) ∧
      ∀ g, fa.toGrammar = .ok g → ∀ word, g.Generates g.start word ↔ fa.accepts word = true := by
  have hv := h.valid
  constructor
  · simp only [toGrammar_eq_ok, hv.stateGrammar_fault?_eq_none, isDeclarable_iff]
    constructor
    · rintro ⟨g, -, hq, -⟩
      exact hq
    · intro hq
      exact ⟨fa.stateGrammar, fun q hm => (hq q hm).1, hq, rfl⟩
  · intro g hg word
    obtain ⟨-, -, rfl⟩ := toGrammar_eq_ok.1 hg
    rw [Grammar.generates_iff_yields, hv.accepts_iff]
    exact hv.stateGrammar_yields_iff

theorem circling_toGrammar_correct : circling.Built ∧ circling.toGrammar = .ok circling.stateGrammar ∧
    (∀ q ∈ circling.states, q ∉ circling.alphabet ∧ q ≠ "" ∧ q ∉ epsilonNames) ∧
    circling.stateGrammar.Generates "p" ["a"] ∧ ¬ circling.stateGrammar.Generates "p" [] := by
  obtain ⟨hok, hwords⟩ := toGrammar_correct circling_built
  have hg : circling.toGrammar = .ok circling.stateGrammar := by rfl
  have ha : circling.accepts ["a"] = true := by decide +kernel
  have hn : ¬ circling.accepts [] = true := by decide +kernel
  exact ⟨circling_built, hg, hok.1 ⟨_, hg⟩, (hwords _ hg ["a"]).2 ha, mt (hwords _ hg []).1 hn⟩

end NormalForms.Automaton

namespace NormalForms.Grammar

variable {g : Grammar}

/-- A grammar has an automaton if all of its productions are right-linear, and otherwise the first non-terminal with
another production is at fault. The automaton accepts the words that the grammar generates. -/
theorem toAutomaton_correct (hg : g.WellFormed) :
    ((∃ fa, g.toAutomaton = .ok fa) ↔ ∀ r ∈ g.rules, ∀ p ∈ r.alternatives, p.RightLinear) ∧
      (∀ e, g.toAutomaton = .error e ↔ ∃ before r after, g.rules = before ++ r :: after ∧
        (∀ s ∈ before, ∀ p ∈ s.alternatives, p.RightLinear) ∧ (∃ p ∈ r.alternatives, ¬ p.RightLinear) ∧
          e = .grammar .notRightLinear r.left) ∧
      ∀ fa, g.toAutomaton = .ok fa → ∀ word, fa.accepts word = true ↔ g.Generates g.start word := by
  refine ⟨exists_toAutomaton_eq_ok, fun _ => toAutomaton_eq_error, fun fa hfa word => ?_⟩
  have hr := exists_toAutomaton_eq_ok.1 ⟨fa, hfa⟩
  obtain ⟨-, rfl⟩ := toAutomaton_eq_ok.1 hfa
  rw [generates_iff_yields]
  exact hg.moveAutomaton_accepts_iff hr

/-- A right-linear grammar with renamings in a circle, where the names of an accepting state are taken by symbols. -/
def finishing : Grammar :=
  ⟨"final", ["a", "final'"], [⟨"final", [[.terminal "a"], [.terminal "final'", .nonTerminal "S"], [.nonTerminal "S"]]⟩,
    ⟨"S", [[.nonTerminal "final"]]⟩]⟩

theorem finishing_built : finishing.Built := by
  have h : declare ["final", "S"] ["a", "final'"] [("final", ["a", "final' S", "S"]), ("S", ["final"])] none =
      .ok finishing := by rfl
  exact .declare h

def turning : Grammar :=
  ⟨"S", ["a"], [⟨"S", [[.terminal "a", .nonTerminal "A"]]⟩,
    ⟨"A", [[.terminal "a"], [.nonTerminal "B", .terminal "a"]]⟩, ⟨"B", [[.nonTerminal "S", .nonTerminal "S"]]⟩]⟩

theorem turning_built : turning.Built := by
  have h : declare ["S", "A", "B"] ["a"] [("S", ["aA"]), ("A", ["a", "Ba"]), ("B", ["SS"])] none = .ok turning := by rfl
  exact .declare h

theorem finishing_toAutomaton_correct : finishing.WellFormed ∧ turning.WellFormed ∧
    (∃ fa, finishing.toAutomaton = .ok fa ∧ "final''" ∈ fa.finals) ∧ finishing.Generates "final" ["final'", "a"] ∧
    ¬ finishing.Generates "final" ["final'"] ∧ turning.toAutomaton = .error (.grammar .notRightLinear "A") := by
  have hf := finishing_built.wellFormed
  have ht := turning_built.wellFormed
  obtain ⟨-, -, hwords⟩ := toAutomaton_correct hf
  obtain ⟨-, hfault, -⟩ := toAutomaton_correct ht
  have hfa : finishing.toAutomaton = .ok finishing.moveAutomaton := by rfl
  have ha : finishing.moveAutomaton.accepts ["final'", "a"] = true := by decide +kernel
  have hn : ¬ finishing.moveAutomaton.accepts ["final'"] = true := by decide +kernel
  refine ⟨hf, ht, ⟨_, hfa, by decide +kernel⟩, (hwords _ hfa _).1 ha, mt (hwords _ hfa _).2 hn, ?_⟩
  refine (hfault _).2 ⟨[turning.rules[0]], turning.rules[1], [turning.rules[2]], rfl, ?_, ?_, rfl⟩
  · simp only [← Production.isRightLinear_iff]
    decide
  · simp only [← Production.isRightLinear_iff]
    decide

end NormalForms.Grammar

namespace NormalForms.Automaton

/-- Made into a grammar and back, an automaton stays as it is but for the rows that lead nowhere, and what comes from a
grammar stays as it is in all parts. -/
theorem toGrammar_round_trip :
    (∀ fa : Automaton, fa.Built → ∀ g, fa.toGrammar = .ok g → g.toAutomaton = .ok fa.withoutIdleRows ∧
      ((∀ d ∈ fa.rows, fa.targets d ≠ ∅) → g.toAutomaton = .ok fa)) ∧
    ∀ (g : Grammar) (fa : Automaton), g.WellFormed → g.toAutomaton = .ok fa →
      ∃ h, fa.toGrammar = .ok h ∧ h.toAutomaton = .ok fa := by
  constructor
  · intro fa hb g hg
    obtain ⟨-, -, rfl⟩ := toGrammar_eq_ok.1 hg
    have hback := hb.valid.toAutomaton_stateGrammar
    refine ⟨hback, fun hrows => ?_⟩
    rwa [withoutIdleRows_eq_self hrows] at hback
  · intro g fa hg hfa
    obtain ⟨-, rfl⟩ := Grammar.toAutomaton_eq_ok.1 hfa
    have hback := hg.moveAutomaton_valid.toAutomaton_stateGrammar
    rw [g.moveAutomaton_withoutIdleRows] at hback
    exact ⟨_, hg.toGrammar_moveAutomaton, hback⟩

theorem circling_toGrammar_round_trip : circling.Built ∧ Grammar.finishing.WellFormed ∧
    circling.stateGrammar.toAutomaton = .ok circling.withoutIdleRows ∧ ⟨"r", .letter "b"⟩ ∈ circling.rows ∧
    ⟨"r", .letter "b"⟩ ∉ circling.withoutIdleRows.rows ∧
    ∃ h, Grammar.finishing.moveAutomaton.toGrammar = .ok h ∧ h.toAutomaton = .ok Grammar.finishing.moveAutomaton := by
  obtain ⟨hautomata, hgrammars⟩ := toGrammar_round_trip
  have hg : circling.toGrammar = .ok circling.stateGrammar := by rfl
  have hf := Grammar.finishing_built.wellFormed
  exact ⟨circling_built, hf, (hautomata _ circling_built _ hg).1, by decide +kernel, by decide +kernel,
    hgrammars _ _ hf rfl⟩

end NormalForms.Automaton
