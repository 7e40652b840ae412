import NormalForms.Proofs.Fresh
import NormalForms.Proofs.RightLinear
import NormalForms.Proofs.Simulation
import NormalForms.Proofs.StateGrammar

namespace NormalForms

namespace Production

def RightLinear (p : Production) : Prop :=
  p = [.epsilon] ∨ (∃ a, p = [.terminal a]) ∨ (∃ b, p = [.nonTerminal b]) ∨ ∃ a b, p = [.terminal a, .nonTerminal b]

theorem isRightLinear_iff {p : Production} : p.isRightLinear = true ↔ p.RightLinear := by
  unfold isRightLinear RightLinear
  split <;> simp_all

theorem exists_transition? {p : Production} (h : p.RightLinear) (hne : p ≠ [.epsilon]) (accepting left : String) :
    ∃ t, p.transition? accepting left = some t := by
  rcases h with rfl | ⟨a, rfl⟩ | ⟨b, rfl⟩ | ⟨a, b, rfl⟩
  · exact absurd rfl hne
  all_goals exact ⟨_, rfl⟩

def ofState (accepting q : String) : Production :=
  if q = accepting then [] else [.nonTerminal q]

theorem ofState_of_ne {accepting q : String} (h : q ≠ accepting) : ofState accepting q = [.nonTerminal q] :=
  if_neg h

theorem ofState_self (accepting : String) : ofState accepting accepting = [] :=
  if_pos rfl

theorem eq_of_transition? {accepting left : String} {p : Production} {t : Transition}
    (h : p.transition? accepting left = some t) (hp : .nonTerminal accepting ∉ p) :
    p = t.label.word.map Symbol.terminal ++ ofState accepting t.target := by
  unfold transition? at h
  split at h <;> cases h <;> simp_all [ofState, Label.word, eq_comm]

end Production

namespace Grammar

variable {g : Grammar} {fa : Automaton}

theorem exists_toAutomaton_eq_ok :
    (∃ fa, g.toAutomaton = .ok fa) ↔ ∀ r ∈ g.rules, ∀ p ∈ r.alternatives, p.RightLinear := by
  simp only [toAutomaton_eq_ok, Production.isRightLinear_iff]
  constructor
  · rintro ⟨fa, h, -⟩
    exact h
  · intro h
    exact ⟨g.moveAutomaton, h, rfl⟩

/-- The fault of a grammar without automaton is that of the first rule with an alternative of another shape. -/
theorem toAutomaton_eq_error {e : Error} :
    g.toAutomaton = .error e ↔ ∃ before r after, g.rules = before ++ r :: after ∧
      (∀ s ∈ before, ∀ p ∈ s.alternatives, p.RightLinear) ∧ (∃ p ∈ r.alternatives, ¬ p.RightLinear) ∧
        e = .grammar .notRightLinear r.left := by
  have hfirst (r : Rule) : (g.rules.find? fun r => !r.alternatives.all Production.isRightLinear) = some r ↔
      (∃ p ∈ r.alternatives, ¬ p.RightLinear) ∧ ∃ before after, g.rules = before ++ r :: after ∧
        ∀ s ∈ before, ∀ p ∈ s.alternatives, p.RightLinear := by
    simp [List.find?_eq_some_iff_append, ← Production.isRightLinear_iff]
  have hfault : g.toAutomaton = .error e ↔
      ∃ r, (g.rules.find? fun r => !r.alternatives.all Production.isRightLinear) = some r ∧
        e = .grammar .notRightLinear r.left := by
    rw [toAutomaton]
    cases g.rules.find? fun r => !r.alternatives.all Production.isRightLinear with
    | none => simp
    | some r =>
        simp only [Except.error.injEq, Option.some.injEq, exists_eq_left']
        exact eq_comm
  simp only [hfault, hfirst]
  constructor
  · rintro ⟨r, ⟨hbad, before, after, hg, hgood⟩, he⟩
    exact ⟨before, r, after, hg, hgood, hbad, he⟩
  · rintro ⟨before, r, after, hg, hgood, hbad, he⟩
    exact ⟨r, ⟨hbad, before, after, hg, hgood⟩, he⟩

theorem freshName_not_mem_of_mem_productions (hg : g.WellFormed) {left : String} {p : Production}
    (hp : p ∈ g.productions left) (name : String) : .nonTerminal (g.freshName name) ∉ p :=
  fun hm => (freshName_not_mem g name).2.2 ((hg.admits hp).nonTerminal_mem _ hm)

/-- The transitions of the automaton are the productions, but for those that are the empty string. -/
theorem WellFormed.exists_production (hg : g.WellFormed) {t : Transition} (ht : t ∈ g.moveAutomaton.transitions) :
    t.label.word.map Symbol.terminal ++ Production.ofState (g.freshName "final") t.target ∈ g.productions t.source := by
  obtain ⟨r, hr, p, hp, ht⟩ := mem_moveAutomaton_transitions.1 ht
  have hp := mem_productions_left hg.nonTerminals_nodup hr hp
  rw [← Production.eq_of_transition? ht (freshName_not_mem_of_mem_productions hg hp "final"),
    (transition?_eq_some ht).1]
  exact hp

theorem WellFormed.exists_transition (hg : g.WellFormed) {left : String} {p : Production}
    (hp : p ∈ g.productions left) (hr : p.RightLinear) (hne : p ≠ [.epsilon]) :
    ∃ t ∈ g.moveAutomaton.transitions, t.source = left ∧
      p = t.label.word.map Symbol.terminal ++ Production.ofState (g.freshName "final") t.target := by
  obtain ⟨t, ht⟩ := Production.exists_transition? hr hne (g.freshName "final") left
  obtain ⟨r, hm, rfl, hp'⟩ := exists_of_mem_productions hp
  refine ⟨t, mem_moveAutomaton_transitions.2 ⟨r, hm, p, hp', ht⟩, (transition?_eq_some ht).1, ?_⟩
  exact Production.eq_of_transition? ht (freshName_not_mem_of_mem_productions hg hp "final")

theorem flatMap_production (accepting : String) (t : Transition) :
    t.production.flatMap (Symbol.substitute (Production.ofState accepting)) =
      t.label.word.map Symbol.terminal ++ Production.ofState accepting t.target := by
  rw [Transition.production_eq, List.flatMap_append, List.flatMap_map]
  simp [Symbol.substitute, ← List.map_eq_flatMap]

/-- In the words of the states, the accepting state stands for nothing, and all other states for themselves. -/
theorem WellFormed.yields_of_moveAutomaton (hg : g.WellFormed) {u : List Symbol} {word : List String}
    (h : g.moveAutomaton.stateGrammar.Yields u word) :
    g.Yields (u.flatMap (Symbol.substitute (Production.ofState (g.freshName "final")))) word := by
  have hfresh : ∀ r ∈ g.rules, r.left ≠ g.freshName "final" := by
    rintro r hr he
    exact (freshName_not_mem g "final").2.2 (he ▸ left_mem_nonTerminals hr)
  refine h.substitute fun left p word hp hy => ?_
  rcases hg.moveAutomaton_valid.mem_stateGrammar_productions.1 hp with ⟨t, ht, rfl, rfl⟩ | ⟨hf, rfl⟩
  · obtain ⟨r, hr, hl, -⟩ := exists_of_mem_productions (hg.exists_production ht)
    rw [flatMap_production] at hy
    rw [Production.ofState_of_ne (hl ▸ hfresh r hr)]
    exact hy.of_mem_productions (hg.exists_production ht)
  · rcases mem_moveAutomaton_finals.1 hf with ⟨r, hr, he, rfl⟩ | ha
    · rw [Production.ofState_of_ne (hfresh r hr)]
      exact hy.of_mem_productions (mem_productions_left hg.nonTerminals_nodup hr he)
    · rw [(mem_accepting.1 ha).1, Production.ofState_self]
      exact yields_yield.2 hy

theorem freshName_mem_finals (h : g.freshName "final" ∈ g.moveAutomaton.states) :
    g.freshName "final" ∈ g.moveAutomaton.finals := by
  rcases mem_moveAutomaton_states.1 h with hn | ha
  · exact absurd hn (freshName_not_mem g "final").2.2
  · exact mem_moveAutomaton_finals.2 (.inr ha)

theorem WellFormed.moveAutomaton_yields_of_yields (hg : g.WellFormed)
    (hr : ∀ r ∈ g.rules, ∀ p ∈ r.alternatives, p.RightLinear) {u : List Symbol} {word : List String}
    (h : g.Yields u word) : g.moveAutomaton.stateGrammar.Yields u word := by
  have hv := hg.moveAutomaton_valid
  refine h.simulate fun left p word hp _ hy => ?_
  obtain ⟨r, hm, rfl, hp'⟩ := exists_of_mem_productions hp
  by_cases he : p = [.epsilon]
  · subst he
    have hf := mem_moveAutomaton_finals.2 (.inl ⟨r, hm, hp', rfl⟩)
    exact hy.of_mem_productions (hv.mem_stateGrammar_productions.2 (.inr ⟨hf, rfl⟩))
  · obtain ⟨t, ht, hl, rfl⟩ := hg.exists_transition hp (hr r hm p hp') he
    refine Yields.of_mem_productions (hv.mem_stateGrammar_productions.2 (.inl ⟨t, ht, hl, rfl⟩)) ?_
    rw [Transition.production_eq]
    by_cases htarget : t.target = g.freshName "final"
    · have hf := freshName_mem_finals (htarget ▸ hv.target_mem t ht)
      have hnil := yields_epsilon.of_mem_productions (hv.mem_stateGrammar_productions.2 (.inr ⟨hf, rfl⟩))
      rw [htarget]
      rw [htarget, Production.ofState_self] at hy
      simpa using hy.append hnil
    · rwa [Production.ofState_of_ne htarget] at hy

/-- The automaton of a right-linear grammar accepts the words that the grammar generates. -/
theorem WellFormed.moveAutomaton_accepts_iff (hg : g.WellFormed)
    (hr : ∀ r ∈ g.rules, ∀ p ∈ r.alternatives, p.RightLinear) {word : List String} :
    g.moveAutomaton.accepts word = true ↔ g.Yields [.nonTerminal g.start] word := by
  rw [hg.moveAutomaton_valid.accepts_iff, ← hg.moveAutomaton_valid.stateGrammar_yields_iff]
  constructor
  · intro h
    have hs := Production.ofState_of_ne (hg.freshName_ne_start "final").symm
    have hy := hg.yields_of_moveAutomaton h
    rw [List.flatMap_singleton] at hy
    exact hs ▸ hy
  · exact hg.moveAutomaton_yields_of_yields hr

end Grammar

end NormalForms
