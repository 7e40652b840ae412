import NormalForms.Proofs.Description
import NormalForms.Proofs.MoveAutomaton

namespace NormalForms

namespace Transition

theorem production_rightLinear (t : Transition) : t.production.RightLinear := by
  unfold production
  split
  · exact .inr (.inr (.inl ⟨_, rfl⟩))
  · exact .inr (.inr (.inr ⟨_, _, rfl⟩))

theorem production_isSingleTerminal (t : Transition) : t.production.isSingleTerminal = false := by
  unfold production
  split <;> rfl

theorem transition?_production (accepting : String) (t : Transition) :
    t.production.transition? accepting t.source = some t := by
  obtain ⟨⟨source, label⟩, target⟩ := t
  cases label <;> rfl

end Transition

namespace Automaton

variable {fa : Automaton}

def withoutIdleRows (fa : Automaton) : Automaton :=
  { fa with rows := .ofList (fa.rows.toList.filter (fa.targets · ≠ ∅)) }

theorem mem_withoutIdleRows_rows {d : Departure} :
    d ∈ fa.withoutIdleRows.rows ↔ d ∈ fa.rows ∧ fa.targets d ≠ ∅ := by
  simp [withoutIdleRows, OrderedSet.mem_toList]

theorem withoutIdleRows_eq_self (h : ∀ d ∈ fa.rows, fa.targets d ≠ ∅) : fa.withoutIdleRows = fa := by
  have hrows : fa.withoutIdleRows.rows = fa.rows := by
    apply OrderedSet.ext_mem
    intro d
    rw [mem_withoutIdleRows_rows, and_iff_left_of_imp (h d)]
  calc fa.withoutIdleRows = { fa with rows := fa.withoutIdleRows.rows } := rfl
    _ = fa := by rw [hrows]

theorem targets_ne_empty {d : Departure} : fa.targets d ≠ ∅ ↔ ∃ t ∈ fa.transitions, t.toDeparture = d := by
  constructor
  · intro h
    by_contra hn
    refine h (OrderedSet.ext_mem fun q => iff_of_false (fun hq => ?_) (OrderedSet.not_mem_empty q))
    exact hn ⟨_, mem_targets.1 hq, rfl⟩
  · rintro ⟨t, ht, rfl⟩
    exact OrderedSet.ne_empty_of_mem (mem_targets.2 ht)

theorem Valid.mem_withoutIdleRows_rows_iff (hv : fa.Valid) {d : Departure} :
    d ∈ fa.withoutIdleRows.rows ↔ ∃ t ∈ fa.transitions, t.toDeparture = d := by
  rw [mem_withoutIdleRows_rows, targets_ne_empty, and_iff_right_of_imp]
  rintro ⟨t, ht, rfl⟩
  exact hv.departure_mem t ht

theorem Valid.stateGrammar_cases (hv : fa.Valid) {r : Rule} (hr : r ∈ fa.stateGrammar.rules) {p : Production}
    (hp : p ∈ r.alternatives) :
    (∃ t ∈ fa.transitions, t.source = r.left ∧ t.production = p) ∨ r.left ∈ fa.finals ∧ p = [.epsilon] :=
  hv.mem_stateGrammar_productions.1 (Grammar.mem_productions_left stateGrammar_nodup hr hp)

theorem Valid.stateGrammar_rightLinear (hv : fa.Valid) :
    ∀ r ∈ fa.stateGrammar.rules, ∀ p ∈ r.alternatives, p.RightLinear := by
  intro r hr p hp
  rcases hv.stateGrammar_cases hr hp with ⟨t, -, -, rfl⟩ | ⟨-, rfl⟩
  · exact t.production_rightLinear
  · exact .inl rfl

/-- No production of the states is a single terminal, so that no accepting state is added for them. -/
theorem Valid.stateGrammar_accepting (hv : fa.Valid) : fa.stateGrammar.accepting = [] := by
  rw [List.eq_nil_iff_forall_not_mem]
  intro q hq
  obtain ⟨-, r, hr, p, hp, hs⟩ := Grammar.mem_accepting.1 hq
  rcases hv.stateGrammar_cases hr hp with ⟨t, -, -, rfl⟩ | ⟨-, rfl⟩
  · rw [t.production_isSingleTerminal] at hs
    cases hs
  · cases hs

theorem Valid.mem_stateGrammar_transitions (hv : fa.Valid) {t : Transition} :
    t ∈ fa.stateGrammar.moveAutomaton.transitions ↔ t ∈ fa.transitions := by
  rw [Grammar.mem_moveAutomaton_transitions]
  constructor
  · rintro ⟨r, hr, p, hp, ht⟩
    rcases hv.stateGrammar_cases hr hp with ⟨s, hs, hl, rfl⟩ | ⟨-, rfl⟩
    · rw [← hl, s.transition?_production] at ht
      cases ht
      exact hs
    · cases ht
  · intro ht
    have hp := hv.mem_stateGrammar_productions.2 (.inl ⟨t, ht, rfl, rfl⟩)
    obtain ⟨r, hr, hl, hp⟩ := Grammar.exists_of_mem_productions hp
    exact ⟨r, hr, _, hp, hl ▸ t.transition?_production _⟩

theorem Valid.mem_stateGrammar_finals (hv : fa.Valid) {q : String} :
    q ∈ fa.stateGrammar.moveAutomaton.finals ↔ q ∈ fa.finals := by
  rw [Grammar.mem_moveAutomaton_finals, hv.stateGrammar_accepting]
  constructor
  · rintro (⟨r, hr, he, rfl⟩ | hq)
    · rcases hv.stateGrammar_cases hr he with ⟨t, -, -, ht⟩ | ⟨hf, -⟩
      · exact absurd ht t.production_ne_epsilon
      · exact hf
    · exact absurd hq List.not_mem_nil
  · intro hf
    obtain ⟨r, hr, hl, he⟩ := Grammar.exists_of_mem_productions (hv.mem_stateGrammar_productions.2 (.inr ⟨hf, rfl⟩))
    exact .inl ⟨r, hr, he, hl⟩

theorem Valid.stateGrammar_moveAutomaton (hv : fa.Valid) : fa.stateGrammar.moveAutomaton = fa.withoutIdleRows := by
  apply eq_of_mem_iff
  case states =>
    intro q
    rw [Grammar.mem_moveAutomaton_states, hv.mem_stateGrammar_nonTerminals, hv.stateGrammar_accepting]
    simp [withoutIdleRows]
  case alphabet =>
    intro a
    rw [Grammar.moveAutomaton, OrderedSet.mem_ofList]
    exact OrderedSet.mem_toList
  case transitions => exact fun _ => hv.mem_stateGrammar_transitions
  case rows =>
    intro d
    rw [hv.mem_withoutIdleRows_rows_iff, Grammar.mem_moveAutomaton_rows]
    simp only [hv.mem_stateGrammar_transitions]
  case initial => rfl
  case finals => exact fun _ => hv.mem_stateGrammar_finals

/-- The automaton of the grammar of its states is the automaton itself, but for the rows that lead nowhere. -/
theorem Valid.toAutomaton_stateGrammar (hv : fa.Valid) : fa.stateGrammar.toAutomaton = .ok fa.withoutIdleRows := by
  rw [Grammar.toAutomaton_eq_ok]
  simp only [Production.isRightLinear_iff]
  exact ⟨hv.stateGrammar_rightLinear, hv.stateGrammar_moveAutomaton⟩

end Automaton

namespace Grammar

variable {g : Grammar}

/-- The states of the automaton of a grammar can serve as non-terminals again. -/
theorem WellFormed.toGrammar_moveAutomaton (hg : g.WellFormed) :
    g.moveAutomaton.toGrammar = .ok g.moveAutomaton.stateGrammar := by
  have hfree : ∀ q ∈ g.moveAutomaton.states, q ∉ g.moveAutomaton.alphabet ∧ isDeclarable q = true := by
    intro q hq
    have halphabet : q ∈ g.moveAutomaton.alphabet ↔ q ∈ g.terminals := OrderedSet.mem_ofList
    rw [halphabet]
    rcases mem_moveAutomaton_states.1 hq with hn | ha
    · exact ⟨fun ht => hg.disjoint q ht hn, hg.declarable q (List.mem_append_right _ hn)⟩
    · rw [(mem_accepting.1 ha).1]
      exact ⟨(freshName_not_mem g "final").2.1, isDeclarable_freshName (by decide)⟩
  refine Automaton.toGrammar_eq_ok.2 ⟨fun q hq => (hfree q hq).1, ?_, rfl⟩
  exact hg.moveAutomaton_valid.stateGrammar_fault?_eq_none.2 hfree

theorem moveAutomaton_withoutIdleRows (g : Grammar) : g.moveAutomaton.withoutIdleRows = g.moveAutomaton := by
  apply Automaton.withoutIdleRows_eq_self
  intro d hd
  exact Automaton.targets_ne_empty.2 (mem_moveAutomaton_rows.1 hd)

end Grammar

end NormalForms
