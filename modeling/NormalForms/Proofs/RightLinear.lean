import NormalForms.Proofs.Checks
import NormalForms.RightLinear

namespace NormalForms.Grammar

variable {g : Grammar} {fa : Automaton}

theorem transition?_eq_some {accepting left : String} {p : Production} {t : Transition}
    (h : p.transition? accepting left = some t) :
    t.source = left ∧ (∀ a, t.label = .letter a → .terminal a ∈ p) ∧
      (.nonTerminal t.target ∈ p ∨ p.isSingleTerminal = true ∧ t.target = accepting) := by
  unfold Production.transition? at h
  split at h
  · cases h
    exact ⟨rfl, by simp, .inr ⟨rfl, rfl⟩⟩
  · cases h
    exact ⟨rfl, by simp, .inl (by simp)⟩
  · cases h
    exact ⟨rfl, by simp, .inl (by simp)⟩
  · cases h

def transitions (g : Grammar) (accepting : String) : List Transition :=
  g.rules.flatMap fun r => r.alternatives.filterMap (Production.transition? accepting r.left)

def accepting (g : Grammar) : List String :=
  if g.rules.any fun r => r.alternatives.any Production.isSingleTerminal then [g.freshName "final"] else []

def moveAutomaton (g : Grammar) : Automaton where
  states := .ofList (g.nonTerminals ++ g.accepting)
  alphabet := .ofList g.terminals
  transitions := .ofList (g.transitions (g.freshName "final"))
  rows := .ofList ((g.transitions (g.freshName "final")).map (·.toDeparture))
  initial := g.start
  finals := .ofList ((g.rules.filter fun r => r.alternatives.any (· = [.epsilon])).map (·.left) ++ g.accepting)

theorem toAutomaton_eq_ok :
    g.toAutomaton = .ok fa ↔
      (∀ r ∈ g.rules, ∀ p ∈ r.alternatives, p.isRightLinear = true) ∧ g.moveAutomaton = fa := by
  rw [toAutomaton]
  cases hr : g.rules.find? fun r => !r.alternatives.all Production.isRightLinear with
  | some r =>
      have hm : ¬ ∀ p ∈ r.alternatives, p.isRightLinear = true := by simpa using List.find?_some hr
      simp only [reduceCtorEq, false_iff, not_and]
      intro h
      exact absurd (h r (List.mem_of_find?_eq_some hr)) hm
  | none =>
      have hall : ∀ r ∈ g.rules, ∀ p ∈ r.alternatives, p.isRightLinear = true := by
        simpa using hr
      have hfinals : (g.rules.filter fun r => r.alternatives.any (· = [.epsilon])) =
          g.rules.filter fun r => [.epsilon] ∈ r.alternatives := by
        apply List.filter_congr
        intro r _
        rw [Bool.eq_iff_iff]
        simp
      rw [and_iff_right hall, moveAutomaton, hfinals]
      change Except.ok _ = Except.ok fa ↔ _
      rw [Except.ok.injEq]
      rfl

theorem mem_accepting {q : String} :
    q ∈ g.accepting ↔
      q = g.freshName "final" ∧ ∃ r ∈ g.rules, ∃ p ∈ r.alternatives, p.isSingleTerminal = true := by
  have hs : (∃ r ∈ g.rules, ∃ p ∈ r.alternatives, p.isSingleTerminal = true) ↔
      (g.rules.any fun r => r.alternatives.any Production.isSingleTerminal) = true := by simp
  rw [accepting, hs]
  split
  · rename_i h
    rw [List.mem_singleton, and_iff_left h]
  · rename_i h
    exact iff_of_false List.not_mem_nil fun hq => h hq.2

theorem mem_moveAutomaton_states {q : String} :
    q ∈ g.moveAutomaton.states ↔ q ∈ g.nonTerminals ∨ q ∈ g.accepting := by
  simp [moveAutomaton]

theorem mem_moveAutomaton_finals {q : String} :
    q ∈ g.moveAutomaton.finals ↔ (∃ r ∈ g.rules, [.epsilon] ∈ r.alternatives ∧ r.left = q) ∨ q ∈ g.accepting := by
  simp [moveAutomaton, and_assoc]

theorem mem_moveAutomaton_transitions {t : Transition} :
    t ∈ g.moveAutomaton.transitions ↔
      ∃ r ∈ g.rules, ∃ p ∈ r.alternatives, p.transition? (g.freshName "final") r.left = some t := by
  simp [moveAutomaton, transitions]

theorem mem_moveAutomaton_rows {d : Departure} :
    d ∈ g.moveAutomaton.rows ↔ ∃ t ∈ g.moveAutomaton.transitions, t.toDeparture = d := by
  simp [moveAutomaton]

theorem WellFormed.moveAutomaton_valid (hg : g.WellFormed) : g.moveAutomaton.Valid where
  letters a ha := isDeclarable_iff.1 (hg.declarable a (List.mem_append_left _ (OrderedSet.mem_ofList.1 ha)))
  initial_mem := mem_moveAutomaton_states.2 (.inl hg.start_mem)
  finals_mem q hq := by
    apply mem_moveAutomaton_states.2
    rcases mem_moveAutomaton_finals.1 hq with ⟨r, hr, -, rfl⟩ | hq
    · exact .inl (left_mem_nonTerminals hr)
    · exact .inr hq
  target_mem t ht := by
    obtain ⟨r, hr, p, hp, ht⟩ := mem_moveAutomaton_transitions.1 ht
    apply mem_moveAutomaton_states.2
    obtain ⟨-, -, hb | ⟨hs, hb⟩⟩ := transition?_eq_some ht
    · exact .inl ((hg.admits (mem_productions_left hg.nonTerminals_nodup hr hp)).nonTerminal_mem _ hb)
    · exact .inr (mem_accepting.2 ⟨hb, r, hr, p, hp, hs⟩)
  departure_mem t ht := mem_moveAutomaton_rows.2 ⟨t, ht, rfl⟩
  source_mem d hd := by
    obtain ⟨t, ht, rfl⟩ := mem_moveAutomaton_rows.1 hd
    obtain ⟨r, hr, p, -, ht⟩ := mem_moveAutomaton_transitions.1 ht
    rw [(transition?_eq_some ht).1]
    exact mem_moveAutomaton_states.2 (.inl (left_mem_nonTerminals hr))
  label_mem d hd a hl := by
    obtain ⟨t, ht, rfl⟩ := mem_moveAutomaton_rows.1 hd
    obtain ⟨r, hr, p, hp, ht⟩ := mem_moveAutomaton_transitions.1 ht
    have hp := hg.admits (mem_productions_left hg.nonTerminals_nodup hr hp)
    exact OrderedSet.mem_ofList.2 (hp.terminal_mem a ((transition?_eq_some ht).2.1 a hl))

theorem WellFormed.toAutomaton_valid (hg : g.WellFormed) (h : g.toAutomaton = .ok fa) : fa.Valid := by
  obtain ⟨-, rfl⟩ := toAutomaton_eq_ok.1 h
  exact hg.moveAutomaton_valid

end NormalForms.Grammar
