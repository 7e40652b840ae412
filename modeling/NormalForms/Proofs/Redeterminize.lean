import NormalForms.Proofs.Acceptance
import NormalForms.Proofs.Deterministic
import NormalForms.Proofs.ReachablePart

namespace NormalForms.Automaton

variable {fa : Automaton} {states : OrderedSet String}

theorem targets_eq_singleton (h : fa.isDeterministic = true) {t : Transition} (ht : t ∈ fa.transitions) :
    fa.targets t.toDeparture = .ofList [t.target] :=
  OrderedSet.eq_singleton_of_mem ((isDeterministic_iff.1 h).2 _) (mem_targets.2 ht)

/-- A deterministic automaton is found in no other sets than those of a single state, and these are the states that its
paths lead to. -/
theorem Valid.mem_subsets_of_isDeterministic (hv : fa.Valid) (h : fa.isDeterministic = true) :
    states ∈ fa.subsets ↔ ∃ q ∈ fa.reachable, states = .ofList [q] := by
  rw [hv.mem_subsets_iff]
  constructor
  · rintro ⟨hne, word, -, rfl⟩
    obtain ⟨q, hq⟩ := (OrderedSet.eq_empty_or_eq_singleton (length_statesAfter_le_one h word)).resolve_left hne
    have hm : q ∈ fa.statesAfter word := by simp [hq]
    exact ⟨q, mem_reachable.2 ⟨word, mem_statesAfter.1 hm⟩, hq⟩
  · rintro ⟨q, hq, rfl⟩
    obtain ⟨word, hw⟩ := mem_reachable.1 hq
    have hs := OrderedSet.eq_singleton_of_mem (length_statesAfter_le_one h word) (mem_statesAfter.2 hw)
    exact ⟨OrderedSet.singleton_ne_empty q, word, hv.mem_alphabet_of_path hw, hs⟩

theorem Valid.mem_determinize_states_of_isDeterministic (hv : fa.Valid) (h : fa.isDeterministic = true) {q : String} :
    q ∈ fa.determinize.states ↔ ∃ p ∈ fa.reachable, escapeState p = q := by
  simp only [mem_determinize_states, hv.mem_subsets_of_isDeterministic h]
  constructor
  · rintro ⟨_, ⟨p, hp, rfl⟩, rfl⟩
    exact ⟨p, hp, rfl⟩
  · rintro ⟨p, hp, rfl⟩
    exact ⟨_, ⟨p, hp, rfl⟩, rfl⟩

theorem Valid.mem_determinize_transitions_of_isDeterministic (hv : fa.Valid) (h : fa.isDeterministic = true)
    {t : Transition} :
    t ∈ fa.determinize.transitions ↔ ∃ u ∈ fa.reachablePart.transitions, u.renamed escapeState = t := by
  have hempty := (isDeterministic_iff.1 h).1
  rw [mem_determinize_transitions]
  constructor
  · rintro ⟨s, hs, a, -, hne, rfl⟩
    obtain ⟨p, hp, rfl⟩ := (hv.mem_subsets_of_isDeterministic h).1 hs
    rw [next_singleton hempty] at hne ⊢
    obtain ⟨⟨_, q⟩, ht, rfl⟩ := targets_ne_empty.1 hne
    rw [targets_eq_singleton h ht]
    exact ⟨_, mem_reachablePart_transitions.2 ⟨ht, hp⟩, rfl⟩
  · rintro ⟨⟨⟨p, label⟩, q⟩, hu, rfl⟩
    obtain ⟨ht, hp⟩ := mem_reachablePart_transitions.1 hu
    cases label with
    | empty => exact absurd rfl (hempty _ ht)
    | letter a =>
        have hs := (hv.mem_subsets_of_isDeterministic h).2 ⟨p, hp, rfl⟩
        have ha := hv.label_mem _ (hv.departure_mem _ ht) a rfl
        have hnext : fa.next (.ofList [p]) a = .ofList [q] :=
          (next_singleton hempty p a).trans (targets_eq_singleton h ht)
        refine ⟨_, hs, a, ha, ?_, ?_⟩
        · rw [hnext]
          exact OrderedSet.singleton_ne_empty q
        · rw [hnext]
          rfl

theorem Valid.mem_determinize_finals_of_isDeterministic (hv : fa.Valid) (h : fa.isDeterministic = true) {q : String} :
    q ∈ fa.determinize.finals ↔ ∃ p ∈ fa.reachablePart.finals, escapeState p = q := by
  have hkey : ∀ p ∈ fa.reachable, escapeState p ∈ fa.determinize.finals ↔ p ∈ fa.finals := by
    intro p hp
    rw [← stateKey_singleton, mem_determinize_finals ((hv.mem_subsets_of_isDeterministic h).2 ⟨p, hp, rfl⟩)]
    simp
  constructor
  · intro hq
    obtain ⟨p, hp, rfl⟩ := (hv.mem_determinize_states_of_isDeterministic h).1 (hv.determinize.finals_mem q hq)
    exact ⟨p, OrderedSet.mem_filter.2 ⟨(hkey p hp).1 hq, decide_eq_true hp⟩, rfl⟩
  · rintro ⟨p, hp, rfl⟩
    obtain ⟨hp, hr⟩ := OrderedSet.mem_filter.1 hp
    exact (hkey p (of_decide_eq_true hr)).2 hp

theorem Valid.determinize_eq_renamed (hv : fa.Valid) (h : fa.isDeterministic = true) :
    fa.determinize = fa.reachablePart.withoutIdleRows.renamed escapeState := by
  apply eq_of_mem_iff
  case states =>
    intro q
    rw [hv.mem_determinize_states_of_isDeterministic h, renamed, OrderedSet.mem_map]
    simp only [← hv.mem_reachablePart_states]
    rfl
  case alphabet => exact fun a => Iff.rfl
  case transitions =>
    intro t
    rw [hv.mem_determinize_transitions_of_isDeterministic h, renamed, OrderedSet.mem_map]
    rfl
  case rows =>
    intro d
    rw [mem_determinize_rows, renamed, OrderedSet.mem_map]
    simp only [hv.mem_determinize_transitions_of_isDeterministic h, hv.reachablePart.mem_withoutIdleRows_rows_iff]
    constructor
    · rintro ⟨_, ⟨t, ht, rfl⟩, rfl⟩
      exact ⟨t.toDeparture, ⟨t, ht, rfl⟩, rfl⟩
    · rintro ⟨_, ⟨t, ht, rfl⟩, rfl⟩
      exact ⟨_, ⟨t, ht, rfl⟩, rfl⟩
  case initial =>
    rw [Automaton.determinize, initialStates_eq (isDeterministic_iff.1 h).1]
    rfl
  case finals =>
    intro q
    rw [hv.mem_determinize_finals_of_isDeterministic h, renamed, OrderedSet.mem_map]
    rfl

/-- The sets are found along the transitions between them. -/
theorem Valid.stateKey_mem_reachable (hv : fa.Valid) (hs : states ∈ fa.subsets) :
    stateKey states ∈ fa.determinize.reachable := by
  refine (subsets_forall (P := fun s => s ∈ fa.subsets ∧ stateKey s ∈ fa.determinize.reachable) ?_ ?_ states hs).2
  · exact ⟨initialStates_mem_subsets, fa.determinize.initial_mem_reachable⟩
  · rintro s ⟨hs, hr⟩ a ha hne
    have ht := mem_determinize_transitions.2 ⟨s, hs, a, ha, hne, rfl⟩
    exact ⟨hv.next_mem_subsets hs ha hne, target_mem_reachable ht hr⟩

theorem Valid.determinize_reachablePart (hv : fa.Valid) : fa.determinize.reachablePart = fa.determinize := by
  refine hv.determinize.reachablePart_eq_self fun q hq => ?_
  obtain ⟨s, hs, rfl⟩ := mem_determinize_states.1 hq
  exact hv.stateKey_mem_reachable hs

theorem determinize_withoutIdleRows (fa : Automaton) : fa.determinize.withoutIdleRows = fa.determinize :=
  withoutIdleRows_eq_self fun _ hd => targets_ne_empty.2 (mem_determinize_rows.1 hd)

theorem Valid.determinize_determinize (hv : fa.Valid) :
    fa.determinize.determinize = fa.determinize.renamed escapeState := by
  rw [hv.determinize.determinize_eq_renamed fa.determinize_isDeterministic, hv.determinize_reachablePart,
    determinize_withoutIdleRows]

/-- A deterministic automaton is made deterministic by leaving out what its initial state does not lead to and the rows
that lead nowhere, and by escaping the names of its states. Of an automaton that has been made deterministic before,
nothing is left out. -/
theorem determinize_of_isDeterministic :
    Function.Injective escapeState ∧
    (∀ fa : Automaton, fa.Built → fa.isDeterministic = true →
      (∀ q, q ∈ fa.reachablePart.states ↔ ∃ word, fa.Path fa.initial word q) ∧
      fa.determinize = fa.reachablePart.withoutIdleRows.renamed escapeState) ∧
    ∀ fa : Automaton, fa.Built →
      fa.determinize.determinize = fa.determinize.renamed escapeState ∧
      ((∀ q ∈ fa.determinize.states, ',' ∉ q.toList ∧ '\\' ∉ q.toList) →
        fa.determinize.determinize = fa.determinize) := by
  refine ⟨escapeState_injective, fun fa hb h => ⟨fun q => ?_, ?_⟩, fun fa hb => ⟨?_, fun hplain => ?_⟩⟩
  · exact hb.valid.mem_reachablePart_states.trans mem_reachable
  · exact hb.valid.determinize_eq_renamed h
  · exact hb.valid.determinize_determinize
  · rw [hb.valid.determinize_determinize]
    exact hb.valid.determinize.renamed_eq_self fun q hq => escapeState_eq_self (hplain q hq).1 (hplain q hq).2

/-- A deterministic automaton with names that have to be escaped, rows that lead nowhere and a state to which no path
leads. -/
def straying : Automaton where
  states := .ofList ["", ",", "\\,", "q"]
  alphabet := .ofList ["a", "b"]
  transitions := .ofList [⟨⟨"", .letter "a"⟩, ","⟩, ⟨⟨",", .letter "b"⟩, "\\,"⟩, ⟨⟨"q", .letter "a"⟩, ""⟩]
  rows := .ofList [⟨"", .empty⟩, ⟨"", .letter "a"⟩, ⟨",", .letter "b"⟩, ⟨"\\,", .letter "a"⟩, ⟨"q", .letter "a"⟩]
  initial := ""
  finals := .ofList ["\\,", "q"]

theorem straying_built : straying.Built := by
  let d : Description :=
    ⟨["q", "\\,", ",", ""], ["b", "a"], [⟨"", "ε", []⟩, ⟨"", "a", [","]⟩, ⟨",", "b", ["\\,"]⟩, ⟨"\\,", "a", []⟩,
      ⟨"q", "a", [""]⟩], "", ["q", "\\,"]⟩
  have h : ofDescription d = .ok straying := by rfl
  exact .ofDescription h

theorem straying_determinize : straying.Built ∧ straying.isDeterministic = true ∧ "q" ∈ straying.states ∧
    ¬ (∃ word, straying.Path "" word "q") ∧
    straying.determinize = straying.reachablePart.withoutIdleRows.renamed escapeState ∧
    straying.determinize.states = .ofList ["", "\\,", "\\\\\\,"] ∧
    commas.Built ∧ commas.determinize.determinize = commas.determinize.renamed escapeState ∧
    commas.determinize.determinize ≠ commas.determinize ∧
    stalling.Built ∧ (∀ q ∈ stalling.determinize.states, ',' ∉ q.toList ∧ '\\' ∉ q.toList) ∧
    stalling.determinize.determinize = stalling.determinize := by
  obtain ⟨-, hdeterministic, htwice⟩ := determinize_of_isDeterministic
  have hd : straying.isDeterministic = true := by decide
  obtain ⟨hreachable, hpart⟩ := hdeterministic straying straying_built hd
  have hq : "q" ∉ straying.reachablePart.states := by with_unfolding_all decide
  have hplain : ∀ q ∈ stalling.determinize.states.toList, ',' ∉ q.toList ∧ '\\' ∉ q.toList := by
    with_unfolding_all decide
  exact ⟨straying_built, hd, by decide, mt (hreachable "q").2 hq, hpart, by with_unfolding_all decide, commas_built,
    (htwice commas commas_built).1, by with_unfolding_all decide, stalling_built, hplain,
    (htwice stalling stalling_built).2 hplain⟩

end NormalForms.Automaton
