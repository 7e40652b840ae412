import NormalForms.Proofs.Deterministic
import NormalForms.Proofs.Worklist

namespace NormalForms.Automaton

variable {fa : Automaton}

theorem head?_registry (fa : Automaton) :
    fa.registry.head? = some (stateKey (fa.statesAfter []), fa.statesAfter []) := by
  obtain ⟨rest, hr⟩ : [fa.initialStates] <+: fa.subsets := prefix_discover _ _ _
  rw [registry, ← hr]
  rfl

theorem map_fst_registry (fa : Automaton) : fa.registry.map (·.1) = fa.subsets.map stateKey := by
  simp [registry]

theorem map_snd_registry (fa : Automaton) : fa.registry.map (·.2) = fa.subsets := by
  rw [registry, List.map_map]
  exact List.map_id _

theorem mem_registry {key : String} {states : OrderedSet String} :
    (key, states) ∈ fa.registry ↔ key = stateKey states ∧ states ∈ fa.subsets := by
  simp only [registry, List.mem_map, Prod.mk.injEq]
  constructor
  · rintro ⟨s, hs, rfl, rfl⟩
    exact ⟨rfl, hs⟩
  · rintro ⟨rfl, hs⟩
    exact ⟨states, hs, rfl, rfl⟩

theorem Valid.nodup_keys (hv : fa.Valid) : (fa.registry.map (·.1)).Nodup := by
  rw [map_fst_registry]
  exact hv.explored_subsets.nodup.map_on fun s hs t ht => eq_of_stateKey_eq hs ht

/-- The search comes to its end, and what it has recorded by then are the sets and the transitions of the deterministic
automaton. -/
theorem Valid.turn_iterate_opening (hv : fa.Valid) :
    ∃ transitions, fa.turn^[2 ^ fa.states.toList.length] fa.opening = ⟨fa.registry, [], transitions⟩ ∧
      .ofList transitions = fa.determinize.transitions := by
  have hproper : ∀ s ∈ [fa.initialStates], fa.Proper s := by
    intro s hs
    rw [List.mem_singleton.1 hs]
    exact hv.proper_initialStates
  have hnone : [fa.initialStates].Perm ([] ++ [fa.initialStates]) := .refl _
  obtain ⟨all, hp, hall⟩ := hv.turn_iterate explored_initialStates hnone hproper le_rfl
  refine ⟨_, hall, OrderedSet.ext_mem fun t => ?_⟩
  rw [Automaton.determinize, OrderedSet.mem_ofList, OrderedSet.mem_ofList]
  exact (hp.flatMap_right fa.subsetTransitions).mem_iff.symm

theorem determinize_targets {states : OrderedSet String} (hs : states ∈ fa.subsets) {a : String}
    (ha : a ∈ fa.alphabet) (hne : fa.next states a ≠ ∅) :
    fa.determinize.targets ⟨stateKey states, .letter a⟩ = .ofList [stateKey (fa.next states a)] := by
  refine OrderedSet.ext_mem fun q => ?_
  rw [mem_targets, mem_determinize_transitions_from hs, OrderedSet.mem_ofList, List.mem_singleton]
  exact ⟨fun h => h.2.2, fun h => ⟨ha, hne, h⟩⟩

theorem next_ne_empty_of_mem_rows {states : OrderedSet String} (hs : states ∈ fa.subsets) {a : String}
    (hr : ⟨stateKey states, .letter a⟩ ∈ fa.determinize.rows) : fa.next states a ≠ ∅ := by
  obtain ⟨⟨_, q⟩, ht, rfl⟩ := mem_determinize_rows.1 hr
  exact ((mem_determinize_transitions_from hs).1 ht).2.1

/-- The search ends with the sets in which words leave the automaton, each once and under its own name, and they are the
states of the deterministic automaton. -/
theorem built_registry (h : fa.Built) :
    (∃ transitions, fa.turn^[2 ^ fa.states.toList.length] fa.opening = ⟨fa.registry, [], transitions⟩ ∧
      .ofList transitions = fa.determinize.transitions) ∧
    (fa.registry.map (·.1)).Nodup ∧ (fa.registry.map (·.2)).Nodup ∧
    (∀ key states, (key, states) ∈ fa.registry ↔ key = stateKey states ∧ states ≠ ∅ ∧
      ∃ word, (∀ a ∈ word, a ∈ fa.alphabet) ∧ fa.statesAfter word = states) ∧
    fa.registry.head? = some (stateKey (fa.statesAfter []), fa.statesAfter []) ∧
    (∀ q, q ∈ fa.determinize.states ↔ q ∈ fa.registry.map (·.1)) ∧
    some fa.determinize.initial = fa.registry.head?.map (·.1) ∧
    ∀ key states, (key, states) ∈ fa.registry →
      (key ∈ fa.determinize.finals ↔ ∃ q ∈ states, q ∈ fa.finals) ∧
      ∀ a ∈ fa.alphabet,
        (fa.closure (fa.move states a) ≠ ∅ → ⟨key, .letter a⟩ ∈ fa.determinize.rows ∧
          fa.determinize.targets ⟨key, .letter a⟩ = .ofList [stateKey (fa.closure (fa.move states a))]) ∧
        (fa.closure (fa.move states a) = ∅ → ⟨key, .letter a⟩ ∉ fa.determinize.rows) := by
  have hv := h.valid
  refine ⟨hv.turn_iterate_opening, hv.nodup_keys, ?_, fun key states => ?_, fa.head?_registry, fun q => ?_, ?_, ?_⟩
  · rw [map_snd_registry]
    exact hv.explored_subsets.nodup
  · rw [mem_registry, hv.mem_subsets_iff]
  · rw [map_fst_registry]
    exact OrderedSet.mem_ofList
  · rw [head?_registry]
    rfl
  · intro key states hm
    obtain ⟨rfl, hs⟩ := mem_registry.1 hm
    refine ⟨mem_determinize_finals hs, fun a ha => ⟨fun hne => ?_, fun he hr => ?_⟩⟩
    · have ht := (mem_determinize_transitions_from hs).2 ⟨ha, hne, rfl⟩
      exact ⟨mem_determinize_rows.2 ⟨_, ht, rfl⟩, determinize_targets hs ha hne⟩
    · exact next_ne_empty_of_mem_rows hs hr he

theorem commas_registry : commas.Built ∧
    commas.registry = [("", .ofList [""]), (",\\,,\\\\", .ofList ["", ",", "\\"])] ∧
    (∃ transitions, commas.turn^[8] commas.opening = ⟨commas.registry, [], transitions⟩) ∧
    (∃ word, (∀ a ∈ word, a ∈ commas.alphabet) ∧ commas.statesAfter word = .ofList ["", ",", "\\"]) ∧
    ⟨"", .letter "a"⟩ ∈ commas.determinize.rows := by
  have hr : commas.registry = [("", .ofList [""]), (",\\,,\\\\", .ofList ["", ",", "\\"])] := by
    with_unfolding_all decide
  obtain ⟨⟨_, hturn, -⟩, -, -, hmem, -, -, -, hrows⟩ := built_registry commas_built
  have hone : ("", .ofList [""]) ∈ commas.registry := by simp [hr]
  have hall : (",\\,,\\\\", .ofList ["", ",", "\\"]) ∈ commas.registry := by simp [hr]
  have hne : commas.closure (commas.move (.ofList [""]) "a") ≠ ∅ := by with_unfolding_all decide
  obtain ⟨hrow, -⟩ := (hrows _ _ hone).2 "a" (by decide)
  exact ⟨commas_built, hr, ⟨_, hturn⟩, ((hmem _ _).1 hall).2.2, (hrow hne).1⟩

end NormalForms.Automaton
