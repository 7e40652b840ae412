import NormalForms.Proofs.StateKey
import NormalForms.Proofs.Subsets

namespace NormalForms.Automaton

variable {fa : Automaton} {states : OrderedSet String}

theorem mem_determinize_transitions {t : Transition} :
    t ∈ fa.determinize.transitions ↔ ∃ s ∈ fa.subsets, ∃ a ∈ fa.alphabet, fa.next s a ≠ ∅ ∧
      t = ⟨⟨stateKey s, .letter a⟩, stateKey (fa.next s a)⟩ := by
  simp only [determinize, OrderedSet.mem_ofList, List.mem_flatMap, subsetTransitions, List.mem_map]
  constructor
  · rintro ⟨s, hs, ⟨a, _⟩, hm, rfl⟩
    obtain ⟨ha, rfl, hne⟩ := mem_moves.1 hm
    exact ⟨s, hs, a, ha, hne, rfl⟩
  · rintro ⟨s, hs, a, ha, hne, rfl⟩
    exact ⟨s, hs, ⟨a, _⟩, mem_moves.2 ⟨ha, rfl, hne⟩, rfl⟩

theorem mem_determinize_states {q : String} : q ∈ fa.determinize.states ↔ ∃ s ∈ fa.subsets, stateKey s = q := by
  simp only [determinize, OrderedSet.mem_ofList, List.mem_map]

theorem determinize_no_empty : ∀ t ∈ fa.determinize.transitions, t.label ≠ .empty := by
  intro t ht
  obtain ⟨_, _, _, _, _, rfl⟩ := mem_determinize_transitions.1 ht
  simp

theorem eq_of_stateKey_eq {s t : OrderedSet String} (hs : s ∈ fa.subsets) (ht : t ∈ fa.subsets)
    (h : stateKey s = stateKey t) : s = t :=
  stateKey_inj (ne_empty_of_mem_subsets s hs) (ne_empty_of_mem_subsets t ht) h

theorem mem_determinize_transitions_from {a q : String} (hs : states ∈ fa.subsets) :
    ⟨⟨stateKey states, .letter a⟩, q⟩ ∈ fa.determinize.transitions ↔
      a ∈ fa.alphabet ∧ fa.next states a ≠ ∅ ∧ q = stateKey (fa.next states a) := by
  rw [mem_determinize_transitions]
  constructor
  · rintro ⟨t, ht, b, hb, hne, he⟩
    simp only [Transition.mk.injEq, Departure.mk.injEq, Label.letter.injEq] at he
    obtain ⟨⟨hk, rfl⟩, rfl⟩ := he
    rw [eq_of_stateKey_eq hs ht hk]
    exact ⟨hb, hne, rfl⟩
  · rintro ⟨ha, hne, rfl⟩
    exact ⟨states, hs, a, ha, hne, rfl⟩

theorem determinize_next {a : String} (hs : states ∈ fa.subsets) (ha : a ∈ fa.alphabet) :
    fa.determinize.next (.ofList [stateKey states]) a =
      if fa.next states a = ∅ then ∅ else .ofList [stateKey (fa.next states a)] := by
  rw [next, closure_eq_self determinize_no_empty]
  refine OrderedSet.ext_mem fun q => ?_
  rw [mem_move]
  simp only [OrderedSet.mem_ofList, List.mem_singleton, exists_eq_left, mem_determinize_transitions_from hs]
  split
  · rename_i he
    simp [he]
  · rename_i hne
    simp [ha, hne]

theorem mem_determinize_finals (hs : states ∈ fa.subsets) :
    stateKey states ∈ fa.determinize.finals ↔ ∃ q ∈ states, q ∈ fa.finals := by
  simp only [determinize, OrderedSet.mem_ofList, List.mem_map, List.mem_filter, List.any_eq_true, decide_eq_true_eq,
    OrderedSet.mem_toList]
  constructor
  · rintro ⟨t, ⟨ht, hf⟩, hk⟩
    rwa [← eq_of_stateKey_eq ht hs hk]
  · exact fun hf => ⟨states, ⟨hs, hf⟩, rfl⟩

/-- From the name of a set, the deterministic automaton accepts what the other one accepts from the set. -/
theorem Valid.determinize_acceptsFrom (hv : fa.Valid) (hs : states ∈ fa.subsets) (word : List String) :
    fa.determinize.acceptsFrom (.ofList [stateKey states]) word = fa.acceptsFrom states word := by
  induction word generalizing states with
  | nil =>
      rw [acceptsFrom, acceptsFrom, Bool.eq_iff_iff]
      simp only [List.any_eq_true, decide_eq_true_eq, OrderedSet.mem_toList, OrderedSet.mem_ofList,
        List.mem_singleton, exists_eq_left]
      exact mem_determinize_finals hs
  | cons a word ih =>
      rw [acceptsFrom, acceptsFrom]
      by_cases ha : a ∈ fa.alphabet
      · have hd : a ∈ fa.determinize.alphabet := ha
        rw [decide_eq_true ha, decide_eq_true hd, determinize_next hs ha]
        by_cases hne : fa.next states a = ∅
        · -- the empty set has no state of its own, and nothing is accepted from it
          rw [if_pos hne, hne, acceptsFrom_empty, acceptsFrom_empty]
        · rw [if_neg hne, ih (hv.next_mem_subsets hs ha hne)]
      · have hd : a ∉ fa.determinize.alphabet := ha
        rw [decide_eq_false ha, decide_eq_false hd, Bool.false_and, Bool.false_and]

theorem Valid.determinize_accepts (hv : fa.Valid) (word : List String) :
    fa.determinize.accepts word = fa.accepts word := by
  rw [accepts, initialStates, closure_eq_self determinize_no_empty]
  exact hv.determinize_acceptsFrom initialStates_mem_subsets word

theorem mem_determinize_rows {d : Departure} :
    d ∈ fa.determinize.rows ↔ ∃ t ∈ fa.determinize.transitions, t.toDeparture = d := by
  simp only [determinize, OrderedSet.mem_ofList, List.mem_map]

theorem Valid.determinize (hv : fa.Valid) : fa.determinize.Valid := by
  have hmem : ∀ s ∈ fa.subsets, stateKey s ∈ fa.determinize.states :=
    fun s hs => mem_determinize_states.2 ⟨s, hs, rfl⟩
  constructor
  · exact hv.letters
  · exact hmem _ initialStates_mem_subsets
  · intro q hq
    simp only [Automaton.determinize, OrderedSet.mem_ofList, List.mem_map, List.mem_filter] at hq
    obtain ⟨s, ⟨hs, -⟩, rfl⟩ := hq
    exact hmem s hs
  · intro t ht
    obtain ⟨s, hs, a, ha, hne, rfl⟩ := mem_determinize_transitions.1 ht
    exact hmem _ (hv.next_mem_subsets hs ha hne)
  · intro t ht
    exact mem_determinize_rows.2 ⟨t, ht, rfl⟩
  · intro d hd
    obtain ⟨t, ht, rfl⟩ := mem_determinize_rows.1 hd
    obtain ⟨s, hs, a, -, -, rfl⟩ := mem_determinize_transitions.1 ht
    exact hmem s hs
  · intro d hd b hl
    obtain ⟨t, ht, rfl⟩ := mem_determinize_rows.1 hd
    obtain ⟨s, -, a, ha, -, rfl⟩ := mem_determinize_transitions.1 ht
    cases hl
    exact ha

end NormalForms.Automaton
