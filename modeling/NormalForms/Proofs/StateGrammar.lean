import NormalForms.Proofs.Checks
import NormalForms.Proofs.Derivation
import NormalForms.Proofs.Path
import NormalForms.RightLinear

namespace NormalForms

namespace Transition

theorem production_eq (t : Transition) :
    t.production = t.label.word.map Symbol.terminal ++ [.nonTerminal t.target] := by
  obtain ⟨⟨source, label⟩, target⟩ := t
  cases label <;> rfl

theorem production_ne_epsilon (t : Transition) : t.production ≠ [.epsilon] := by
  unfold production
  split <;> simp

theorem eq_of_production_eq {s t : Transition} (hs : s.source = t.source) (hp : s.production = t.production) :
    s = t := by
  obtain ⟨⟨p, l⟩, q⟩ := s
  obtain ⟨⟨p', l'⟩, q'⟩ := t
  cases l <;> cases l' <;> simp_all [production]

end Transition

namespace Automaton

variable {fa : Automaton} {g : Grammar}

def stateRule (fa : Automaton) (q : String) : Rule :=
  ⟨q, (fa.transitions.toList.filter (·.source = q)).map Transition.production ++
    if q ∈ fa.finals then [[.epsilon]] else []⟩

def stateGrammar (fa : Automaton) : Grammar where
  start := fa.initial
  terminals := fa.alphabet.toList
  rules := (fa.initial :: fa.states.toList).eraseDups.map fa.stateRule

theorem toGrammar_eq_ok :
    fa.toGrammar = .ok g ↔ (∀ q ∈ fa.states, q ∉ fa.alphabet) ∧ fa.stateGrammar.fault? = none ∧ fa.stateGrammar = g := by
  rw [toGrammar]
  cases hq : fa.states.toList.find? (· ∈ fa.alphabet) with
  | some q =>
      have hm : q ∈ fa.alphabet := by simpa using List.find?_some hq
      simp only [reduceCtorEq, false_iff, not_and]
      intro h
      exact absurd hm (h q (List.mem_of_find?_eq_some hq))
  | none =>
      simp only [List.find?_eq_none, decide_eq_true_eq, OrderedSet.mem_toList] at hq
      change fa.stateGrammar.checked = .ok g ↔ _
      simp only [Grammar.checked_eq_ok, and_iff_right hq]

@[simp] theorem stateGrammar_nonTerminals :
    fa.stateGrammar.nonTerminals = (fa.initial :: fa.states.toList).eraseDups := by
  rw [Grammar.nonTerminals, stateGrammar, List.map_map]
  exact List.map_id _

theorem stateGrammar_nodup : fa.stateGrammar.nonTerminals.Nodup := by
  rw [stateGrammar_nonTerminals]
  exact nodup_eraseDups _

theorem Valid.mem_stateGrammar_nonTerminals (hv : fa.Valid) {q : String} :
    q ∈ fa.stateGrammar.nonTerminals ↔ q ∈ fa.states := by
  rw [stateGrammar_nonTerminals, List.mem_eraseDups, List.mem_cons, OrderedSet.mem_toList]
  constructor
  · rintro (rfl | hq)
    · exact hv.initial_mem
    · exact hq
  · exact .inr

theorem mem_stateRule {q : String} {p : Production} :
    p ∈ (fa.stateRule q).alternatives ↔
      (∃ t ∈ fa.transitions, t.source = q ∧ t.production = p) ∨ q ∈ fa.finals ∧ p = [.epsilon] := by
  have hfinal : p ∈ (if q ∈ fa.finals then [[Symbol.epsilon]] else []) ↔ q ∈ fa.finals ∧ p = [.epsilon] := by
    split <;> simp_all
  simp only [stateRule, List.mem_append, List.mem_map, List.mem_filter, decide_eq_true_eq, hfinal, and_assoc,
    OrderedSet.mem_toList]

theorem Valid.mem_stateGrammar_productions (hv : fa.Valid) {q : String} {p : Production} :
    p ∈ fa.stateGrammar.productions q ↔
      (∃ t ∈ fa.transitions, t.source = q ∧ t.production = p) ∨ q ∈ fa.finals ∧ p = [.epsilon] := by
  have hrule : p ∈ fa.stateGrammar.productions q ↔
      q ∈ fa.stateGrammar.nonTerminals ∧ p ∈ (fa.stateRule q).alternatives := by
    rw [Grammar.mem_productions stateGrammar_nodup, stateGrammar_nonTerminals]
    simp only [stateGrammar, List.mem_map]
    constructor
    · rintro ⟨_, ⟨q, hq, rfl⟩, rfl, hp⟩
      exact ⟨hq, hp⟩
    · rintro ⟨hq, hp⟩
      exact ⟨_, ⟨q, hq, rfl⟩, rfl, hp⟩
  rw [hrule, mem_stateRule, hv.mem_stateGrammar_nonTerminals, and_iff_right_iff_imp]
  rintro (⟨t, ht, rfl, -⟩ | ⟨hf, -⟩)
  · exact hv.source_mem _ (hv.departure_mem t ht)
  · exact hv.finals_mem q hf

end Automaton

namespace Grammar

variable {g : Grammar} {fa : Automaton}

theorem toGrammar_wellFormed (h : fa.toGrammar = .ok g) : g.WellFormed := by
  obtain ⟨-, hf, rfl⟩ := Automaton.toGrammar_eq_ok.1 h
  refine .of_fault?_eq_none hf fa.alphabet.toList_nodup Automaton.stateGrammar_nodup ?_
  intro r hr
  obtain ⟨q, -, rfl⟩ := List.mem_map.1 hr
  -- the transitions from one state are told apart by their productions, none of which is the empty string
  refine List.nodup_append.2 ⟨?_, ?_, ?_⟩
  · apply List.Nodup.map_on
    · intro s hs t ht he
      simp only [List.mem_filter, decide_eq_true_eq] at hs ht
      exact Transition.eq_of_production_eq (hs.2.trans ht.2.symm) he
    · exact fa.transitions.toList_nodup.filter _
  · split <;> simp
  · intro p hp e he
    obtain ⟨t, -, rfl⟩ := List.mem_map.1 hp
    split at he
    · rw [List.mem_singleton.1 he]
      exact t.production_ne_epsilon
    · cases he

end Grammar

namespace Automaton

variable {fa : Automaton}

theorem Valid.admits_production (hv : fa.Valid) {t : Transition} (ht : t ∈ fa.transitions) :
    fa.stateGrammar.Admits t.production := by
  have hp := t.production_eq
  refine ⟨by simp [hp], fun he => by simp [hp] at he, fun a ha => ?_, fun a ha => ?_⟩
  · have ha : a ∈ t.label.word := by simpa [hp] using ha
    exact hv.label_mem _ (hv.departure_mem t ht) a (Label.mem_word.1 ha)
  · obtain rfl : a = t.target := by simpa [hp] using ha
    exact hv.mem_stateGrammar_nonTerminals.2 (hv.target_mem t ht)

/-- The states of a valid automaton can serve as non-terminals if their names are free to be declared. -/
theorem Valid.stateGrammar_fault?_eq_none (hv : fa.Valid) :
    fa.stateGrammar.fault? = none ↔ ∀ q ∈ fa.states, q ∉ fa.alphabet ∧ isDeclarable q = true := by
  rw [Grammar.fault?_eq_none]
  constructor
  · rintro ⟨ha, -⟩ q hq
    have hq := hv.mem_stateGrammar_nonTerminals.2 hq
    exact ⟨fun hm => ha.disjoint q hm hq, ha.declarable q (List.mem_append_right _ hq)⟩
  · intro h
    refine ⟨⟨?_, ?_, ?_⟩, ?_⟩
    · exact hv.mem_stateGrammar_nonTerminals.2 hv.initial_mem
    · intro name hm
      rcases List.mem_append.1 hm with hm | hm
      · exact isDeclarable_iff.2 (hv.letters name hm)
      · exact (h name (hv.mem_stateGrammar_nonTerminals.1 hm)).2
    · intro name hm hn
      exact (h name (hv.mem_stateGrammar_nonTerminals.1 hn)).1 hm
    · intro r hr p hp
      have hm := Grammar.mem_productions_left stateGrammar_nodup hr hp
      rcases hv.mem_stateGrammar_productions.1 hm with ⟨t, ht, -, rfl⟩ | ⟨-, rfl⟩
      · exact hv.admits_production ht
      · exact ⟨by simp, fun _ => rfl, by simp, by simp⟩

theorem Path.stateGrammar_yields (hv : fa.Valid) {q f : String} {word : List String} (h : fa.Path q word f)
    (hf : f ∈ fa.finals) : fa.stateGrammar.Yields [.nonTerminal q] word := by
  induction h with
  | refl q => exact Grammar.yields_epsilon.of_mem_productions (hv.mem_stateGrammar_productions.2 (.inr ⟨hf, rfl⟩))
  | step ht _ ih =>
      have hp := hv.mem_stateGrammar_productions.2 (.inl ⟨_, ht, rfl, rfl⟩)
      refine Grammar.Yields.of_mem_productions hp ?_
      rw [Transition.production_eq]
      exact (Grammar.yields_map_terminal _).append (ih hf)

/-- A form of some letters and a state gives the words that begin with the letters and go on along a path. -/
theorem Valid.exists_path_of_yields (hv : fa.Valid) {u : List Symbol} {word : List String}
    (h : fa.stateGrammar.Yields u word) {letters : List String} {q : String}
    (hu : u = letters.map Symbol.terminal ++ [.nonTerminal q]) :
    ∃ rest, word = letters ++ rest ∧ ∃ f ∈ fa.finals, fa.Path q rest f := by
  induction h generalizing letters q with
  | nil => simp at hu
  | epsilon => cases letters <;> simp at hu
  | terminal a _ ih =>
      cases letters with
      | nil => simp at hu
      | cons b letters =>
          obtain ⟨he, hu⟩ := List.cons.inj hu
          obtain ⟨rest, rfl, hq⟩ := ih hu
          exact ⟨rest, by rw [Symbol.terminal.inj he, List.cons_append], hq⟩
  | @nonTerminal left p _ v _ hp hy hnil ihp =>
      cases letters with
      | cons b letters => simp at hu
      | nil =>
          obtain ⟨he, rfl⟩ := List.cons.inj hu
          cases he
          rw [Grammar.yields_nil.1 hnil, List.append_nil]
          refine ⟨v, rfl, ?_⟩
          rcases hv.mem_stateGrammar_productions.1 hp with ⟨t, ht, rfl, rfl⟩ | ⟨hf, rfl⟩
          · obtain ⟨rest, rfl, f, hf, hq⟩ := ihp t.production_eq
            exact ⟨f, hf, .step ht hq⟩
          · rw [← Grammar.yields_yield] at hy
            rw [Grammar.yields_nil.1 hy]
            exact ⟨left, hf, .refl left⟩

/-- The words of a state are those that its paths to the final states read. -/
theorem Valid.stateGrammar_yields_iff (hv : fa.Valid) {q : String} {word : List String} :
    fa.stateGrammar.Yields [.nonTerminal q] word ↔ ∃ f ∈ fa.finals, fa.Path q word f := by
  constructor
  · intro h
    have hu : [.nonTerminal q] = ([] : List String).map Symbol.terminal ++ [.nonTerminal q] := rfl
    obtain ⟨rest, rfl, hq⟩ := hv.exists_path_of_yields h hu
    exact hq
  · rintro ⟨f, hf, hq⟩
    exact hq.stateGrammar_yields hv hf

end Automaton

end NormalForms
