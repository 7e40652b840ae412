import NormalForms.Automaton.Description

namespace NormalForms

theorem Label.ofText_eq_empty {text : String} : ofText text = .empty ↔ text = "" ∨ text ∈ epsilonNames := by
  unfold ofText
  split <;> simp_all

namespace Description

variable {d : Description}

theorem stateFault?_eq_none {q : String} : d.stateFault? q = none ↔ q ∈ d.states := by
  simp [stateFault?]

theorem letterFault?_eq_none {a : String} : letterFault? a = none ↔ a ≠ "" ∧ a ∉ epsilonNames := by
  rw [letterFault?, ite_eq_right_iff, Label.ofText_eq_empty]
  simp

theorem labelFault?_eq_none {text : String} :
    d.labelFault? text = none ↔ ∀ a, Label.ofText text = .letter a → a ∈ d.alphabet := by
  unfold labelFault?
  split
  · rename_i he
    simp [he]
  · rename_i a he
    simp [he]

theorem initialFault?_eq_none : d.initialFault? = none ↔ d.initial ∈ d.states := by
  simp [initialFault?]

structure Allows (d : Description) (r : Row) : Prop where
  source_mem : r.source ∈ d.states
  label_mem : ∀ a, Label.ofText r.label = .letter a → a ∈ d.alphabet
  target_mem : ∀ q ∈ r.targets, q ∈ d.states

theorem rowFault?_eq_none {r : Row} : d.rowFault? r = none ↔ d.Allows r := by
  simp only [rowFault?, Option.or_eq_none_iff, stateFault?_eq_none, labelFault?_eq_none,
    List.findSome?_eq_none_iff]
  constructor
  · rintro ⟨hs, hl, ht⟩
    exact ⟨hs, hl, ht⟩
  · intro h
    exact ⟨h.source_mem, h.label_mem, h.target_mem⟩

theorem fault?_eq_none :
    d.fault? = none ↔ (∀ a ∈ d.alphabet, a ≠ "" ∧ a ∉ epsilonNames) ∧ d.initial ∈ d.states ∧
      (∀ q ∈ d.finals, q ∈ d.states) ∧ ∀ r ∈ d.transitions, d.Allows r := by
  simp only [fault?, Option.or_eq_none_iff, List.findSome?_eq_none_iff, letterFault?_eq_none,
    initialFault?_eq_none, stateFault?_eq_none, rowFault?_eq_none, OrderedSet.mem_toList, OrderedSet.mem_ofList]

/-- The parts of a description as an automaton, whether or not they fit together. -/
def automaton (d : Description) : Automaton where
  states := .ofList d.states
  alphabet := .ofList d.alphabet
  transitions := .ofList (d.transitions.flatMap fun r => r.targets.map (⟨r.departure, ·⟩))
  rows := .ofList (d.transitions.map Row.departure)
  initial := d.initial
  finals := .ofList d.finals

theorem mem_automaton_transitions {t : Transition} :
    t ∈ d.automaton.transitions ↔ ∃ r ∈ d.transitions, r.departure = t.toDeparture ∧ t.target ∈ r.targets := by
  simp only [automaton, OrderedSet.mem_ofList, List.mem_flatMap, List.mem_map]
  constructor
  · rintro ⟨r, hr, q, hq, rfl⟩
    exact ⟨r, hr, rfl, hq⟩
  · rintro ⟨r, hr, hd, hq⟩
    exact ⟨r, hr, t.target, hq, by rw [hd]⟩

theorem mem_automaton_rows {e : Departure} : e ∈ d.automaton.rows ↔ ∃ r ∈ d.transitions, r.departure = e := by
  simp [automaton]

theorem automaton_valid (h : d.fault? = none) : d.automaton.Valid := by
  obtain ⟨hletters, hinitial, hfinals, hrows⟩ := fault?_eq_none.1 h
  constructor
  · intro a ha
    exact hletters a (OrderedSet.mem_ofList.1 ha)
  · exact OrderedSet.mem_ofList.2 hinitial
  · intro q hq
    exact OrderedSet.mem_ofList.2 (hfinals q (OrderedSet.mem_ofList.1 hq))
  · intro t ht
    obtain ⟨r, hr, -, hq⟩ := mem_automaton_transitions.1 ht
    exact OrderedSet.mem_ofList.2 ((hrows r hr).target_mem t.target hq)
  · intro t ht
    obtain ⟨r, hr, hd, -⟩ := mem_automaton_transitions.1 ht
    exact mem_automaton_rows.2 ⟨r, hr, hd⟩
  · intro e he
    obtain ⟨r, hr, rfl⟩ := mem_automaton_rows.1 he
    exact OrderedSet.mem_ofList.2 (hrows r hr).source_mem
  · intro e he a hl
    obtain ⟨r, hr, rfl⟩ := mem_automaton_rows.1 he
    exact OrderedSet.mem_ofList.2 ((hrows r hr).label_mem a hl)

end Description

theorem Label.ofText_text {l : Label} (h : ∀ a, l = .letter a → a ≠ "" ∧ a ∉ epsilonNames) : ofText l.text = l := by
  cases l with
  | empty => rfl
  | letter a =>
      obtain ⟨hne, hn⟩ := h a rfl
      exact if_neg (not_or.2 ⟨hne, hn⟩)

namespace Automaton

variable {d : Description} {fa : Automaton}

theorem ofDescription_eq_ok : ofDescription d = .ok fa ↔ d.fault? = none ∧ d.automaton = fa := by
  rw [ofDescription]
  cases hf : d.fault? with
  | some e => simp only [reduceCtorEq, false_and]
  | none =>
      change Except.ok d.automaton = Except.ok fa ↔ _
      rw [Except.ok.injEq, and_iff_right rfl]

theorem ofDescription_valid (h : ofDescription d = .ok fa) : fa.Valid := by
  obtain ⟨hf, rfl⟩ := ofDescription_eq_ok.1 h
  exact Description.automaton_valid hf

theorem mem_targets {d : Departure} {q : String} : q ∈ fa.targets d ↔ ⟨d, q⟩ ∈ fa.transitions := by
  simp only [targets, OrderedSet.mem_ofList, List.mem_map, List.mem_filter, decide_eq_true_eq, OrderedSet.mem_toList]
  constructor
  · rintro ⟨⟨_, _⟩, ⟨ht, rfl⟩, rfl⟩
    exact ht
  · intro ht
    exact ⟨_, ⟨ht, rfl⟩, rfl⟩

theorem Valid.ofText_text (hv : fa.Valid) {d : Departure} (hd : d ∈ fa.rows) : Label.ofText d.label.text = d.label :=
  Label.ofText_text fun a ha => hv.letters a (hv.label_mem d hd a ha)

theorem Valid.description_fault?_eq_none (hv : fa.Valid) : fa.description.fault? = none := by
  refine Description.fault?_eq_none.2 ⟨hv.letters, hv.initial_mem, hv.finals_mem, fun r hr => ?_⟩
  obtain ⟨d, hd, rfl⟩ := List.mem_map.1 hr
  refine ⟨hv.source_mem d hd, fun a ha => ?_, fun q hq => hv.target_mem _ (mem_targets.1 hq)⟩
  exact hv.label_mem d hd a ((hv.ofText_text hd).symm.trans ha)

theorem Valid.exists_row_iff (hv : fa.Valid) {P : Departure → List String → Prop} :
    (∃ r ∈ fa.description.transitions, P r.departure r.targets) ↔ ∃ d ∈ fa.rows, P d (fa.targets d).toList := by
  constructor
  · rintro ⟨r, hr, hp⟩
    obtain ⟨d, hd, rfl⟩ := List.mem_map.1 hr
    rw [Row.departure, hv.ofText_text hd] at hp
    exact ⟨d, hd, hp⟩
  · rintro ⟨d, hd, hp⟩
    refine ⟨_, List.mem_map_of_mem hd, ?_⟩
    rw [Row.departure, hv.ofText_text hd]
    exact hp

theorem Valid.description_automaton (hv : fa.Valid) : fa.description.automaton = fa := by
  apply eq_of_mem_iff
  case transitions =>
    intro t
    rw [Description.mem_automaton_transitions,
      hv.exists_row_iff (P := fun d qs => d = t.toDeparture ∧ t.target ∈ qs)]
    constructor
    · rintro ⟨_, -, rfl, hq⟩
      exact mem_targets.1 hq
    · intro ht
      exact ⟨t.toDeparture, hv.departure_mem t ht, rfl, mem_targets.2 ht⟩
  case rows =>
    intro e
    rw [Description.mem_automaton_rows, hv.exists_row_iff (P := fun d _ => d = e), exists_eq_right]
  case initial => rfl
  all_goals simp [Description.automaton, description]

/-- A valid automaton is read back from its description, rows without targets included. -/
theorem Valid.ofDescription_description (hv : fa.Valid) : ofDescription fa.description = .ok fa :=
  ofDescription_eq_ok.2 ⟨hv.description_fault?_eq_none, hv.description_automaton⟩

end Automaton

end NormalForms
