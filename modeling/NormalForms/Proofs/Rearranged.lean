import Mathlib.Logic.Relation
import NormalForms.Proofs.Assembly

namespace NormalForms

namespace Description

variable {d : Description}

/-- A description is without fault if the automaton that its parts make up is valid. -/
theorem fault?_eq_none_iff_valid : d.fault? = none ↔ d.automaton.Valid := by
  refine ⟨automaton_valid, fun hv => fault?_eq_none.2 ⟨fun a ha => ?_, ?_, fun q hq => ?_, fun r hr => ?_⟩⟩
  · exact hv.letters a (OrderedSet.mem_ofList.2 ha)
  · exact OrderedSet.mem_ofList.1 hv.initial_mem
  · exact OrderedSet.mem_ofList.1 (hv.finals_mem q (OrderedSet.mem_ofList.2 hq))
  · have hrow : r.departure ∈ d.automaton.rows := mem_automaton_rows.2 ⟨r, hr, rfl⟩
    refine ⟨OrderedSet.mem_ofList.1 (hv.source_mem _ hrow), fun a ha => ?_, fun q hq => ?_⟩
    · exact OrderedSet.mem_ofList.1 (hv.label_mem _ hrow a ha)
    · exact OrderedSet.mem_ofList.1 (hv.target_mem ⟨r.departure, q⟩ (mem_automaton_transitions.2 ⟨r, hr, rfl, hq⟩))

end Description

inductive Label.Spelled : Label → String → Prop
  | nothing : Spelled .empty ""
  | named {text : String} : text ∈ epsilonNames → Spelled .empty text
  | letter {a : String} : a ≠ "" → a ∉ epsilonNames → Spelled (.letter a) a

theorem Label.ofText_eq_iff {text : String} {l : Label} : ofText text = l ↔ l.Spelled text := by
  constructor
  · rintro rfl
    unfold ofText
    split
    · rename_i h
      rcases h with rfl | h
      · exact .nothing
      · exact .named h
    · rename_i h
      exact .letter (fun he => h (.inl he)) fun hn => h (.inr hn)
  · rintro (_ | h | ⟨hne, hn⟩)
    · exact ofText_eq_empty.2 (.inl rfl)
    · exact ofText_eq_empty.2 (.inr h)
    · exact if_neg (not_or.2 ⟨hne, hn⟩)

instance (l : Label) (text : String) : Decidable (l.Spelled text) :=
  decidable_of_iff _ Label.ofText_eq_iff

theorem Row.departure_eq_iff {r : Row} {q : String} {l : Label} :
    r.departure = ⟨q, l⟩ ↔ r.source = q ∧ l.Spelled r.label := by
  rw [Row.departure, Departure.mk.injEq, Label.ofText_eq_iff]

namespace Description

variable {d e : Description}

/-- One of the changes that a description can undergo without saying anything else: what is listed is listed in another
order or another number of times, the targets of a row are given in several rows, or the empty label is spelled in
another way. -/
inductive Rearranged (d : Description) : Description → Prop
  | states {l : List String} : (∀ q, q ∈ l ↔ q ∈ d.states) → Rearranged d { d with states := l }
  | alphabet {l : List String} : (∀ a, a ∈ l ↔ a ∈ d.alphabet) → Rearranged d { d with alphabet := l }
  | finals {l : List String} : (∀ q, q ∈ l ↔ q ∈ d.finals) → Rearranged d { d with finals := l }
  | rows {l : List Row} : (∀ r, r ∈ l ↔ r ∈ d.transitions) → Rearranged d { d with transitions := l }
  | split {before after : List Row} {r : Row} {parts : List (List String)} :
      d.transitions = before ++ r :: after → parts ≠ [] → (∀ q, q ∈ r.targets ↔ ∃ part ∈ parts, q ∈ part) →
      Rearranged d { d with transitions := before ++ parts.map ({ r with targets := · }) ++ after }
  | respell {before after : List Row} {r : Row} {label : String} :
      d.transitions = before ++ r :: after → Label.Spelled .empty r.label → Label.Spelled .empty label →
      Rearranged d { d with transitions := before ++ { r with label } :: after }

/-- The automaton depends on which departures the rows name and on the targets that they give them. -/
theorem automaton_eq_of_rows {l : List Row}
    (hrows : ∀ x, (∃ r ∈ l, r.departure = x) ↔ ∃ r ∈ d.transitions, r.departure = x)
    (htargets : ∀ x q, (∃ r ∈ l, r.departure = x ∧ q ∈ r.targets) ↔ ∃ r ∈ d.transitions, r.departure = x ∧ q ∈ r.targets) :
    (d.withRows l).automaton = d.automaton := by
  apply Automaton.eq_of_mem_iff
  case transitions =>
    intro t
    rw [mem_automaton_transitions, mem_automaton_transitions]
    exact htargets t.toDeparture t.target
  case rows =>
    intro x
    rw [mem_automaton_rows, mem_automaton_rows]
    exact hrows x
  all_goals intros; rfl

theorem automaton_eq_of_row {before after rows : List Row} {r : Row} (hd : d.transitions = before ++ r :: after)
    (hrows : ∀ x, (∃ s ∈ rows, s.departure = x) ↔ r.departure = x)
    (htargets : ∀ x q, (∃ s ∈ rows, s.departure = x ∧ q ∈ s.targets) ↔ r.departure = x ∧ q ∈ r.targets) :
    (d.withRows (before ++ rows ++ after)).automaton = d.automaton := by
  apply automaton_eq_of_rows
  · intro x
    simp only [hd, List.mem_append, List.mem_cons, or_and_right, exists_or, exists_eq_left, hrows, or_assoc]
  · intro x q
    simp only [hd, List.mem_append, List.mem_cons, or_and_right, exists_or, exists_eq_left, htargets, or_assoc]

theorem Rearranged.automaton_eq (h : d.Rearranged e) : e.automaton = d.automaton := by
  cases h with
  | states h => simp only [automaton, OrderedSet.ofList_congr h]
  | alphabet h => simp only [automaton, OrderedSet.ofList_congr h]
  | finals h => simp only [automaton, OrderedSet.ofList_congr h]
  | rows h => exact automaton_eq_of_rows (by simp [h]) (by simp [h])
  | @split _ _ r parts hd hne hparts =>
      obtain ⟨part, more, rfl⟩ := List.exists_cons_of_ne_nil hne
      refine automaton_eq_of_row hd (fun x => ?_) fun x q => ?_
      · simp [Row.departure]
      · rw [hparts]
        constructor
        · rintro ⟨s, hs, hx, hq⟩
          obtain ⟨part, hm, rfl⟩ := List.mem_map.1 hs
          exact ⟨hx, part, hm, hq⟩
        · rintro ⟨hx, part, hm, hq⟩
          exact ⟨_, List.mem_map_of_mem hm, hx, hq⟩
  | @respell before after r label hd hr hl =>
      have hlabel : ({ r with label } : Row).departure = r.departure := by
        simp only [Row.departure, Label.ofText_eq_iff.2 hr, Label.ofText_eq_iff.2 hl]
      have h : (d.withRows (before ++ [{ r with label }] ++ after)).automaton = d.automaton :=
        automaton_eq_of_row hd (fun x => by simp [hlabel]) fun x q => by simp [hlabel]
      rwa [List.append_assoc, List.singleton_append] at h

theorem automaton_eq_of_eqvGen (h : Relation.EqvGen Rearranged d e) : e.automaton = d.automaton := by
  induction h with
  | rel _ _ h => exact h.automaton_eq
  | refl => rfl
  | symm _ _ _ ih => exact ih.symm
  | trans _ _ _ _ _ ih ih' => exact ih'.trans ih

theorem exists_automaton_iff : (∃ fa, Automaton.ofDescription d = .ok fa) ↔ d.fault? = none := by
  simp [Automaton.ofDescription_eq_ok]

theorem allows_iff {r : Row} : d.Allows r ↔
    r.source ∈ d.states ∧ (r.label = "" ∨ r.label ∈ epsilonNames ∨ r.label ∈ d.alphabet) ∧
      ∀ q ∈ r.targets, q ∈ d.states := by
  have hlabel : (∀ a, Label.ofText r.label = .letter a → a ∈ d.alphabet) ↔
      r.label = "" ∨ r.label ∈ epsilonNames ∨ r.label ∈ d.alphabet := by
    by_cases he : r.label = "" ∨ r.label ∈ epsilonNames
    · simp [Label.ofText_eq_empty.2 he, ← or_assoc, he]
    · have hl : Label.ofText r.label = .letter r.label := if_neg he
      simp [hl, ← or_assoc, he]
  rw [← hlabel]
  exact ⟨fun h => ⟨h.source_mem, h.label_mem, h.target_mem⟩, fun ⟨hs, hl, ht⟩ => ⟨hs, hl, ht⟩⟩

end Description

namespace Automaton

open Description

/-- A description is taken if and only if each of its names is declared where it has to be, and then what is stored for
a state and a label is what the rows for them give together. It makes no difference whether the automaton is made at once
or grows row by row, nor how often, in which order, in how many rows and in which spelling of the empty label it is all
said. -/
theorem ofDescription_correct (d : Description) :
    assemble d = ofDescription d ∧
    ((∃ fa, ofDescription d = .ok fa) ↔
      (∀ a ∈ d.alphabet, a ≠ "" ∧ a ∉ epsilonNames) ∧ d.initial ∈ d.states ∧ (∀ q ∈ d.finals, q ∈ d.states) ∧
      ∀ r ∈ d.transitions, r.source ∈ d.states ∧ (r.label = "" ∨ r.label ∈ epsilonNames ∨ r.label ∈ d.alphabet) ∧
        ∀ q ∈ r.targets, q ∈ d.states) ∧
    (∀ fa, ofDescription d = .ok fa →
      ((∀ q, q ∈ fa.states ↔ q ∈ d.states) ∧ (∀ a, a ∈ fa.alphabet ↔ a ∈ d.alphabet) ∧ fa.initial = d.initial ∧
        ∀ q, q ∈ fa.finals ↔ q ∈ d.finals) ∧
      ∀ q l, (⟨q, l⟩ ∈ fa.rows ↔ ∃ r ∈ d.transitions, r.source = q ∧ l.Spelled r.label) ∧
        ∀ p, p ∈ fa.targets ⟨q, l⟩ ↔ ∃ r ∈ d.transitions, r.source = q ∧ l.Spelled r.label ∧ p ∈ r.targets) ∧
    ∀ e, Relation.EqvGen Rearranged d e → ∀ fa, ofDescription d = .ok fa ↔ ofDescription e = .ok fa := by
  refine ⟨assemble_eq d, ?_, fun fa h => ?_, fun e h fa => ?_⟩
  · simp only [exists_automaton_iff, fault?_eq_none, allows_iff]
  · obtain ⟨-, rfl⟩ := ofDescription_eq_ok.1 h
    refine ⟨⟨fun q => OrderedSet.mem_ofList, fun a => OrderedSet.mem_ofList, rfl, fun q => OrderedSet.mem_ofList⟩,
      fun q l => ⟨?_, fun p => ?_⟩⟩
    · simp only [mem_automaton_rows, Row.departure_eq_iff]
    · simp only [mem_targets, mem_automaton_transitions, Row.departure_eq_iff, and_assoc]
  · rw [ofDescription_eq_ok, ofDescription_eq_ok, fault?_eq_none_iff_valid, fault?_eq_none_iff_valid,
      automaton_eq_of_eqvGen h]

def repeating : Description where
  states := ["q", "p", "q"]
  alphabet := ["a"]
  transitions := [⟨"p", "ε", ["q"]⟩, ⟨"q", "a", []⟩, ⟨"p", "", ["p", "q"]⟩]
  initial := "p"
  finals := ["q", "q"]

def concise : Description where
  states := ["p", "q"]
  alphabet := ["a"]
  transitions := [⟨"q", "a", []⟩, ⟨"p", "epsilon", ["q", "p"]⟩]
  initial := "p"
  finals := ["q"]

theorem concise_eqvGen : Relation.EqvGen Rearranged repeating concise := by
  let d₁ : Description := { repeating with states := ["p", "q"] }
  let d₂ : Description := { d₁ with finals := ["q"] }
  let d₃ : Description := { d₂ with transitions := [⟨"q", "a", []⟩, ⟨"p", "ε", ["q"]⟩, ⟨"p", "", ["p", "q"]⟩] }
  let d₄ : Description :=
    { d₂ with transitions := [⟨"q", "a", []⟩, ⟨"p", "epsilon", ["q"]⟩, ⟨"p", "", ["p", "q"]⟩] }
  let d₅ : Description :=
    { d₂ with transitions := [⟨"q", "a", []⟩, ⟨"p", "epsilon", ["q"]⟩, ⟨"p", "epsilon", ["p", "q"]⟩] }
  have h₁ : Rearranged repeating d₁ := .states (by simp [repeating, or_comm])
  have h₂ : Rearranged d₁ d₂ := .finals (by simp [d₁, repeating])
  have h₃ : Rearranged d₂ d₃ := .rows (by simp [d₂, d₁, repeating, or_left_comm])
  have h₄ : Rearranged d₃ d₄ :=
    @Rearranged.respell _ [⟨"q", "a", []⟩] _ ⟨"p", "ε", ["q"]⟩ _ rfl (by decide) (by decide)
  have h₅ : Rearranged d₄ d₅ :=
    @Rearranged.respell _ [⟨"q", "a", []⟩, ⟨"p", "epsilon", ["q"]⟩] _ ⟨"p", "", ["p", "q"]⟩ _ rfl (by decide)
      (by decide)
  have h₆ : Rearranged concise d₅ :=
    @Rearranged.split _ [⟨"q", "a", []⟩] _ ⟨"p", "epsilon", ["q", "p"]⟩ [["q"], ["p", "q"]] rfl (by decide)
      (by simp [or_comm])
  exact .trans _ _ _ (.rel _ _ h₁) (.trans _ _ _ (.rel _ _ h₂) (.trans _ _ _ (.rel _ _ h₃) (.trans _ _ _ (.rel _ _ h₄)
    (.trans _ _ _ (.rel _ _ h₅) (.symm _ _ (.rel _ _ h₆))))))

theorem repeating_ofDescription : ∃ fa, ofDescription repeating = .ok fa ∧ ofDescription concise = .ok fa ∧
    assemble repeating = .ok fa ∧ "p" ∈ fa.targets ⟨"p", .empty⟩ ∧ "q" ∈ fa.targets ⟨"p", .empty⟩ ∧
    ⟨"q", .letter "a"⟩ ∈ fa.rows ∧ ⟨"p", .letter "a"⟩ ∉ fa.rows := by
  obtain ⟨hassemble, haccepted, hstored, hsame⟩ := ofDescription_correct repeating
  obtain ⟨fa, hfa⟩ := haccepted.2 (by decide)
  have hrows := (hstored fa hfa).2
  refine ⟨fa, hfa, (hsame concise concise_eqvGen fa).1 hfa, hassemble.trans hfa, ?_, ?_, ?_, ?_⟩
  · rw [(hrows "p" .empty).2]
    decide
  · rw [(hrows "p" .empty).2]
    decide
  · rw [(hrows "q" (.letter "a")).1]
    decide
  · rw [(hrows "p" (.letter "a")).1]
    decide

end Automaton

end NormalForms
