import NormalForms.Automaton.Run
import NormalForms.Proofs.Reach

namespace NormalForms.Automaton

variable {fa : Automaton} {states : OrderedSet String}

theorem mem_emptyMoves {p q : String} : (p, q) ∈ fa.emptyMoves ↔ ⟨⟨p, .empty⟩, q⟩ ∈ fa.transitions := by
  simp only [emptyMoves, List.mem_map, List.mem_filter, decide_eq_true_eq, Prod.mk.injEq, OrderedSet.mem_toList]
  constructor
  · rintro ⟨⟨⟨_, _⟩, _⟩, ⟨ht, rfl⟩, rfl, rfl⟩
    exact ht
  · intro ht
    exact ⟨_, ⟨ht, rfl⟩, rfl, rfl⟩

theorem mem_closure {q : String} : q ∈ fa.closure states ↔ ∃ p ∈ states, Leads fa.emptyMoves p q := by
  rw [closure, OrderedSet.mem_ofList, mem_reach]
  rfl

theorem mem_move {a q : String} :
    q ∈ fa.move states a ↔ ∃ p ∈ states, ⟨⟨p, .letter a⟩, q⟩ ∈ fa.transitions := by
  simp only [move, OrderedSet.mem_ofList, List.mem_map, List.mem_filter, decide_eq_true_eq, OrderedSet.mem_toList]
  constructor
  · rintro ⟨⟨⟨p, _⟩, _⟩, ⟨ht, hp, rfl⟩, rfl⟩
    exact ⟨p, hp, ht⟩
  · rintro ⟨p, hp, ht⟩
    exact ⟨_, ⟨ht, hp, rfl⟩, rfl⟩

theorem mem_next {a q : String} :
    q ∈ fa.next states a ↔ ∃ p ∈ states, ∃ r, ⟨⟨p, .letter a⟩, r⟩ ∈ fa.transitions ∧ Leads fa.emptyMoves r q := by
  rw [next, mem_closure]
  constructor
  · rintro ⟨r, hr, hl⟩
    obtain ⟨p, hp, ht⟩ := mem_move.1 hr
    exact ⟨p, hp, r, ht, hl⟩
  · rintro ⟨p, hp, r, ht, hl⟩
    exact ⟨r, mem_move.2 ⟨p, hp, ht⟩, hl⟩

theorem mem_initialStates {q : String} : q ∈ fa.initialStates ↔ Leads fa.emptyMoves fa.initial q := by
  simp [initialStates, mem_closure]

theorem initialStates_ne_empty : fa.initialStates ≠ ∅ :=
  OrderedSet.ne_empty_of_mem (mem_initialStates.2 .refl)

theorem closure_eq_self (h : ∀ t ∈ fa.transitions, t.label ≠ .empty) : fa.closure states = states := by
  refine OrderedSet.ext_mem fun q => ?_
  rw [mem_closure]
  constructor
  · rintro ⟨p, hp, hl⟩
    rwa [hl.eq_of_no_edge fun ⟨_, _⟩ he _ => h _ (mem_emptyMoves.1 he) rfl]
  · exact fun hq => ⟨q, hq, .refl⟩

theorem next_empty (a : String) : fa.next ∅ a = ∅ := by
  refine OrderedSet.ext_mem fun q => ?_
  simp [mem_next]

theorem acceptsFrom_empty (word : List String) : fa.acceptsFrom ∅ word = false := by
  induction word with
  | nil => rfl
  | cons a word ih => rw [acceptsFrom, next_empty, ih, Bool.and_false]

/-- Acceptance may be cut at any point of a word, at the states in which the first part leaves the automaton. -/
theorem acceptsFrom_append (fa : Automaton) (states : OrderedSet String) (seen rest : List String) :
    fa.acceptsFrom states (seen ++ rest) =
      (seen.all (· ∈ fa.alphabet) && fa.acceptsFrom (seen.foldl fa.next states) rest) := by
  induction seen generalizing states with
  | nil => rfl
  | cons a seen ih => rw [List.cons_append, acceptsFrom, ih, List.all_cons, List.foldl_cons, Bool.and_assoc]

namespace Valid

theorem mem_states_of_leads (h : fa.Valid) {p q : String} (hp : p ∈ fa.states) (hl : Leads fa.emptyMoves p q) :
    q ∈ fa.states := by
  rcases Relation.ReflTransGen.cases_tail hl with rfl | ⟨r, -, he⟩
  · exact hp
  · exact h.target_mem _ (mem_emptyMoves.1 he)

theorem initialStates_subset (h : fa.Valid) : ∀ q ∈ fa.initialStates, q ∈ fa.states :=
  fun _ hq => h.mem_states_of_leads h.initial_mem (mem_initialStates.1 hq)

theorem next_subset (h : fa.Valid) (a : String) : ∀ q ∈ fa.next states a, q ∈ fa.states := by
  intro q hq
  obtain ⟨p, -, r, ht, hl⟩ := mem_next.1 hq
  exact h.mem_states_of_leads (h.target_mem _ ht) hl

end Valid

end NormalForms.Automaton
