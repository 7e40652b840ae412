import NormalForms.Proofs.StateAutomaton
import NormalForms.Proofs.Worklist

namespace NormalForms

def Departure.renamed (f : String → String) (d : Departure) : Departure :=
  ⟨f d.source, d.label⟩

def Transition.renamed (f : String → String) (t : Transition) : Transition :=
  ⟨t.toDeparture.renamed f, f t.target⟩

namespace Automaton

def renamed (f : String → String) (fa : Automaton) : Automaton where
  states := fa.states.map f
  alphabet := fa.alphabet
  transitions := fa.transitions.map (Transition.renamed f)
  rows := fa.rows.map (Departure.renamed f)
  initial := f fa.initial
  finals := fa.finals.map f

def hops (fa : Automaton) : List (String × String) :=
  fa.transitions.toList.map fun t => (t.source, t.target)

def reachable (fa : Automaton) : List String :=
  reach fa.hops [fa.initial]

def reachablePart (fa : Automaton) : Automaton where
  states := fa.states.filter (· ∈ fa.reachable)
  alphabet := fa.alphabet
  transitions := fa.transitions.filter (·.source ∈ fa.reachable)
  rows := fa.rows.filter (·.source ∈ fa.reachable)
  initial := fa.initial
  finals := fa.finals.filter (· ∈ fa.reachable)

variable {fa : Automaton} {p q : String}

theorem mem_hops : (p, q) ∈ fa.hops ↔ ∃ t ∈ fa.transitions, t.source = p ∧ t.target = q := by
  simp [hops, OrderedSet.mem_toList]

theorem leads_hops_iff : Leads fa.hops p q ↔ ∃ word, fa.Path p word q := by
  constructor
  · intro hl
    induction hl using Relation.ReflTransGen.head_induction_on with
    | refl => exact ⟨[], .refl q⟩
    | head he _ ih =>
        obtain ⟨t, ht, rfl, rfl⟩ := mem_hops.1 he
        obtain ⟨word, hq⟩ := ih
        exact ⟨t.label.word ++ word, .step ht hq⟩
  · rintro ⟨word, hq⟩
    induction hq with
    | refl => exact .refl
    | step ht _ ih => exact .head (mem_hops.2 ⟨_, ht, rfl, rfl⟩) ih

theorem mem_reachable_iff_leads : q ∈ fa.reachable ↔ Leads fa.hops fa.initial q := by
  simp [reachable, mem_reach]

theorem mem_reachable : q ∈ fa.reachable ↔ ∃ word, fa.Path fa.initial word q :=
  mem_reachable_iff_leads.trans leads_hops_iff

theorem initial_mem_reachable (fa : Automaton) : fa.initial ∈ fa.reachable :=
  mem_reachable.2 ⟨[], .refl _⟩

theorem target_mem_reachable {t : Transition} (ht : t ∈ fa.transitions) (hs : t.source ∈ fa.reachable) :
    t.target ∈ fa.reachable :=
  mem_reachable_iff_leads.2 (.tail (mem_reachable_iff_leads.1 hs) (mem_hops.2 ⟨t, ht, rfl, rfl⟩))

theorem Valid.mem_states_of_mem_reachable (hv : fa.Valid) (hq : q ∈ fa.reachable) : q ∈ fa.states := by
  rcases Relation.ReflTransGen.cases_tail (mem_reachable_iff_leads.1 hq) with rfl | ⟨p, -, he⟩
  · exact hv.initial_mem
  · obtain ⟨t, ht, -, rfl⟩ := mem_hops.1 he
    exact hv.target_mem t ht

theorem Valid.mem_reachablePart_states (hv : fa.Valid) : q ∈ fa.reachablePart.states ↔ q ∈ fa.reachable := by
  simpa [reachablePart] using hv.mem_states_of_mem_reachable

theorem mem_reachablePart_transitions {t : Transition} :
    t ∈ fa.reachablePart.transitions ↔ t ∈ fa.transitions ∧ t.source ∈ fa.reachable := by
  simp [reachablePart]

theorem Valid.reachablePart (hv : fa.Valid) : fa.reachablePart.Valid where
  letters := hv.letters
  initial_mem := hv.mem_reachablePart_states.2 fa.initial_mem_reachable
  finals_mem q hq := hv.mem_reachablePart_states.2 (of_decide_eq_true (OrderedSet.mem_filter.1 hq).2)
  target_mem t ht := by
    obtain ⟨ht, hr⟩ := mem_reachablePart_transitions.1 ht
    exact hv.mem_reachablePart_states.2 (target_mem_reachable ht hr)
  departure_mem t ht := by
    obtain ⟨ht, hr⟩ := mem_reachablePart_transitions.1 ht
    exact OrderedSet.mem_filter.2 ⟨hv.departure_mem t ht, decide_eq_true hr⟩
  source_mem d hd := hv.mem_reachablePart_states.2 (of_decide_eq_true (OrderedSet.mem_filter.1 hd).2)
  label_mem d hd := hv.label_mem d (OrderedSet.mem_filter.1 hd).1

theorem Valid.reachablePart_eq_self (hv : fa.Valid) (h : ∀ q ∈ fa.states, q ∈ fa.reachable) :
    fa.reachablePart = fa := by
  have hsource : ∀ t ∈ fa.transitions, t.source ∈ fa.states :=
    fun t ht => hv.source_mem _ (hv.departure_mem t ht)
  rw [Automaton.reachablePart]
  congr 1
  · exact OrderedSet.filter_eq_self fun q hq => decide_eq_true (h q hq)
  · exact OrderedSet.filter_eq_self fun t ht => decide_eq_true (h _ (hsource t ht))
  · exact OrderedSet.filter_eq_self fun d hd => decide_eq_true (h _ (hv.source_mem d hd))
  · exact OrderedSet.filter_eq_self fun q hq => decide_eq_true (h q (hv.finals_mem q hq))

theorem Valid.renamed_eq_self (hv : fa.Valid) {f : String → String} (h : ∀ q ∈ fa.states, f q = q) :
    fa.renamed f = fa := by
  have hdeparture : ∀ d ∈ fa.rows, d.renamed f = d := by
    intro d hd
    rw [Departure.renamed, h _ (hv.source_mem d hd)]
  rw [renamed]
  congr 1
  · exact OrderedSet.map_eq_self h
  · refine OrderedSet.map_eq_self fun t ht => ?_
    rw [Transition.renamed, hdeparture _ (hv.departure_mem t ht), h _ (hv.target_mem t ht)]
  · exact OrderedSet.map_eq_self hdeparture
  · exact h _ hv.initial_mem
  · exact OrderedSet.map_eq_self fun q hq => h q (hv.finals_mem q hq)

/-- The states in which a word leaves the automaton are the ends of the paths that read it. -/
theorem mem_statesAfter {word : List String} : q ∈ fa.statesAfter word ↔ fa.Path fa.initial word q :=
  (mem_foldl_next (fa.closed_closure _)).trans exists_path_from_initialStates

end Automaton

end NormalForms
