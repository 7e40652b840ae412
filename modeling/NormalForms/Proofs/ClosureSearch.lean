import Mathlib.Data.List.Perm.Subperm
import Mathlib.Logic.Function.Iterate
import Mathlib.Order.Bounds.Basic
import NormalForms.Proofs.Conversions
import NormalForms.Proofs.Path

namespace NormalForms.Automaton

variable {fa : Automaton} {s : ClosureSearch} {states visited : OrderedSet String} {q : String} {stack : List String}

theorem pop_of_stack_nil (h : s.stack = []) : fa.pop s = s := by
  rw [pop, h]

theorem pop_of_mem (h : q ∈ visited) : fa.pop ⟨visited, q :: stack⟩ = ⟨visited, stack⟩ :=
  if_pos h

theorem pop_of_not_mem (h : q ∉ visited) :
    fa.pop ⟨visited, q :: stack⟩ = ⟨visited.insert q, fa.pushed q (visited.insert q) ++ stack⟩ :=
  if_neg h

theorem mem_pushed {p : String} : p ∈ fa.pushed q visited ↔ (q, p) ∈ fa.emptyMoves ∧ p ∉ visited := by
  simp only [pushed, List.mem_reverse, List.mem_filter, decide_eq_true_eq, OrderedSet.mem_toList, mem_targets,
    mem_emptyMoves]

/-- What the search keeps: nothing is lost between the states visited and the stack, and nothing gets there from
elsewhere. -/
structure Searching (fa : Automaton) (states : OrderedSet String) (s : ClosureSearch) : Prop where
  sources : ∀ q ∈ states, q ∈ s.visited ∨ q ∈ s.stack
  moves : ∀ p ∈ s.visited, ∀ q, (p, q) ∈ fa.emptyMoves → q ∈ s.visited ∨ q ∈ s.stack
  sound : ∀ q, q ∈ s.visited ∨ q ∈ s.stack → q ∈ fa.closure states

theorem searching_opening (fa : Automaton) (states : OrderedSet String) : fa.Searching states (.opening states) where
  sources q hq := .inr (List.mem_reverse.2 hq)
  moves p hp := absurd hp (OrderedSet.not_mem_empty p)
  sound q hq := by
    have hq := hq.resolve_left (OrderedSet.not_mem_empty q)
    exact mem_closure.2 ⟨q, List.mem_reverse.1 hq, .refl⟩

theorem Searching.skip (h : fa.Searching states ⟨visited, q :: stack⟩) (hq : q ∈ visited) :
    fa.Searching states ⟨visited, stack⟩ := by
  have hmem : ∀ p, p ∈ visited ∨ p ∈ q :: stack ↔ p ∈ visited ∨ p ∈ stack := by
    intro p
    rw [List.mem_cons]
    constructor
    · rintro (hp | rfl | hp)
      · exact .inl hp
      · exact .inl hq
      · exact .inr hp
    · exact fun hp => hp.imp_right .inr
  constructor
  case sources => exact fun p hp => (hmem p).1 (h.sources p hp)
  case moves => exact fun r hr p he => (hmem p).1 (h.moves r hr p he)
  case sound => exact fun p hp => h.sound p ((hmem p).2 hp)

theorem Searching.visit (h : fa.Searching states ⟨visited, q :: stack⟩) :
    fa.Searching states ⟨visited.insert q, fa.pushed q (visited.insert q) ++ stack⟩ := by
  have hkept : ∀ p, p ∈ visited ∨ p ∈ q :: stack →
      p ∈ visited.insert q ∨ p ∈ fa.pushed q (visited.insert q) ++ stack := by
    intro p hp
    rw [OrderedSet.mem_insert, List.mem_append]
    rw [List.mem_cons] at hp
    tauto
  constructor
  case sources => exact fun p hp => hkept p (h.sources p hp)
  case moves =>
    intro r hr p he
    rcases OrderedSet.mem_insert.1 hr with rfl | hr
    · by_cases hp : p ∈ visited.insert r
      · exact .inl hp
      · exact .inr (List.mem_append_left _ (mem_pushed.2 ⟨he, hp⟩))
    · exact hkept p (h.moves r hr p he)
  case sound =>
    have hq := h.sound q (.inr List.mem_cons_self)
    rintro p (hp | hp)
    · rcases OrderedSet.mem_insert.1 hp with rfl | hp
      · exact hq
      · exact h.sound p (.inl hp)
    · rcases List.mem_append.1 hp with hp | hp
      · exact fa.closed_closure states q hq p (.single (mem_pushed.1 hp).1)
      · exact h.sound p (.inr (List.mem_cons_of_mem q hp))

theorem Searching.pop (h : fa.Searching states s) : fa.Searching states (fa.pop s) := by
  obtain ⟨visited, stack⟩ := s
  cases stack with
  | nil => exact h
  | cons q stack =>
      by_cases hq : q ∈ visited
      · rw [pop_of_mem hq]
        exact h.skip hq
      · rw [pop_of_not_mem hq]
        exact h.visit

theorem Searching.iterate (h : fa.Searching states s) (n : Nat) : fa.Searching states (fa.pop^[n] s) := by
  induction n with
  | zero => exact h
  | succ n ih =>
      rw [Function.iterate_succ_apply']
      exact ih.pop

/-- When the stack is empty, the states visited are the closure, since the empty moves do not lead out of them. -/
theorem Searching.visited_eq (h : fa.Searching states s) (hs : s.stack = []) : s.visited = fa.closure states := by
  have hmem : ∀ q, q ∈ s.visited ∨ q ∈ s.stack ↔ q ∈ s.visited := by simp [hs]
  refine OrderedSet.ext_mem fun q => ⟨fun hq => h.sound q (.inl hq), fun hq => ?_⟩
  obtain ⟨p, hp, hl⟩ := mem_closure.1 hq
  induction hl with
  | refl => exact (hmem p).1 (h.sources p hp)
  | @tail r q hl he ih => exact (hmem q).1 (h.moves r (ih (mem_closure.2 ⟨p, hp, hl⟩)) q he)

def unfollowed (fa : Automaton) (visited : OrderedSet String) : List (String × String) :=
  fa.emptyMoves.filter (·.1 ∉ visited)

theorem unfollowed_insert (q : String) (visited : OrderedSet String) :
    fa.unfollowed (visited.insert q) = withoutSource q (fa.unfollowed visited) := by
  rw [unfollowed, unfollowed, withoutSource, List.filter_filter]
  apply List.filter_congr
  intro e _
  simp [not_or]

theorem length_pushed_le (h : q ∉ visited) :
    (fa.pushed q (visited.insert q)).length ≤ (targetsOf q (fa.unfollowed visited)).length := by
  have hn : (fa.pushed q (visited.insert q)).Nodup := List.nodup_reverse.2 ((OrderedSet.toList_nodup _).filter _)
  refine (List.subperm_of_subset hn fun p hp => ?_).length_le
  obtain ⟨he, -⟩ := mem_pushed.1 hp
  exact mem_targetsOf.2 (List.mem_filter.2 ⟨he, by simpa using h⟩)

def remaining (fa : Automaton) (s : ClosureSearch) : Nat :=
  s.stack.length + (fa.unfollowed s.visited).length

/-- The stack may grow, but every state that is pushed uses up an empty move. -/
theorem remaining_pop (h : s.stack ≠ []) : fa.remaining (fa.pop s) < fa.remaining s := by
  obtain ⟨visited, stack⟩ := s
  cases stack with
  | nil => exact absurd rfl h
  | cons q stack =>
      by_cases hq : q ∈ visited
      · rw [pop_of_mem hq]
        simp [remaining]
      · rw [pop_of_not_mem hq]
        have hpushed := fa.length_pushed_le hq
        have hmoves := length_withoutSource_add q (fa.unfollowed visited)
        simp only [remaining, unfollowed_insert, List.length_append, List.length_cons]
        omega

theorem stack_iterate_pop {n : Nat} (h : fa.remaining s ≤ n) : (fa.pop^[n] s).stack = [] := by
  induction n generalizing s with
  | zero =>
      refine List.eq_nil_of_length_eq_zero ?_
      rw [remaining] at h
      exact Nat.eq_zero_of_le_zero ((Nat.le_add_right _ _).trans h)
  | succ n ih =>
      by_cases hs : s.stack = []
      · rwa [Function.iterate_fixed (pop_of_stack_nil hs)]
      · rw [Function.iterate_succ_apply]
        have hless := fa.remaining_pop hs
        exact ih (by omega)

theorem iterate_pop_opening (fa : Automaton) (states : OrderedSet String) :
    fa.pop^[states.toList.length + fa.emptyMoves.length] (.opening states) = ⟨fa.closure states, []⟩ := by
  have hall : fa.remaining (.opening states) ≤ states.toList.length + fa.emptyMoves.length := by
    simp only [remaining, ClosureSearch.opening, List.length_reverse]
    exact Nat.add_le_add_left (List.length_filter_le _ _) _
  have hstack := stack_iterate_pop hall
  have hvisited := ((fa.searching_opening states).iterate _).visited_eq hstack
  rw [← hstack, ← hvisited]

def ClosedUnderEmpty (fa : Automaton) (set : Set String) : Prop :=
  ∀ t ∈ fa.transitions, t.label = .empty → t.source ∈ set → t.target ∈ set

theorem closedUnderEmpty_closure (fa : Automaton) (states : OrderedSet String) :
    fa.ClosedUnderEmpty {q | q ∈ fa.closure states} := by
  rintro ⟨⟨p, _⟩, q⟩ ht rfl hp
  exact fa.closed_closure states p hp q (.single (mem_emptyMoves.2 ht))

theorem ClosedUnderEmpty.mem_of_leads {set : Set String} (h : fa.ClosedUnderEmpty set) {p q : String} (hp : p ∈ set)
    (hl : Leads fa.emptyMoves p q) : q ∈ set := by
  induction hl with
  | refl => exact hp
  | tail _ he ih => exact h _ (mem_emptyMoves.1 he) rfl ih

theorem mem_closure_of_mem {q : String} (hq : q ∈ states) : q ∈ fa.closure states :=
  mem_closure.2 ⟨q, hq, .refl⟩

theorem isLeast_closure (fa : Automaton) (states : OrderedSet String) :
    IsLeast {set | {q | q ∈ states} ⊆ set ∧ fa.ClosedUnderEmpty set} {q | q ∈ fa.closure states} := by
  refine ⟨⟨fun q hq => mem_closure_of_mem hq, fa.closedUnderEmpty_closure states⟩, ?_⟩
  rintro set ⟨hsub, hclosed⟩ q hq
  obtain ⟨p, hp, hl⟩ := mem_closure.1 hq
  exact hclosed.mem_of_leads (hsub hp) hl

theorem leads_emptyMoves_iff {p q : String} :
    Leads fa.emptyMoves p q ↔ Relation.ReflTransGen (fun p q => ⟨⟨p, .empty⟩, q⟩ ∈ fa.transitions) p q := by
  simp only [Leads, mem_emptyMoves]

theorem closure_closure (fa : Automaton) (states : OrderedSet String) :
    fa.closure (fa.closure states) = fa.closure states := by
  refine OrderedSet.ext_mem fun q => ⟨fun hq => ?_, mem_closure_of_mem⟩
  obtain ⟨p, hp, hl⟩ := mem_closure.1 hq
  exact fa.closed_closure states p hp q hl

theorem closure_union (fa : Automaton) (states others : OrderedSet String) :
    fa.closure (states ∪ others) = fa.closure states ∪ fa.closure others := by
  refine OrderedSet.ext_mem fun q => ?_
  simp only [OrderedSet.mem_union, mem_closure, or_and_right, exists_or]

/-- The search along the empty moves ends, and what it has visited then is the least set around the given states that
is closed under them. -/
theorem closure_least (fa : Automaton) (states : OrderedSet String) :
    fa.pop^[states.toList.length + fa.emptyMoves.length] (.opening states) = ⟨fa.closure states, []⟩ ∧
    IsLeast {set | {q | q ∈ states} ⊆ set ∧ fa.ClosedUnderEmpty set} {q | q ∈ fa.closure states} ∧
    (∀ q, q ∈ fa.closure states ↔
      ∃ p ∈ states, Relation.ReflTransGen (fun p q => ⟨⟨p, .empty⟩, q⟩ ∈ fa.transitions) p q) ∧
    (∀ more : OrderedSet String, (∀ q ∈ states, q ∈ more) → ∀ q ∈ fa.closure states, q ∈ fa.closure more) ∧
    fa.closure (fa.closure states) = fa.closure states ∧
    ∀ others, fa.closure (states ∪ others) = fa.closure states ∪ fa.closure others := by
  refine ⟨fa.iterate_pop_opening states, fa.isLeast_closure states, fun q => ?_, fun more hmore q hq => ?_,
    fa.closure_closure states, fa.closure_union states⟩
  · simp only [mem_closure, leads_emptyMoves_iff]
  · obtain ⟨p, hp, hl⟩ := mem_closure.1 hq
    exact mem_closure.2 ⟨p, hmore p hp, hl⟩

/-- Here a state comes onto the stack twice, and another one is not declared. -/
theorem circling_closure_least :
    circling.pop^[2] (.opening (.ofList ["p", "q", "x"])) = ⟨.ofList ["q", "x"], ["p", "p"]⟩ ∧
    circling.pop^[5] (.opening (.ofList ["p", "q", "x"])) = ⟨.ofList ["p", "q", "x"], []⟩ ∧
    (∀ q ∈ OrderedSet.ofList ["q"], q ∈ OrderedSet.ofList ["p", "q", "x"]) ∧
    "p" ∈ circling.closure (.ofList ["q"]) ∧ "p" ∈ circling.closure (.ofList ["p", "q", "x"]) := by
  obtain ⟨hpop, -, -, -, -, -⟩ := closure_least circling (.ofList ["p", "q", "x"])
  obtain ⟨-, -, hmem, hmono, -, -⟩ := closure_least circling (.ofList ["q"])
  have hall : circling.closure (.ofList ["p", "q", "x"]) = .ofList ["p", "q", "x"] := by decide +kernel
  have hmove : ⟨⟨"q", .empty⟩, "p"⟩ ∈ circling.transitions := by decide +kernel
  have hsub : ∀ q ∈ OrderedSet.ofList ["q"], q ∈ OrderedSet.ofList ["p", "q", "x"] := by simp
  have hp := (hmem "p").2 ⟨"q", by simp, .single hmove⟩
  rw [hall] at hpop
  exact ⟨by decide +kernel, hpop, hsub, hp, hmono _ hsub "p" hp⟩

end NormalForms.Automaton
