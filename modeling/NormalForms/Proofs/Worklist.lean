import Mathlib.Logic.Function.Iterate
import NormalForms.Proofs.Determinize

namespace NormalForms

section

variable {α : Type} {found : List α} {a : α}

/-- One of the pending members moves over to the others, and new ones are put before those that are left. -/
theorem perm_append_turn {looked pending : List α} (hp : found.Perm (looked ++ a :: pending)) (new : List α) :
    (found ++ new).Perm (looked ++ [a] ++ (new.reverse ++ pending)) := by
  have hnew : (pending ++ new).Perm (new.reverse ++ pending) :=
    List.perm_append_comm.trans ((List.reverse_perm new).symm.append_right pending)
  have hall := (hp.append_right new).trans (.of_eq (List.append_assoc _ _ _))
  rw [List.append_assoc]
  exact hall.trans ((hnew.cons a).append_left looked)

end

namespace Automaton

variable {fa : Automaton}

def named (found : List (OrderedSet String)) : List (String × OrderedSet String) :=
  found.map fun states => (stateKey states, states)

theorem named_append (found new : List (OrderedSet String)) : named (found ++ new) = named found ++ named new :=
  List.map_append

/-- A name is new if and only if the set is, since two sets that are not empty never share a name. -/
theorem stateKey_mem_named {found : List (OrderedSet String)} (hf : ∀ s ∈ found, s ≠ ∅) {states : OrderedSet String}
    (hs : states ≠ ∅) : stateKey states ∈ (named found).map (·.1) ↔ states ∈ found := by
  rw [named, List.map_map]
  constructor
  · intro h
    obtain ⟨t, ht, hk⟩ := List.mem_map.1 h
    rwa [← stateKey_inj (hf t ht) hs hk]
  · intro h
    exact List.mem_map.2 ⟨states, h, rfl⟩

namespace Worklist

variable {found pending : List (OrderedSet String)} {transitions : List Transition}

theorem register_of_mem (hf : ∀ s ∈ found, s ≠ ∅) {states : OrderedSet String} (hs : states ∈ found) :
    register ⟨named found, pending, transitions⟩ states = ⟨named found, pending, transitions⟩ :=
  if_pos ((stateKey_mem_named hf (hf states hs)).2 hs)

theorem register_of_not_mem (hf : ∀ s ∈ found, s ≠ ∅) {states : OrderedSet String} (hs : states ≠ ∅)
    (hm : states ∉ found) :
    register ⟨named found, pending, transitions⟩ states =
      ⟨named (found ++ [states]), states :: pending, transitions⟩ := by
  rw [register, if_neg (mt (stateKey_mem_named hf hs).1 hm), named_append]
  rfl

/-- The letters of a set are followed one after the other, but what they lead to is found as if all at once. -/
theorem foldl_follow (hf : ∀ s ∈ found, s ≠ ∅) {ms : List (String × OrderedSet String)} (hm : ∀ m ∈ ms, m.2 ≠ ∅)
    (source : String) :
    ms.foldl (follow source) ⟨named found, pending, transitions⟩ =
      ⟨named (found ++ (ms.map (·.2)).eraseDups.filter (· ∉ found)),
        ((ms.map (·.2)).eraseDups.filter (· ∉ found)).reverse ++ pending,
        transitions ++ ms.map fun m => ⟨⟨source, .letter m.1⟩, stateKey m.2⟩⟩ := by
  induction ms generalizing found pending transitions with
  | nil => simp
  | cons m ms ih =>
      obtain ⟨hs, hms⟩ := List.forall_mem_cons.1 hm
      rw [List.foldl_cons, follow, List.map_cons]
      by_cases hfound : m.2 ∈ found
      · rw [register_of_mem hf hfound, ih hf hms, filter_eraseDups_cons_of_mem hfound]
        simp
      · have hf' : ∀ s ∈ found ++ [m.2], s ≠ ∅ := by
          intro s hmem
          rcases List.mem_append.1 hmem with hmem | hmem
          · exact hf s hmem
          · rwa [List.mem_singleton.1 hmem]
        rw [register_of_not_mem hf hs hfound, ih hf' hms, filter_eraseDups_cons_of_not_mem hfound]
        simp

end Worklist

theorem turn_of_pending_nil {w : Worklist} (h : w.pending = []) : fa.turn w = w := by
  rw [turn, h]

theorem turn_cons {found pending : List (OrderedSet String)} (hf : ∀ s ∈ found, s ≠ ∅) (states : OrderedSet String)
    (transitions : List Transition) :
    fa.turn ⟨named found, states :: pending, transitions⟩ =
      ⟨named (found ++ fa.discovered found states), (fa.discovered found states).reverse ++ pending,
        transitions ++ fa.subsetTransitions states⟩ :=
  Worklist.foldl_follow hf (fun ⟨_, _⟩ hm => (mem_moves.1 hm).2.2) _

/-- What the search can find: there are as many of these sets as there are subsets of the states, but for one. -/
def Proper (fa : Automaton) (states : OrderedSet String) : Prop :=
  states ≠ ∅ ∧ ∀ q ∈ states, q ∈ fa.states

theorem Valid.proper_initialStates (hv : fa.Valid) : fa.Proper fa.initialStates :=
  ⟨initialStates_ne_empty, hv.initialStates_subset⟩

theorem Valid.proper_of_mem_discovered (hv : fa.Valid) {found : List (OrderedSet String)}
    {states next : OrderedSet String} (h : next ∈ fa.discovered found states) : fa.Proper next := by
  obtain ⟨⟨a, hm⟩, -⟩ := mem_discovered.1 h
  obtain ⟨-, rfl, hne⟩ := mem_moves.1 hm
  exact ⟨hne, hv.next_subset a⟩

/-- Turn by turn, the search finds what it is said to find, and then nothing is pending. The sets that were looked at
are told apart from the pending ones, so that there cannot be more turns than sets. -/
theorem Valid.turn_iterate (hv : fa.Valid) {fuel : Nat} {found pending looked : List (OrderedSet String)}
    (h : fa.Explored found pending) (hp : found.Perm (looked ++ pending)) (hs : ∀ s ∈ found, fa.Proper s)
    (hf : 2 ^ fa.states.toList.length ≤ fuel + looked.length) :
    ∃ all, (fa.discover fuel found pending).Perm all ∧
      fa.turn^[fuel] ⟨named found, pending, looked.flatMap fa.subsetTransitions⟩ =
        ⟨named (fa.discover fuel found pending), [], all.flatMap fa.subsetTransitions⟩ := by
  induction fuel generalizing found pending looked with
  | zero =>
      have hle := length_le_of_forall_subset h.nodup fun s hm => (hs s hm).2
      have hlen := hp.length_eq
      rw [List.length_append] at hlen
      have hnil : pending = [] := List.eq_nil_of_length_eq_zero (by omega)
      subst hnil
      rw [List.append_nil] at hp
      exact ⟨looked, hp, rfl⟩
  | succ fuel ih =>
      cases pending with
      | nil =>
          rw [List.append_nil] at hp
          exact ⟨looked, hp, Function.iterate_fixed (turn_of_pending_nil rfl) (fuel + 1)⟩
      | cons states pending =>
          have hp' := perm_append_turn hp (fa.discovered found states)
          have hs' : ∀ s ∈ found ++ fa.discovered found states, fa.Proper s := by
            intro s hm
            rcases List.mem_append.1 hm with hm | hm
            · exact hs s hm
            · exact hv.proper_of_mem_discovered hm
          have hf' : 2 ^ fa.states.toList.length ≤ fuel + (looked ++ [states]).length := by
            rw [List.length_append, List.length_singleton]
            omega
          obtain ⟨all, ha, hall⟩ := ih h.step hp' hs' hf'
          refine ⟨all, ha, ?_⟩
          rw [Function.iterate_succ_apply, turn_cons (fun s hm => (hs s hm).1)]
          rw [List.flatMap_append, List.flatMap_singleton] at hall
          exact hall

def statesAfter (fa : Automaton) (word : List String) : OrderedSet String :=
  word.foldl fa.next fa.initialStates

theorem statesAfter_append (word : List String) (a : String) :
    fa.statesAfter (word ++ [a]) = fa.next (fa.statesAfter word) a := by
  simp [statesAfter]

theorem Valid.mem_subsets_iff (hv : fa.Valid) {states : OrderedSet String} :
    states ∈ fa.subsets ↔ states ≠ ∅ ∧ ∃ word, (∀ a ∈ word, a ∈ fa.alphabet) ∧ fa.statesAfter word = states := by
  constructor
  · intro hs
    refine ⟨ne_empty_of_mem_subsets states hs, ?_⟩
    refine subsets_forall (P := fun s => ∃ word, (∀ a ∈ word, a ∈ fa.alphabet) ∧ fa.statesAfter word = s) ?_ ?_
      states hs
    · exact ⟨[], by simp, rfl⟩
    · rintro _ ⟨word, hw, rfl⟩ a ha -
      exact ⟨word ++ [a], by simpa [or_imp, forall_and] using ⟨hw, ha⟩, statesAfter_append word a⟩
  · rintro ⟨hne, word, hw, rfl⟩
    induction word using List.reverseRecOn with
    | nil => exact initialStates_mem_subsets
    | append_singleton word a ih =>
        rw [statesAfter_append] at hne ⊢
        -- a set that leads on to another one is not the empty set, so that it was found before
        have hbefore : fa.statesAfter word ≠ ∅ := by
          intro he
          rw [he, next_empty] at hne
          exact hne rfl
        have hs := ih (fun b hb => hw b (List.mem_append_left _ hb)) hbefore
        exact hv.next_mem_subsets hs (hw a (by simp)) hne

end Automaton

end NormalForms
