import Mathlib.Data.Finset.Card
import Mathlib.Logic.Function.Iterate
import Mathlib.Order.Bounds.Basic
import Mathlib.Order.Interval.Finset.Nat
import NormalForms.Proofs.Fresh

namespace NormalForms

theorem append_primes_prime (name : String) (k : Nat) : name ++ primes k ++ "'" = name ++ primes (k + 1) := by
  apply String.toList_inj.1
  simp [primes, List.replicate_succ']

theorem append_primes_injective (name : String) : Function.Injective fun k => name ++ primes k := by
  intro j k h
  have hl := congrArg (fun s => s.toList.length) h
  simpa [primes] using hl

theorem append_prime_not_mem_epsilonNames (name : String) : name ++ "'" ∉ epsilonNames := by
  intro h
  have hlast : ∀ s ∈ epsilonNames, s.toList.getLast? ≠ some '\'' := by decide
  exact hlast _ h (by simp)

namespace Grammar

variable {g : Grammar} {name : String} {k : Nat}

theorem mem_takenNames : name ∈ g.takenNames ↔ name ∈ g.nonTerminals ∨ name ∈ g.terminals ∨ name ∈ epsilonNames := by
  rw [takenNames, List.mem_append, List.mem_append, or_comm, or_comm (a := name ∈ epsilonNames)]

/-- The candidates are different names, and none but the first one can be a spelling of the empty string. -/
theorem le_card_of_forall_mem_takenNames (h : ∀ j < k, name ++ primes j ∈ g.takenNames) :
    k ≤ (g.terminals ++ g.nonTerminals).toFinset.card + 1 := by
  have hmaps : Set.MapsTo (fun j => name ++ primes j) (Finset.Ico 1 k) (g.terminals ++ g.nonTerminals).toFinset := by
    intro j hj
    obtain ⟨hpos, hlt⟩ := Finset.mem_Ico.1 (Finset.mem_coe.1 hj)
    obtain ⟨i, rfl⟩ := Nat.exists_eq_add_one.2 hpos
    have hprime : name ++ primes (i + 1) ∉ epsilonNames := by
      rw [← append_primes_prime]
      exact append_prime_not_mem_epsilonNames _
    rw [Finset.mem_coe, List.mem_toFinset, List.mem_append]
    rcases mem_takenNames.1 (h (i + 1) hlt) with hn | ht | he
    · exact .inr hn
    · exact .inl ht
    · exact absurd he hprime
  have hcard := Finset.card_le_card_of_injOn _ hmaps (append_primes_injective name).injOn
  rw [Nat.card_Ico] at hcard
  omega

theorem addPrime_of_mem (h : name ∈ g.takenNames) : g.addPrime name = name ++ "'" :=
  if_pos (mem_takenNames.1 h)

theorem addPrime_of_not_mem (h : name ∉ g.takenNames) : g.addPrime name = name :=
  if_neg (mt mem_takenNames.2 h)

theorem iterate_addPrime (hfree : name ++ primes k ∉ g.takenNames) (htaken : ∀ j < k, name ++ primes j ∈ g.takenNames)
    (n : Nat) : g.addPrime^[n] name = name ++ primes (min n k) := by
  induction n with
  | zero => rw [Nat.zero_min, append_primes_zero, Function.iterate_zero_apply]
  | succ n ih =>
      rw [Function.iterate_succ_apply', ih]
      rcases Nat.lt_or_ge n k with hlt | hge
      · rw [Nat.min_eq_left (Nat.le_of_lt hlt), Nat.min_eq_left hlt, addPrime_of_mem (htaken n hlt),
          append_primes_prime]
      · rw [Nat.min_eq_right hge, Nat.min_eq_right (Nat.le_succ_of_le hge), addPrime_of_not_mem hfree]

/-- The search for a fresh name adds one prime in each turn until it comes to the first name that is not taken, and
there it ends. It adds no more primes than there are declared names, and one. -/
theorem freshName_least (g : Grammar) (name : String) : ∃ k,
    IsLeast {k | name ++ primes k ∉ g.nonTerminals ∧ name ++ primes k ∉ g.terminals ∧
      name ++ primes k ∉ epsilonNames} k ∧
    (∀ n, g.addPrime^[n] name = name ++ primes (min n k)) ∧
    g.freshName name = name ++ primes k ∧
    k ≤ (g.terminals ++ g.nonTerminals).toFinset.card + 1 := by
  obtain ⟨k, he, hfree, htaken⟩ := primed_eq g.takenNames name
  refine ⟨k, ⟨?_, fun j hj => ?_⟩, iterate_addPrime hfree htaken, he, le_card_of_forall_mem_takenNames htaken⟩
  · rwa [mem_takenNames, not_or, not_or] at hfree
  · have hj' : name ++ primes j ∉ g.takenNames := by rwa [mem_takenNames, not_or, not_or]
    by_contra hlt
    exact hj' (htaken j (Nat.lt_of_not_le hlt))

/-- A spelling of the empty string needs a prime in any case, so that two of them can be added for one declared name. -/
example : (⟨"ε'", [], [⟨"ε'", []⟩]⟩ : Grammar).freshName "ε" = "ε''" := by
  with_unfolding_all decide

end Grammar

end NormalForms
