import NormalForms.Proofs.Productions

namespace NormalForms

def primes (k : Nat) : String :=
  .ofList (List.replicate k '\'')

theorem append_primes_zero (name : String) : name ++ primes 0 = name := by
  simp [primes]

theorem append_primes_succ (name : String) (k : Nat) : name ++ primes (k + 1) = name ++ "'" ++ primes k := by
  apply String.toList_inj.1
  simp [primes, List.replicate_succ]

theorem append_prime_ne (name : String) (k : Nat) : name ++ "'" ++ primes k ≠ name := by
  intro h
  have hl := congrArg (fun s => s.toList.length) h
  simp [primes] at hl

/-- The first free name among the given one and those with primes behind it. -/
theorem primed_eq (taken : List String) (name : String) :
    ∃ k, primed taken name = name ++ primes k ∧ name ++ primes k ∉ taken ∧ ∀ j < k, name ++ primes j ∈ taken := by
  induction taken, name using primed.induct with
  | case1 taken name hm ih =>
      obtain ⟨k, he, hn, hj⟩ := ih
      refine ⟨k + 1, ?_, ?_, ?_⟩
      · rw [primed, if_pos hm, he, append_primes_succ]
      · rw [append_primes_succ]
        rwa [List.mem_erase_of_ne (append_prime_ne name k)] at hn
      · intro j hlt
        cases j with
        | zero => rwa [append_primes_zero]
        | succ j =>
            rw [append_primes_succ]
            exact List.mem_of_mem_erase (hj j (by omega))
  | case2 taken name hm =>
      refine ⟨0, ?_, ?_, by simp⟩
      · rw [primed, if_neg hm, append_primes_zero]
      · rwa [append_primes_zero]

theorem primed_congr {taken more : List String} (h : ∀ a, a ∈ taken ↔ a ∈ more) (name : String) :
    primed taken name = primed more name := by
  obtain ⟨j, hj, hfree, hleast⟩ := primed_eq taken name
  obtain ⟨k, hk, hfree', hleast'⟩ := primed_eq more name
  have hjk : j = k := by
    rcases Nat.lt_trichotomy j k with hlt | heq | hgt
    · exact absurd ((h _).2 (hleast' j hlt)) hfree
    · exact heq
    · exact absurd ((h _).1 (hleast k hgt)) hfree'
  rw [hj, hk, hjk]

theorem primed_not_mem (taken : List String) (name : String) : primed taken name ∉ taken := by
  obtain ⟨k, he, hn, -⟩ := primed_eq taken name
  rwa [he]

theorem primed_ne_empty (taken : List String) {name : String} (h : name ≠ "") : primed taken name ≠ "" := by
  obtain ⟨k, he, -, -⟩ := primed_eq taken name
  rw [he]
  intro h'
  exact h (String.append_eq_empty_iff.1 h').1

namespace Grammar

variable {g : Grammar}

theorem freshName_not_mem (g : Grammar) (name : String) :
    g.freshName name ∉ epsilonNames ∧ g.freshName name ∉ g.terminals ∧ g.freshName name ∉ g.nonTerminals := by
  have h : g.freshName name ∉ g.takenNames := primed_not_mem g.takenNames name
  simpa only [takenNames, List.mem_append, not_or, and_assoc] using h

theorem isDeclarable_freshName {name : String} (h : isDeclarable name = true) :
    isDeclarable (g.freshName name) = true := by
  obtain ⟨hname, -⟩ := isDeclarable_iff.1 h
  exact isDeclarable_iff.2 ⟨primed_ne_empty g.takenNames hname, (freshName_not_mem g name).1⟩

theorem WellFormed.freshName_ne_start (hg : g.WellFormed) (name : String) : g.freshName name ≠ g.start := by
  intro he
  have hn := (freshName_not_mem g name).2.2
  rw [he] at hn
  exact hn hg.start_mem

end Grammar

end NormalForms
