import NormalForms.Proofs.Chomsky

namespace NormalForms.Grammar

variable {g : Grammar}

theorem eliminateEpsilon_not_yields_nil (hg : g.WellFormed) {a : String} (ha : a ≠ g.eliminateEpsilon.start) :
    ¬ g.eliminateEpsilon.Yields [.nonTerminal a] [] := by
  intro h
  have hm := (mem_nullable hg.eliminateEpsilon.nonTerminals_nodup).2 h
  exact ha ((eliminateEpsilon_epsilonAtStart hg).of_mem_nullable hg.eliminateEpsilon hm).1

/-- Without its empty productions a grammar derives the same words from each non-terminal, but for the empty word. Only
the start symbol may derive that one, and if productions refer to it, a fresh one does so in its place. -/
theorem eliminateEpsilon_keeps_words (hg : g.WellFormed) :
    (∀ a ∈ g.nonTerminals, ∀ word, word ≠ [] → (g.eliminateEpsilon.Generates a word ↔ g.Generates a word)) ∧
    (∀ a ∈ g.eliminateEpsilon.nonTerminals, a ≠ g.eliminateEpsilon.start → ¬ g.eliminateEpsilon.Generates a []) ∧
    (g.eliminateEpsilon.Generates g.eliminateEpsilon.start [] ↔ g.Generates g.start []) ∧
    (∀ r ∈ g.eliminateEpsilon.rules, [.epsilon] ∈ r.alternatives → r.left = g.eliminateEpsilon.start ∧
      ∀ s ∈ g.eliminateEpsilon.rules, ∀ p ∈ s.alternatives, .nonTerminal g.eliminateEpsilon.start ∉ p) ∧
    (g.eliminateEpsilon.start ≠ g.start ↔
      g.Generates g.start [] ∧ ∃ r ∈ g.rules, ∃ p ∈ r.alternatives, .nonTerminal g.start ∈ p) ∧
    (g.eliminateEpsilon.start ≠ g.start → g.eliminateEpsilon.start ∉ g.takenNames ∧
      g.eliminateEpsilon.nonTerminals = g.eliminateEpsilon.start :: g.nonTerminals) := by
  have hn := hg.nonTerminals_nodup
  have hne := hg.eliminateEpsilon.nonTerminals_nodup
  simp only [generates_iff_yields, ← occursOnRight_iff]
  refine ⟨fun a ha word => eliminateEpsilon_yields hg ha, fun a _ => eliminateEpsilon_not_yields_nil hg,
    eliminateEpsilon_yields_start hg, fun r hr hp => ?_, ?_⟩
  · obtain ⟨hl, hs⟩ := eliminateEpsilon_epsilonAtStart hg r.left (mem_productions_left hne hr hp)
    refine ⟨hl, fun s hs' p hp' hm => ?_⟩
    rw [occursOnRight_iff.2 ⟨s, hs', p, hp', hm⟩] at hs
    cases hs
  · rcases eliminateEpsilon_cases hn with ⟨hnil, hright, he⟩ | ⟨hc, he⟩
    · have hfresh : g.eliminateEpsilon.start = g.freshName g.start := by rw [he]; rfl
      rw [hfresh]
      refine ⟨iff_of_true (hg.freshName_ne_start _) ⟨hnil, hright⟩, fun _ => ⟨primed_not_mem _ _, ?_⟩⟩
      rw [he, withStart_nonTerminals, expanded_nonTerminals]
    · have hsame : g.eliminateEpsilon.start = g.start := by rw [he]; rfl
      exact ⟨iff_of_false (not_not.2 hsame) hc, fun h => absurd hsame h⟩

/-- A grammar with a circle of renamings, names that derive the empty word, and one that derives no word. -/
def tangled : Grammar where
  start := "S"
  terminals := ["a", "b"]
  rules := [
    ⟨"S", [[.nonTerminal "A", .nonTerminal "S", .nonTerminal "B"], [.nonTerminal "B"],
      [.nonTerminal "D", .terminal "b"]]⟩,
    ⟨"A", [[.terminal "a", .nonTerminal "A"], [.nonTerminal "B"], [.epsilon]]⟩,
    ⟨"B", [[.nonTerminal "A"], [.nonTerminal "B"], [.terminal "b"]]⟩,
    ⟨"D", [[.terminal "a", .nonTerminal "D"]]⟩]

theorem tangled_wellFormed : tangled.WellFormed := by
  have h : declare ["S", "A", "B", "D"] ["a", "b"]
      [("S", ["ASB", "B", "Db"]), ("A", ["aA", "B", "ε"]), ("B", ["A", "B", "b"]), ("D", ["aD"])] none =
      .ok tangled := by rfl
  exact declare_wellFormed h

theorem tangled_generates : tangled.Generates "B" ["a"] ∧ tangled.Generates "S" [] := by
  have hA : tangled.Yields [.nonTerminal "A"] [] := yields_epsilon.of_mem_productions (by decide)
  have hB : tangled.Yields [.nonTerminal "B"] [] := hA.of_mem_productions (by decide)
  have ha : tangled.Yields [.nonTerminal "A"] ["a"] := (hA.terminal "a").of_mem_productions (by decide)
  simp only [generates_iff_yields]
  exact ⟨ha.of_mem_productions (by decide), hB.of_mem_productions (by decide)⟩

theorem tangled_eliminateEpsilon : tangled.WellFormed ∧ tangled.eliminateEpsilon.Generates "B" ["a"] ∧
    "B" ≠ tangled.eliminateEpsilon.start ∧ ¬ tangled.eliminateEpsilon.Generates "B" [] ∧
    tangled.eliminateEpsilon.Generates tangled.eliminateEpsilon.start [] ∧
    ⟨"S'", [[.nonTerminal "S"], [.epsilon]]⟩ ∈ tangled.eliminateEpsilon.rules ∧
    (∀ s ∈ tangled.eliminateEpsilon.rules, ∀ p ∈ s.alternatives, .nonTerminal tangled.eliminateEpsilon.start ∉ p) ∧
    tangled.eliminateEpsilon.start ≠ "S" ∧ tangled.eliminateEpsilon.nonTerminals = ["S'", "S", "A", "B", "D"] := by
  obtain ⟨hwords, hnil, hstart, hright, hfresh, hnew⟩ := eliminateEpsilon_keeps_words tangled_wellFormed
  obtain ⟨ha, hs⟩ := tangled_generates
  have hne : "B" ≠ tangled.eliminateEpsilon.start := by with_unfolding_all decide
  have hdiff : tangled.eliminateEpsilon.start ≠ "S" := hfresh.2 ⟨hs, by decide⟩
  have hrule : ⟨"S'", [[.nonTerminal "S"], [.epsilon]]⟩ ∈ tangled.eliminateEpsilon.rules := by
    with_unfolding_all decide
  refine ⟨tangled_wellFormed, (hwords "B" (by decide) ["a"] (by simp)).2 ha, hne,
    hnil "B" (by with_unfolding_all decide) hne, hstart.2 hs, hrule, (hright _ hrule (by simp)).2, hdiff, ?_⟩
  rw [(hnew hdiff).2]
  with_unfolding_all decide

/-- Without its renamings a grammar has the same names as before, and each non-terminal derives the same words. -/
theorem eliminateRenaming_keeps_words (hg : g.WellFormed) :
    g.eliminateRenaming.start = g.start ∧ g.eliminateRenaming.terminals = g.terminals ∧
    g.eliminateRenaming.nonTerminals = g.nonTerminals ∧
    (∀ r ∈ g.eliminateRenaming.rules, ∀ p ∈ r.alternatives, ∀ b, p ≠ [.nonTerminal b]) ∧
    ∀ a word, g.eliminateRenaming.Generates a word ↔ g.Generates a word := by
  have hn := hg.nonTerminals_nodup
  have hne := hg.eliminateRenaming.nonTerminals_nodup
  refine ⟨rfl, rfl, eliminateRenaming_nonTerminals, fun r hr p hp b he => ?_, fun a word => ?_⟩
  · have hf := eliminateRenaming_renamingFree hn r.left p (mem_productions_left hne hr hp)
    rw [Production.isRenaming_iff.2 ⟨b, he⟩] at hf
    cases hf
  · rw [generates_iff_yields, generates_iff_yields]
    exact eliminateRenaming_yields hn

theorem tangled_eliminateRenaming : tangled.WellFormed ∧ [.nonTerminal "B"] ∈ tangled.productions "B" ∧
    (∀ r ∈ tangled.eliminateRenaming.rules, [.nonTerminal "B"] ∉ r.alternatives) ∧
    tangled.eliminateRenaming.Generates "B" ["a"] := by
  obtain ⟨-, -, -, hfree, hwords⟩ := eliminateRenaming_keeps_words tangled_wellFormed
  exact ⟨tangled_wellFormed, by decide, fun r hr hp => hfree r hr _ hp "B" rfl,
    (hwords "B" ["a"]).2 tangled_generates.1⟩

/-- Without its non-productive names a grammar has the names that derive words, and its start symbol in any case, with
the productions from which words are derived. Each name derives the same words as before. -/
theorem eliminateNonProductive_keeps_words (hg : g.WellFormed) :
    g.eliminateNonProductive.start = g.start ∧
    g.eliminateNonProductive.nonTerminals.Sublist g.nonTerminals ∧
    (∀ a, a ∈ g.eliminateNonProductive.nonTerminals ↔
      a ∈ g.nonTerminals ∧ (a = g.start ∨ ∃ word, g.Generates a word)) ∧
    (∀ a ∈ g.eliminateNonProductive.nonTerminals, a ≠ g.start → ∃ word, g.eliminateNonProductive.Generates a word) ∧
    ((∀ word, ¬ g.Generates g.start word) → g.eliminateNonProductive.productions g.start = []) ∧
    (∀ a p, p ∈ g.eliminateNonProductive.productions a ↔
      p ∈ g.productions a ∧ ∃ word : List String, g.Derives p.yield (word.map .terminal)) ∧
    ∀ a word, g.eliminateNonProductive.Generates a word ↔ g.Generates a word := by
  have hn := hg.nonTerminals_nodup
  have hmem : ∀ a, a ∈ g.eliminateNonProductive.nonTerminals ↔
      a ∈ g.nonTerminals ∧ (a = g.start ∨ ∃ word, g.Yields [.nonTerminal a] word) := by
    intro a
    rw [eliminateNonProductive_nonTerminals, List.mem_filter, decide_eq_true_eq, mem_productive hn, or_comm]
  simp only [generates_iff_yields, derives_yield_iff]
  refine ⟨rfl, ?_, hmem, fun a ha hne => ?_, eliminateNonProductive_productions_start hn,
    fun a p => mem_eliminateNonProductive_iff_yields hn, fun a word => eliminateNonProductive_yields hn⟩
  · rw [eliminateNonProductive_nonTerminals]
    exact List.filter_sublist
  · obtain ⟨word, hw⟩ := ((hmem a).1 ha).2.resolve_left hne
    exact ⟨word, (eliminateNonProductive_yields hn).2 hw⟩

theorem endless_not_generates (word : List String) : ¬ endless.Generates "S" word := by
  intro h
  have hm := (mem_productive (by decide)).2 ⟨word, generates_iff_yields.1 h⟩
  revert hm
  with_unfolding_all decide

theorem tangled_eliminateNonProductive : tangled.WellFormed ∧
    tangled.eliminateNonProductive.nonTerminals = ["S", "A", "B"] ∧
    (∃ word, tangled.eliminateNonProductive.Generates "B" word) ∧
    tangled.eliminateNonProductive.Generates "B" ["a"] ∧ endless.WellFormed ∧
    (∀ word, ¬ endless.Generates "S" word) ∧ endless.eliminateNonProductive.productions "S" = [] := by
  obtain ⟨-, -, -, hsome, -, -, hwords⟩ := eliminateNonProductive_keeps_words tangled_wellFormed
  have he := endless_built.wellFormed
  obtain ⟨-, -, -, -, hnone, -, -⟩ := eliminateNonProductive_keeps_words he
  exact ⟨tangled_wellFormed, by with_unfolding_all decide, hsome "B" (by with_unfolding_all decide) (by decide),
    (hwords "B" ["a"]).2 tangled_generates.1, he, endless_not_generates, hnone endless_not_generates⟩

end NormalForms.Grammar
