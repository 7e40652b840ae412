import NormalForms.Proofs.FormsKept
import NormalForms.Proofs.WordsKept

namespace NormalForms.Grammar

variable {g : Grammar}

theorem eliminateEpsilon_idem (hg : g.WellFormed) : g.eliminateEpsilon.eliminateEpsilon = g.eliminateEpsilon :=
  eliminateEpsilon_eq_self hg.eliminateEpsilon (eliminateEpsilon_epsilonAtStart hg)

theorem eliminateRenaming_idem (hg : g.WellFormed) : g.eliminateRenaming.eliminateRenaming = g.eliminateRenaming :=
  eliminateRenaming_eq_self hg.eliminateRenaming (eliminateRenaming_renamingFree hg.nonTerminals_nodup)

theorem eliminateInaccessible_idem (hn : g.nonTerminals.Nodup) :
    g.eliminateInaccessible.eliminateInaccessible = g.eliminateInaccessible :=
  eliminateInaccessible_eq_self (eliminateInaccessible_accessible hn)

/-- What is productive in a grammar stays so when all else is taken away. -/
theorem mem_eliminateNonProductive_productive (hn : g.nonTerminals.Nodup) {a : String} :
    a ∈ g.eliminateNonProductive.productive ↔ a ∈ g.productive := by
  rw [mem_productive (eliminateNonProductive_nodup hn), mem_productive hn]
  exact exists_congr fun _ => eliminateNonProductive_yields hn

theorem eliminateNonProductive_idem (hn : g.nonTerminals.Nodup) :
    g.eliminateNonProductive.eliminateNonProductive = g.eliminateNonProductive := by
  apply eliminateNonProductive_eq_self (eliminateNonProductive_nodup hn)
  · intro a ha
    rw [eliminateNonProductive_nonTerminals, List.mem_filter, decide_eq_true_eq] at ha
    exact ha.2.imp_left (mem_eliminateNonProductive_productive hn).2
  · intro left p hp b hb
    exact (mem_eliminateNonProductive_productive hn).2 (((mem_eliminateNonProductive hn).1 hp).2 b hb)

theorem shape_shaped (hg : g.WellFormed) : g.shape.Shaped := by
  intro left p hp
  rcases shape_cases hg hp with hpair | ⟨s, rfl, -⟩
  · exact .inr hpair
  · exact .inl ⟨s, rfl⟩

theorem shape_idem (hg : g.WellFormed) : g.shape.shape = g.shape :=
  shape_eq_self (shape_nodup hg.nonTerminals_nodup) (shape_shaped hg)

/-- Each transformation does all it has to do at once: applied to its own result it changes nothing, whatever the grammar
looked like before. -/
theorem transformations_idempotent (hg : g.WellFormed) :
    g.eliminateEpsilon.eliminateEpsilon = g.eliminateEpsilon ∧
    g.eliminateRenaming.eliminateRenaming = g.eliminateRenaming ∧
    g.eliminateInaccessible.eliminateInaccessible = g.eliminateInaccessible ∧
    g.eliminateNonProductive.eliminateNonProductive = g.eliminateNonProductive ∧
    g.shape.shape = g.shape := by
  have hn := hg.nonTerminals_nodup
  exact ⟨eliminateEpsilon_idem hg, eliminateRenaming_idem hg, eliminateInaccessible_idem hn,
    eliminateNonProductive_idem hn, shape_idem hg⟩

theorem tangled_idempotent : tangled.WellFormed ∧ tangled.eliminateEpsilon.start = "S'" ∧
    tangled.eliminateEpsilon.eliminateEpsilon = tangled.eliminateEpsilon ∧ tangled.shape ≠ tangled ∧
    tangled.shape.shape = tangled.shape := by
  obtain ⟨he, -, -, -, hs⟩ := transformations_idempotent tangled_wellFormed
  exact ⟨tangled_wellFormed, by with_unfolding_all decide, he, by with_unfolding_all decide, hs⟩

end NormalForms.Grammar
