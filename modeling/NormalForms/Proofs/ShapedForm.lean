import NormalForms.Proofs.WordsKept

namespace NormalForms.Grammar

open Helper

variable {g : Grammar}

theorem renamingFree_iff (hn : g.nonTerminals.Nodup) :
    g.RenamingFree ↔ ∀ r ∈ g.rules, ∀ p ∈ r.alternatives, ∀ b, p ≠ [.nonTerminal b] := by
  constructor
  · intro h r hr p hp b he
    have hf := h r.left p (mem_productions_left hn hr hp)
    rw [Production.isRenaming_iff.2 ⟨b, he⟩] at hf
    cases hf
  · intro h left p hp
    obtain ⟨r, hr, -, hp⟩ := exists_of_mem_productions hp
    rw [← Bool.not_eq_true, Production.isRenaming_iff]
    rintro ⟨b, he⟩
    exact h r hr p hp b he

theorem epsilonAtStart_iff (hn : g.nonTerminals.Nodup) :
    g.EpsilonAtStart ↔ ∀ r ∈ g.rules, [.epsilon] ∈ r.alternatives → r.left = g.start ∧
      ∀ s ∈ g.rules, ∀ p ∈ s.alternatives, .nonTerminal g.start ∉ p := by
  have hright : g.occursOnRight g.start = false ↔ ∀ s ∈ g.rules, ∀ p ∈ s.alternatives, .nonTerminal g.start ∉ p := by
    rw [← Bool.not_eq_true, occursOnRight_iff]
    simp only [not_exists, not_and]
  rw [← hright]
  constructor
  · intro h r hr hp
    exact h r.left (mem_productions_left hn hr hp)
  · intro h left hp
    obtain ⟨r, hr, hl, hm⟩ := exists_of_mem_productions hp
    exact hl ▸ h r hr hm

theorem single_mem_shape (hn : g.nonTerminals.Nodup) {a : String} {s : Symbol} (hp : [s] ∈ g.productions a) :
    [s] ∈ g.shape.productions a := by
  obtain ⟨r, hr, rfl, number, he⟩ := exists_number_of_mem_productions hp
  exact shaped_mem_shape hn hr he

/-- What a production refers to stands on some right side when its short form is there: either in that form itself or
further along the links. -/
theorem exists_right_of_shaped (hn : g.nonTerminals.Nodup) {left : String} {number : Nat} {p : Production}
    {a b : String} (hs : g.Serves left number p) (hp : shaped g.helperName left number p ∈ g.shape.productions a)
    (hb : .nonTerminal b ∈ p) : ∃ c, ∃ q ∈ g.shape.productions c, .nonTerminal b ∈ q := by
  induction p using links.induct generalizing a with
  | case1 x y z p ih =>
      obtain ⟨hl, hsub⟩ := needed_cons_cons_cons left number x y z p
      rcases List.mem_cons.1 hb with rfl | hb
      · exact ⟨a, _, hp, by simp [shaped, wrapped]⟩
      · exact ih (fun k hk => hs k (hsub k hk)) (rule_mem_shape hn (hs _ hl) (List.mem_singleton.2 rfl)) hb
  | case2 p hshort =>
      refine ⟨a, _, hp, ?_⟩
      cases p using shaped.fun_cases with
      | case1 | case2 => exact hb
      | case3 x y =>
          simp only [List.mem_cons, List.not_mem_nil, or_false] at hb
          rcases hb with rfl | rfl <;> simp [shaped, wrapped]
      | case4 x y z p => exact absurd rfl (hshort x y z p)

/-- Helpers bring no name of the grammar to a right side, and take none from there. -/
theorem shape_occursOnRight_eq (hg : g.WellFormed) {a : String} (ha : a ∈ g.nonTerminals) :
    g.shape.occursOnRight a = g.occursOnRight a := by
  have hn := hg.nonTerminals_nodup
  cases ho : g.occursOnRight a with
  | false => exact shape_occursOnRight hg ha ho
  | true =>
      rw [← Bool.not_eq_false, occursOnRight_eq_false (shape_nodup hn)]
      intro hnone
      obtain ⟨r, hr, p, hp, hm⟩ := occursOnRight_iff.1 ho
      obtain ⟨s, hs, hl, number, he⟩ := exists_number_of_mem_productions (mem_productions_left hn hr hp)
      obtain ⟨c, q, hq, hb⟩ := exists_right_of_shaped hn (serves_of_mem hs he) (shaped_mem_shape hn hs he) hm
      exact hnone c q hq hb

theorem RenamingFree.of_shape (hn : g.nonTerminals.Nodup) (hr : g.shape.RenamingFree) : g.RenamingFree := by
  intro left p hp
  rw [← Bool.not_eq_true, Production.isRenaming_iff]
  rintro ⟨b, rfl⟩
  have hf := hr left _ (single_mem_shape hn hp)
  cases hf

theorem EpsilonAtStart.of_shape (hg : g.WellFormed) (he : g.shape.EpsilonAtStart) : g.EpsilonAtStart := by
  intro left hp
  obtain ⟨hl, hs⟩ := he left (single_mem_shape hg.nonTerminals_nodup hp)
  exact ⟨hl, (shape_occursOnRight_eq hg hg.start_mem).symm.trans hs⟩

/-- Shaping alone gives the Chomsky form if and only if there is no renaming and only the start symbol has the empty
string, with no production referring to it then. The lengths are right in any case. -/
theorem shape_isChomsky_iff (hg : g.WellFormed) :
    (g.shape.isChomsky = true ↔
      (∀ r ∈ g.rules, ∀ p ∈ r.alternatives, ∀ b, p ≠ [.nonTerminal b]) ∧
      ∀ r ∈ g.rules, [.epsilon] ∈ r.alternatives → r.left = g.start ∧
        ∀ s ∈ g.rules, ∀ p ∈ s.alternatives, .nonTerminal g.start ∉ p) ∧
    ∀ r ∈ g.shape.rules, ∀ p ∈ r.alternatives, p.length = 1 ∨ ∃ a b, p = [.nonTerminal a, .nonTerminal b] := by
  have hn := hg.nonTerminals_nodup
  rw [← renamingFree_iff hn, ← epsilonAtStart_iff hn]
  refine ⟨⟨fun hc => ⟨?_, ?_⟩, fun ⟨hr, he⟩ => shape_isChomsky hg hr he⟩, fun r hr p hp => ?_⟩
  · exact (renamingFree_of_isChomsky hc).of_shape hn
  · exact (epsilonAtStart_of_isChomsky hc).of_shape hg
  · rcases shape_cases hg (mem_productions_left (shape_nodup hn) hr hp) with hpair | ⟨s, rfl, -⟩
    · exact .inr hpair
    · exact .inl rfl

/-- A grammar with productions of all lengths, in which a name for a new symbol is taken. -/
def mixing : Grammar where
  start := "S"
  terminals := ["a", "b"]
  rules := [
    ⟨"S", [[.terminal "a", .nonTerminal "A", .terminal "b", .nonTerminal "A"], [.epsilon]]⟩,
    ⟨"A", [[.terminal "a"], [.nonTerminal "A", .terminal "b"]]⟩,
    ⟨"S_1", [[.terminal "b"]]⟩]

theorem mixing_wellFormed : mixing.WellFormed := by
  have h : declare ["S", "A", "S_1"] ["a", "b"] [("S", ["aAbA", "ε"]), ("A", ["a", "Ab"]), ("S_1", ["b"])] none =
      .ok mixing := by rfl
  exact declare_wellFormed h

theorem mixing_shape_isChomsky : mixing.WellFormed ∧ mixing.isChomsky = false ∧ mixing.shape.isChomsky = true ∧
    tangled.WellFormed ∧ [.nonTerminal "B"] ∈ tangled.productions "S" ∧ tangled.shape.isChomsky = false := by
  have hm := mixing_wellFormed
  have ht := tangled_wellFormed
  refine ⟨hm, by decide, (shape_isChomsky_iff hm).1.2 (by simp [mixing]), ht, by decide, ?_⟩
  rw [← Bool.not_eq_true, (shape_isChomsky_iff ht).1]
  rintro ⟨hr, -⟩
  exact hr _ List.mem_cons_self [.nonTerminal "B"] (by simp) "B" rfl

end NormalForms.Grammar
