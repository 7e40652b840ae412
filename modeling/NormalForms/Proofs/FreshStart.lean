import NormalForms.Proofs.EpsilonFree

namespace NormalForms.Grammar

variable {g : Grammar} {start : String}

structure Unused (g : Grammar) (name : String) : Prop where
  not_mem : name ∉ g.nonTerminals
  ne_start : name ≠ g.start
  not_right : ∀ left, ∀ p ∈ g.productions left, .nonTerminal name ∉ p

theorem withStart_nodup (hn : g.nonTerminals.Nodup) (hs : start ∉ g.nonTerminals) :
    (g.withStart start).nonTerminals.Nodup :=
  List.nodup_cons.2 ⟨hs, hn⟩

theorem mem_withStart (hn : g.nonTerminals.Nodup) (hs : start ∉ g.nonTerminals) {a : String} {p : Production} :
    p ∈ (g.withStart start).productions a ↔
      (a = start ∧ (p = [.nonTerminal g.start] ∨ p = [.epsilon])) ∨ p ∈ g.productions a := by
  rw [mem_productions (withStart_nodup hn hs), mem_productions hn]
  constructor
  · rintro ⟨r, hr, rfl, hp⟩
    rcases List.mem_cons.1 hr with rfl | hr
    · exact .inl ⟨rfl, by simpa using hp⟩
    · exact .inr ⟨r, hr, rfl, hp⟩
  · rintro (⟨rfl, hp⟩ | ⟨r, hr, rfl, hp⟩)
    · exact ⟨_, List.mem_cons_self, rfl, by simpa using hp⟩
    · exact ⟨r, List.mem_cons_of_mem _ hr, rfl, hp⟩

theorem withStart_yields (hn : g.nonTerminals.Nodup) (hs : g.Unused start) {u : List Symbol} {w : List String}
    (hu : .nonTerminal start ∉ u) : (g.withStart start).Yields u w ↔ g.Yields u w := by
  have hold : ∀ left p, left ≠ start → p ∈ (g.withStart start).productions left → p ∈ g.productions left := by
    intro left p hl hp
    rcases (mem_withStart hn hs.not_mem).1 hp with ⟨he, -⟩ | hp
    · exact absurd he hl
    · exact hp
  constructor
  · intro h
    refine h.transfer (P := (· ≠ start)) ?_ ?_ ?_
    · rintro left p hl hp a ha rfl
      exact hs.not_right left p (hold left p hl hp) ha
    · intro left p w hl hp _ hy
      exact hy.of_mem_productions (hold left p hl hp)
    · rintro a ha rfl
      exact hu ha
  · exact Yields.mono fun left p hp => (mem_withStart hn hs.not_mem).2 (.inr hp)

theorem withStart_yields_start (hn : g.nonTerminals.Nodup) (hs : g.Unused start) {w : List String} :
    (g.withStart start).Yields [.nonTerminal start] w ↔ w = [] ∨ g.Yields [.nonTerminal g.start] w := by
  have hold : (g.withStart start).Yields [.nonTerminal g.start] w ↔ g.Yields [.nonTerminal g.start] w :=
    withStart_yields hn hs (by simpa using hs.ne_start)
  rw [yields_nonTerminal, ← hold]
  simp only [mem_withStart hn hs.not_mem]
  constructor
  · rintro ⟨p, ⟨-, rfl | rfl⟩ | hp, hy⟩
    · exact .inr hy
    · rw [← yields_yield] at hy
      exact .inl (yields_nil.1 hy)
    · exact absurd (mem_nonTerminals_of_mem_productions hp) hs.not_mem
  · rintro (rfl | hy)
    · exact ⟨_, .inl ⟨trivial, .inr rfl⟩, yields_epsilon⟩
    · exact ⟨_, .inl ⟨trivial, .inl rfl⟩, hy⟩

theorem withStart_epsilonAtStart (hn : g.nonTerminals.Nodup) (hs : g.Unused start)
    (he : ∀ left, [.epsilon] ∉ g.productions left) : (g.withStart start).EpsilonAtStart := by
  intro left hp
  rcases (mem_withStart hn hs.not_mem).1 hp with ⟨hl, -⟩ | hp
  · refine ⟨hl, (occursOnRight_eq_false (withStart_nodup hn hs.not_mem)).2 fun left' p hp' hm => ?_⟩
    rcases (mem_withStart hn hs.not_mem).1 hp' with ⟨-, rfl | rfl⟩ | hp'
    · simp only [List.mem_singleton, Symbol.nonTerminal.injEq] at hm
      exact hs.ne_start hm
    · simp at hm
    · exact hs.not_right left' p hp' hm
  · exact absurd hp (he left)

theorem WellFormed.admits_expanded (hg : g.WellFormed) {a : String} {p : Production}
    (hp : p ∈ g.expanded.productions a) : g.Admits p := by
  rcases (mem_expanded hg.nonTerminals_nodup).1 hp with ⟨-, -, rfl⟩ | ⟨q, hq, hne, hd, hp⟩
  · exact ⟨by simp, fun _ => rfl, by simp, by simp⟩
  · have hs := (Production.sublist_of_mem_deletions hd).subset
    have hq := hg.admits hq
    exact ⟨hp, fun he => absurd (hq.epsilon_alone (hs he)) hne, fun a ha => hq.terminal_mem a (hs ha),
      fun a ha => hq.nonTerminal_mem a (hs ha)⟩

theorem WellFormed.expanded (hg : g.WellFormed) : g.expanded.WellFormed := by
  apply hg.of_sublist
  · rfl
  · simp
  · simpa using hg.start_mem
  · intro left p hp
    exact ⟨hg.admits_expanded hp, by simpa using (hg.admits_expanded hp).nonTerminal_mem⟩
  · intro r hr
    obtain ⟨s, -, rfl⟩ := List.mem_map.1 hr
    exact nodup_eraseDups _

theorem WellFormed.withStart (hg : g.WellFormed) (hd : isDeclarable start = true) (ht : start ∉ g.terminals)
    (hs : start ∉ g.nonTerminals) : (g.withStart start).WellFormed := by
  have hn := hg.nonTerminals_nodup
  apply WellFormed.of_admits
  · exact List.mem_cons_self
  · intro name hname
    rw [withStart_nonTerminals, List.mem_append, List.mem_cons] at hname
    rcases hname with hname | rfl | hname
    · exact hg.declarable name (List.mem_append_left _ hname)
    · exact hd
    · exact hg.declarable name (List.mem_append_right _ hname)
  · intro name hname hm
    rcases List.mem_cons.1 hm with rfl | hm
    · exact ht hname
    · exact hg.disjoint name hname hm
  · exact hg.terminals_nodup
  · exact withStart_nodup hn hs
  · intro left p hp
    rcases (mem_withStart hn hs).1 hp with ⟨-, rfl | rfl⟩ | hp
    · exact ⟨by simp, by simp, by simp, by simpa using .inr hg.start_mem⟩
    · exact ⟨by simp, fun _ => rfl, by simp, by simp⟩
    · exact (hg.admits hp).mono (fun _ ha => ha) (fun _ _ ha => List.mem_cons_of_mem _ ha)
  · intro r hr
    rcases List.mem_cons.1 hr with rfl | hr
    · simp
    · exact hg.alternatives_nodup r hr

theorem WellFormed.eliminateEpsilon (hg : g.WellFormed) : g.eliminateEpsilon.WellFormed := by
  rw [eliminateEpsilon_eq]
  split
  · obtain ⟨-, ht, hn⟩ := freshName_not_mem g g.start
    have hd := hg.declarable _ (List.mem_append_right _ hg.start_mem)
    exact hg.expanded.withStart (isDeclarable_freshName hd) ht (by simpa using hn)
  · exact hg.expanded

theorem WellFormed.unused_freshName (hg : g.WellFormed) (name : String) : g.expanded.Unused (g.freshName name) where
  not_mem := by simpa using (freshName_not_mem g name).2.2
  ne_start := hg.freshName_ne_start name
  not_right _ _ hp hm := (freshName_not_mem g name).2.2 ((hg.admits_expanded hp).nonTerminal_mem _ hm)

theorem WellFormed.keepsEpsilon_of_mem (hg : g.WellFormed) {left : String}
    (hp : [.epsilon] ∈ g.expanded.productions left) : g.KeepsEpsilon ∧ left = g.start := by
  rcases (mem_expanded hg.nonTerminals_nodup).1 hp with ⟨hk, hl, -⟩ | ⟨q, hq, hne, hd, -⟩
  · exact ⟨hk, hl⟩
  · have he := (Production.sublist_of_mem_deletions hd).subset List.mem_cons_self
    exact absurd ((hg.admits hq).epsilon_alone he) hne

theorem eliminateEpsilon_epsilonAtStart (hg : g.WellFormed) : g.eliminateEpsilon.EpsilonAtStart := by
  have hn := hg.nonTerminals_nodup
  have hne : g.expanded.nonTerminals.Nodup := by simpa using hn
  rw [eliminateEpsilon_eq]
  split
  · rename_i hc
    exact withStart_epsilonAtStart hne (hg.unused_freshName g.start) fun _ hp => hc.2 (hg.keepsEpsilon_of_mem hp).1
  · intro left hp
    obtain ⟨hk, hl⟩ := hg.keepsEpsilon_of_mem hp
    have hright := (occursOnRight_eq_false hn).1 (Bool.not_eq_true _ ▸ hk.2)
    refine ⟨hl, (occursOnRight_eq_false hne).2 fun left' p hp' hm => ?_⟩
    rcases (mem_expanded hn).1 hp' with ⟨-, -, rfl⟩ | ⟨q, hq, -, hd, -⟩
    · simp at hm
    · exact hright left' q hq ((Production.sublist_of_mem_deletions hd).subset hm)

/-- A fresh start symbol is put before the grammar if and only if its own one derives the empty word and some production
refers to it. -/
theorem eliminateEpsilon_cases (hn : g.nonTerminals.Nodup) :
    (g.Yields [.nonTerminal g.start] [] ∧ g.occursOnRight g.start = true ∧
      g.eliminateEpsilon = g.expanded.withStart (g.freshName g.start)) ∨
    (¬ (g.Yields [.nonTerminal g.start] [] ∧ g.occursOnRight g.start = true) ∧ g.eliminateEpsilon = g.expanded) := by
  have hcond : g.start ∈ g.nullable ∧ ¬ g.KeepsEpsilon ↔
      g.Yields [.nonTerminal g.start] [] ∧ g.occursOnRight g.start = true := by
    rw [← mem_nullable hn]
    simp only [KeepsEpsilon, not_and, not_not]
    exact and_congr_right fun h => ⟨fun ho => ho h, fun ho _ => ho⟩
  rw [eliminateEpsilon_eq]
  by_cases h : g.Yields [.nonTerminal g.start] [] ∧ g.occursOnRight g.start = true
  · exact .inl ⟨h.1, h.2, if_pos (hcond.2 h)⟩
  · exact .inr ⟨h, if_neg (mt hcond.1 h)⟩

/-- Every name keeps its words but for the empty one. -/
theorem eliminateEpsilon_yields (hg : g.WellFormed) {a : String} (ha : a ∈ g.nonTerminals) {w : List String}
    (hw : w ≠ []) : g.eliminateEpsilon.Yields [.nonTerminal a] w ↔ g.Yields [.nonTerminal a] w := by
  have hn := hg.nonTerminals_nodup
  have hne : g.expanded.nonTerminals.Nodup := by simpa using hn
  rcases eliminateEpsilon_cases hn with ⟨-, -, he⟩ | ⟨-, he⟩
  · have hold : .nonTerminal (g.freshName g.start) ∉ [Symbol.nonTerminal a] := by
      rw [List.mem_singleton, Symbol.nonTerminal.injEq]
      rintro rfl
      exact (freshName_not_mem g g.start).2.2 ha
    rw [he, withStart_yields hne (hg.unused_freshName g.start) hold]
    exact expanded_yields hn hw
  · rw [he]
    exact expanded_yields hn hw

/-- The start symbols before and after have the same words, the empty word included. -/
theorem eliminateEpsilon_yields_start (hg : g.WellFormed) {w : List String} :
    g.eliminateEpsilon.Yields [.nonTerminal g.eliminateEpsilon.start] w ↔ g.Yields [.nonTerminal g.start] w := by
  have hn := hg.nonTerminals_nodup
  have hne : g.expanded.nonTerminals.Nodup := by simpa using hn
  rcases eliminateEpsilon_cases hn with ⟨hnil, -, he⟩ | ⟨hc, he⟩
  · rw [he]
    refine (withStart_yields_start hne (hg.unused_freshName g.start)).trans ?_
    by_cases hw : w = []
    · subst hw
      exact iff_of_true (.inl rfl) hnil
    · rw [or_iff_right hw]
      exact expanded_yields hn hw
  · rw [he]
    by_cases hw : w = []
    · subst hw
      constructor
      · exact Yields.of_expanded hn
      · intro h
        have hk : g.KeepsEpsilon := ⟨(mem_nullable hn).2 h, fun ho => hc ⟨h, ho⟩⟩
        exact yields_epsilon.of_mem_productions ((mem_expanded hn).2 (.inl ⟨hk, rfl, rfl⟩))
    · exact expanded_yields hn hw

theorem eliminateEpsilon_start_of_not_yields (hn : g.nonTerminals.Nodup)
    (h : ¬ g.Yields [.nonTerminal g.start] []) : g.eliminateEpsilon.start = g.start := by
  rcases eliminateEpsilon_cases hn with ⟨hnil, -, -⟩ | ⟨-, he⟩
  · exact absurd hnil h
  · rw [he, expanded_start]

end NormalForms.Grammar
