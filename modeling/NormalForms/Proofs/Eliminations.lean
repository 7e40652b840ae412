import NormalForms.Proofs.Conversions

namespace NormalForms

/-- What is left of a right-linear production when symbols are left out, but not all of them. -/
theorem Production.RightLinear.of_sublist {p q : Production} (hp : p.RightLinear) (hq : q ≠ []) (hs : q.Sublist p) :
    q.RightLinear := by
  rcases hp with rfl | ⟨a, rfl⟩ | ⟨b, rfl⟩ | ⟨a, b, rfl⟩
  · exact .inl ((List.sublist_singleton.1 hs).resolve_left hq)
  · exact .inr (.inl ⟨a, (List.sublist_singleton.1 hs).resolve_left hq⟩)
  · exact .inr (.inr (.inl ⟨b, (List.sublist_singleton.1 hs).resolve_left hq⟩))
  · rcases List.sublist_cons_iff.1 hs with hs | ⟨r, rfl, hr⟩
    · exact .inr (.inr (.inl ⟨b, (List.sublist_singleton.1 hs).resolve_left hq⟩))
    · rcases List.sublist_singleton.1 hr with rfl | rfl
      · exact .inr (.inl ⟨a, rfl⟩)
      · exact .inr (.inr (.inr ⟨a, b, rfl⟩))

namespace Grammar

variable {g h : Grammar} {fa : Automaton}

def RightLinear (g : Grammar) : Prop :=
  ∀ left, ∀ p ∈ g.productions left, p.RightLinear

theorem rightLinear_iff (hn : g.nonTerminals.Nodup) :
    g.RightLinear ↔ ∀ r ∈ g.rules, ∀ p ∈ r.alternatives, p.RightLinear := by
  constructor
  · intro h r hr p hp
    exact h r.left p (mem_productions_left hn hr hp)
  · intro h left p hp
    obtain ⟨r, hr, -, hp⟩ := exists_of_mem_productions hp
    exact h r hr p hp

theorem WellFormed.rightLinear_of_toAutomaton (hg : g.WellFormed) (h : g.toAutomaton = .ok fa) : g.RightLinear :=
  (rightLinear_iff hg.nonTerminals_nodup).2 (exists_toAutomaton_eq_ok.1 ⟨fa, h⟩)

theorem WellFormed.toAutomaton_of_rightLinear (hg : g.WellFormed) (hr : g.RightLinear) :
    g.toAutomaton = .ok g.moveAutomaton := by
  have hr := (rightLinear_iff hg.nonTerminals_nodup).1 hr
  exact toAutomaton_eq_ok.2 ⟨fun r hm p hp => Production.isRightLinear_iff.2 (hr r hm p hp), rfl⟩

theorem WellFormed.accepts_of_toAutomaton (hg : g.WellFormed) (h : g.toAutomaton = .ok fa) {word : List String} :
    fa.accepts word = true ↔ g.Yields [.nonTerminal g.start] word := by
  have hr := exists_toAutomaton_eq_ok.1 ⟨fa, h⟩
  obtain ⟨-, rfl⟩ := toAutomaton_eq_ok.1 h
  exact hg.moveAutomaton_accepts_iff hr

theorem RightLinear.within (hr : h.RightLinear) (hw : g.Within h) : g.RightLinear :=
  fun left p hp => hr left p (hw.mem_of_mem left p hp)

theorem RightLinear.expanded (hn : g.nonTerminals.Nodup) (hr : g.RightLinear) : g.expanded.RightLinear := by
  intro left p hp
  rcases (mem_expanded hn).1 hp with ⟨-, -, rfl⟩ | ⟨q, hq, -, hd, hne⟩
  · exact .inl rfl
  · exact (hr left q hq).of_sublist hne (Production.sublist_of_mem_deletions hd)

theorem RightLinear.withStart (hn : g.nonTerminals.Nodup) (hr : g.RightLinear) {start : String}
    (hs : start ∉ g.nonTerminals) : (g.withStart start).RightLinear := by
  intro left p hp
  rcases (mem_withStart hn hs).1 hp with ⟨-, rfl | rfl⟩ | hp
  · exact .inr (.inr (.inl ⟨g.start, rfl⟩))
  · exact .inl rfl
  · exact hr left p hp

theorem RightLinear.eliminateEpsilon (hg : g.WellFormed) (hr : g.RightLinear) : g.eliminateEpsilon.RightLinear := by
  have hx := hr.expanded hg.nonTerminals_nodup
  rw [eliminateEpsilon_eq]
  split
  · exact hx.withStart hg.expanded.nonTerminals_nodup (hg.unused_freshName g.start).not_mem
  · exact hx

theorem RightLinear.eliminateRenaming (hn : g.nonTerminals.Nodup) (hr : g.RightLinear) :
    g.eliminateRenaming.RightLinear := by
  intro left p hp
  obtain ⟨-, b, -, hp, -⟩ := (mem_eliminateRenaming hn).1 hp
  exact hr b p hp

/-- Without renamings there is nothing that an empty move could come from. -/
theorem RenamingFree.label_ne_empty (hn : g.nonTerminals.Nodup) (hr : g.RenamingFree) :
    ∀ d ∈ g.moveAutomaton.rows, d.label ≠ .empty := by
  intro d hd hl
  obtain ⟨t, ht, rfl⟩ := mem_moveAutomaton_rows.1 hd
  obtain ⟨r, hm, p, hp, ht⟩ := mem_moveAutomaton_transitions.1 ht
  have hf := hr r.left p (mem_productions_left hn hm hp)
  unfold Production.transition? at ht
  split at ht
  · cases ht
    cases hl
  · cases hf
  · cases ht
    cases hl
  · cases ht

theorem RenamingFree.moveAutomaton_label_ne_empty (hn : g.nonTerminals.Nodup) (hr : g.RenamingFree) :
    ∀ t ∈ g.moveAutomaton.transitions, t.label ≠ .empty :=
  fun _ ht => hr.label_ne_empty hn _ (mem_moveAutomaton_rows.2 ⟨_, ht, rfl⟩)

/-- A right-linear grammar with the same words has an automaton with the same words. -/
theorem WellFormed.exists_toAutomaton (hg : g.WellFormed) (hfa : g.toAutomaton = .ok fa) (hh : h.WellFormed)
    (hr : h.RightLinear)
    (hw : ∀ word, h.Yields [.nonTerminal h.start] word ↔ g.Yields [.nonTerminal g.start] word) :
    ∃ fb, h.toAutomaton = .ok fb ∧ ∀ word, fb.accepts word = fa.accepts word := by
  have hfb := hh.toAutomaton_of_rightLinear hr
  refine ⟨h.moveAutomaton, hfb, fun word => ?_⟩
  rw [Bool.eq_iff_iff, hh.accepts_of_toAutomaton hfb, hw, hg.accepts_of_toAutomaton hfa]

/-- Each elimination keeps a right-linear grammar right-linear, and its automaton accepts the same words. Those of the
empty string and of the renamings, one after the other, take the empty moves from an automaton. -/
theorem eliminations_toAutomaton :
    (∀ (g : Grammar) (fa : Automaton), g.WellFormed → g.toAutomaton = .ok fa →
      ∀ h ∈ [g.eliminateEpsilon, g.eliminateRenaming, g.eliminateInaccessible, g.eliminateNonProductive],
        ∃ fb, h.toAutomaton = .ok fb ∧ ∀ word, fb.accepts word = fa.accepts word) ∧
    ∀ (fa : Automaton) (g : Grammar), fa.Valid → fa.toGrammar = .ok g →
      ∃ fb, g.eliminateEpsilon.eliminateRenaming.toAutomaton = .ok fb ∧
        (∀ d ∈ fb.rows, d.label ≠ .empty) ∧ (∀ t ∈ fb.transitions, t.label ≠ .empty) ∧
        ∀ word, fb.accepts word = fa.accepts word := by
  constructor
  · intro g fa hg hfa h hh
    have hn := hg.nonTerminals_nodup
    have hr := hg.rightLinear_of_toAutomaton hfa
    simp only [List.mem_cons, List.not_mem_nil, or_false] at hh
    rcases hh with rfl | rfl | rfl | rfl
    · exact hg.exists_toAutomaton hfa hg.eliminateEpsilon (hr.eliminateEpsilon hg) fun _ =>
        eliminateEpsilon_yields_start hg
    · exact hg.exists_toAutomaton hfa hg.eliminateRenaming (hr.eliminateRenaming hn) fun _ =>
        eliminateRenaming_yields hn
    · exact hg.exists_toAutomaton hfa hg.eliminateInaccessible (hr.within (eliminateInaccessible_within hn)) fun _ =>
        eliminateInaccessible_yields_nonTerminal hn start_mem_accessible
    · exact hg.exists_toAutomaton hfa hg.eliminateNonProductive (hr.within (eliminateNonProductive_within hn))
        fun _ => eliminateNonProductive_yields hn
  · intro fa g hv hg
    have hw := toGrammar_wellFormed hg
    obtain ⟨-, -, rfl⟩ := Automaton.toGrammar_eq_ok.1 hg
    have he := hw.eliminateEpsilon
    have hr := ((rightLinear_iff hw.nonTerminals_nodup).2 hv.stateGrammar_rightLinear).eliminateEpsilon hw
    have hfb := he.eliminateRenaming.toAutomaton_of_rightLinear (hr.eliminateRenaming he.nonTerminals_nodup)
    have hfree : fa.stateGrammar.eliminateEpsilon.eliminateRenaming.RenamingFree :=
      eliminateRenaming_renamingFree he.nonTerminals_nodup
    have hn := he.eliminateRenaming.nonTerminals_nodup
    refine ⟨_, hfb, hfree.label_ne_empty hn, hfree.moveAutomaton_label_ne_empty hn, fun word => ?_⟩
    rw [Bool.eq_iff_iff, hv.accepts_iff, he.eliminateRenaming.accepts_of_toAutomaton hfb]
    calc _ ↔ fa.stateGrammar.eliminateEpsilon.Yields [.nonTerminal fa.stateGrammar.eliminateEpsilon.start] word :=
          eliminateRenaming_yields he.nonTerminals_nodup
      _ ↔ fa.stateGrammar.Yields [.nonTerminal fa.stateGrammar.start] word := eliminateEpsilon_yields_start hw
      _ ↔ _ := hv.stateGrammar_yields_iff

theorem circling_eliminations_toAutomaton : finishing.WellFormed ∧ Automaton.circling.Valid ∧
    (∃ fb, finishing.eliminateRenaming.toAutomaton = .ok fb ∧ fb.accepts ["final'", "a"] = true) ∧
    ⟨⟨"q", .empty⟩, "p"⟩ ∈ Automaton.circling.transitions ∧
    ∃ fb, Automaton.circling.stateGrammar.eliminateEpsilon.eliminateRenaming.toAutomaton = .ok fb ∧
      (∀ t ∈ fb.transitions, t.label ≠ .empty) ∧ fb.accepts ["a"] = true := by
  obtain ⟨hgrammars, hautomata⟩ := eliminations_toAutomaton
  have hf := finishing_built.wellFormed
  have hv := Automaton.circling_built.valid
  obtain ⟨fb, hfb, hw⟩ := hgrammars finishing finishing.moveAutomaton hf rfl finishing.eliminateRenaming (by simp)
  obtain ⟨fc, hfc, -, hl, hw'⟩ := hautomata Automaton.circling _ hv rfl
  have ha : finishing.moveAutomaton.accepts ["final'", "a"] = true := by decide +kernel
  have hc : Automaton.circling.accepts ["a"] = true := by decide +kernel
  exact ⟨hf, hv, ⟨fb, hfb, (hw _).trans ha⟩, by decide +kernel, fc, hfc, hl, (hw' _).trans hc⟩

end Grammar

end NormalForms
