import NormalForms.Proofs.ShapingRun

namespace NormalForms.Grammar

open Helper

variable {g : Grammar}

theorem wrapper_mem_helpers {t : String} :
    wrapper t ∈ g.helpers ↔ ∃ r ∈ g.rules, ∃ p ∈ r.alternatives, 2 ≤ p.length ∧ .terminal t ∈ p := by
  simp only [mem_helpers, wrapper_mem_needed]
  constructor
  · rintro ⟨r, hr, e, he, ht⟩
    exact ⟨r, hr, e.1, (List.mem_zipIdx' he).2 ▸ List.getElem_mem _, ht⟩
  · rintro ⟨r, hr, p, hp, ht⟩
    obtain ⟨number, hlt, he⟩ := List.mem_iff_getElem.1 hp
    exact ⟨r, hr, (p, number), List.mem_zipIdx_iff_getElem?.2 (List.getElem?_eq_some_iff.2 ⟨hlt, he⟩), ht⟩

theorem shape_productions_wrapper (hn : g.nonTerminals.Nodup) {t : String} (ht : wrapper t ∈ g.helpers) :
    g.shape.productions (g.helperName (wrapper t)) = [[.terminal t]] :=
  shape_productions_helperName hn ht

theorem shape_productions_link (hn : g.nonTerminals.Nodup) {h : Helper} (hh : h ∈ g.helpers) (hl : h.isLink = true) :
    ∃ x y, g.shape.productions (g.helperName h) = [[x, y]] := by
  rw [shape_productions_helperName hn hh]
  obtain ⟨left, p, -, ⟨t, rfl, -⟩ | ⟨number, rest, rfl, hlen, -, -⟩⟩ := origin_of_mem_helpers hn hh
  · cases hl
  · cases rest using shaped.fun_cases with
    | case1 | case2 => simp at hlen
    | case3 x y => exact ⟨_, _, rfl⟩
    | case4 x y z p => exact ⟨_, _, rfl⟩

theorem eq_helperName_wrapper (hn : g.nonTerminals.Nodup) {a t : String} (ha : a ∈ g.fresh)
    (hp : g.shape.productions a = [[.terminal t]]) : a = g.helperName (wrapper t) := by
  obtain ⟨h, hh, rfl⟩ := mem_fresh.1 ha
  cases h with
  | wrapper u =>
      rw [shape_productions_wrapper hn hh] at hp
      cases hp
      rfl
  | link left number rest =>
      obtain ⟨x, y, he⟩ := shape_productions_link hn hh rfl
      rw [he] at hp
      cases hp

/-- Shaping loses nothing, whether the rules are rewritten all at once or one after the other in a table that grows. It
appends new names: one wrapper for each terminal that stands in a production of two symbols or more, and links with one
pair each, to which one place refers. Unfolding the new names again and again turns the productions of each old name
into what they were, and it derives the same words. -/
theorem shape_lossless (hg : g.WellFormed) :
    Shaping.run g = g.shape ∧ g.shape.start = g.start ∧ g.shape.terminals = g.terminals ∧
    g.shape.nonTerminals = g.nonTerminals ++ g.fresh ∧ g.fresh.Nodup ∧
    (∀ a ∈ g.fresh, a ∉ g.nonTerminals ∧ a ∉ g.terminals) ∧
    (∀ a ∈ g.fresh,
      (∃ t, (∃ r ∈ g.rules, ∃ p ∈ r.alternatives, 2 ≤ p.length ∧ .terminal t ∈ p) ∧
        g.shape.productions a = [[.terminal t]]) ∨
      (∃ x y, g.shape.productions a = [[x, y]]) ∧ g.shape.rightSymbols.count (.nonTerminal a) = 1) ∧
    (∀ r ∈ g.rules, ∀ p ∈ r.alternatives, 2 ≤ p.length → ∀ t, .terminal t ∈ p →
      ∃! a, a ∈ g.fresh ∧ g.shape.productions a = [[.terminal t]]) ∧
    (∀ a ∈ g.nonTerminals, (g.shape.productions a).length = (g.productions a).length ∧
      (∃ n, ∀ m ≥ n, (g.shape.productions a).map (g.shape.unfoldOnce g.fresh)^[m] = g.productions a) ∧
      ∀ p ∈ g.productions a, ∀ b ∈ g.fresh, .nonTerminal b ∉ p) ∧
    ∀ a ∈ g.nonTerminals, ∀ word, g.shape.Generates a word ↔ g.Generates a word := by
  have hn := hg.nonTerminals_nodup
  have hnames : g.shape.nonTerminals = g.nonTerminals ++ g.fresh := by rw [fresh_eq, shape_nonTerminals]
  have hnodup : g.fresh.Nodup := (List.nodup_append.1 (hnames ▸ shape_nodup hn)).2.1
  refine ⟨Shaping.run_eq_shape hg, rfl, rfl, hnames, hnodup, fun a ha => ?_, fun a ha => ?_,
    fun r hr p hp hlen t ht => ?_, fun a ha => ?_, fun a ha word => ?_⟩
  · obtain ⟨h, hh, rfl⟩ := mem_fresh.1 ha
    exact ⟨(helperName_free hh).2.2, (helperName_free hh).2.1⟩
  · obtain ⟨h, hh, rfl⟩ := mem_fresh.1 ha
    cases h with
    | wrapper t => exact .inl ⟨t, wrapper_mem_helpers.1 hh, shape_productions_wrapper hn hh⟩
    | link left number rest => exact .inr ⟨shape_productions_link hn hh rfl, count_helperName hg hh rfl⟩
  · have hh : wrapper t ∈ g.helpers := wrapper_mem_helpers.2 ⟨r, hr, p, hp, hlen, ht⟩
    refine ⟨g.helperName (wrapper t), ⟨mem_fresh.2 ⟨_, hh, rfl⟩, shape_productions_wrapper hn hh⟩, ?_⟩
    rintro a ⟨ha, he⟩
    exact eq_helperName_wrapper hn ha he
  · have hbound : ∀ p ∈ g.productions a, p.length ≤ (g.productions a).flatten.length := fun p hp =>
      (List.sublist_flatten_of_mem hp).length_le
    have hback : ∀ m ≥ (g.productions a).flatten.length,
        (g.shape.productions a).map (g.shape.unfoldOnce g.fresh)^[m] = g.productions a := fun m hm =>
      iterate_unfoldOnce_productions hg ha fun p hp => (hbound p hp).trans hm
    refine ⟨?_, ⟨_, hback⟩, fun p hp b hb hm => ?_⟩
    · simpa using congrArg List.length (hback _ (Nat.le_refl _))
    · exact not_mem_fresh ((hg.admits hp).nonTerminal_mem b hm) hb
  · rw [generates_iff_yields, generates_iff_yields]
    exact shape_yields hg ha

theorem mixing_shape_lossless : mixing.WellFormed ∧
    (Shaping.run mixing).nonTerminals = ["S", "A", "S_1", "T_a", "T_b", "S_1'", "S_2"] ∧
    mixing.shape.productions "S" = [[.nonTerminal "T_a", .nonTerminal "S_1'"], [.epsilon]] ∧
    mixing.shape.rightSymbols.count (.nonTerminal "S_1'") = 1 ∧
    (∃ n, ∀ m ≥ n, (mixing.shape.productions "S").map (mixing.shape.unfoldOnce mixing.fresh)^[m] =
      mixing.productions "S") ∧
    ∃! a, a ∈ mixing.fresh ∧ mixing.shape.productions a = [[.terminal "b"]] := by
  obtain ⟨hrun, -, -, -, -, -, hkinds, hwrappers, hold, -⟩ := shape_lossless mixing_wellFormed
  have hnames : mixing.shape.nonTerminals = ["S", "A", "S_1", "T_a", "T_b", "S_1'", "S_2"] := by
    with_unfolding_all decide
  have hlink : mixing.shape.rightSymbols.count (.nonTerminal "S_1'") = 1 := by
    rcases hkinds "S_1'" (by with_unfolding_all decide) with ⟨t, -, ht⟩ | ⟨-, hc⟩
    · have hp : mixing.shape.productions "S_1'" = [[.nonTerminal "A", .nonTerminal "S_2"]] := by
        with_unfolding_all decide
      rw [hp] at ht
      cases ht
    · exact hc
  exact ⟨mixing_wellFormed, hrun ▸ hnames, by with_unfolding_all decide, hlink, (hold "S" (by decide)).2.1,
    hwrappers ⟨"A", [[.terminal "a"], [.nonTerminal "A", .terminal "b"]]⟩ (by decide)
      [.nonTerminal "A", .terminal "b"] (by decide) (by decide) "b" (by decide)⟩

end NormalForms.Grammar
