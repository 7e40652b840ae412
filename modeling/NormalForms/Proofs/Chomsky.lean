import NormalForms.Proofs.Built
import NormalForms.Proofs.Fixpoint
import NormalForms.Proofs.ShapedWords
import NormalForms.Proofs.Trimmed

namespace NormalForms.Grammar

variable {g : Grammar}

theorem WellFormed.toChomsky_yields (hg : g.WellFormed) {w : List String} :
    g.toChomsky.Yields [.nonTerminal g.toChomsky.start] w ↔ g.Yields [.nonTerminal g.start] w := by
  have he := hg.eliminateEpsilon
  have hr := he.eliminateRenaming
  have ht := hr.trimmed
  calc
    _ ↔ g.eliminateEpsilon.eliminateRenaming.trimmed.Yields [.nonTerminal g.eliminateEpsilon.start] w :=
      shape_yields ht ht.start_mem
    _ ↔ g.eliminateEpsilon.eliminateRenaming.Yields [.nonTerminal g.eliminateEpsilon.start] w :=
      trimmed_yields_start hr.nonTerminals_nodup
    _ ↔ g.eliminateEpsilon.Yields [.nonTerminal g.eliminateEpsilon.start] w :=
      eliminateRenaming_yields he.nonTerminals_nodup
    _ ↔ _ := eliminateEpsilon_yields_start hg

def nested : Grammar :=
  ⟨"S", ["a", "b"], [⟨"S", [[.terminal "a", .nonTerminal "S", .terminal "b"], [.epsilon]]⟩]⟩

theorem nested_built : nested.Built := by
  have h : declare ["S"] ["a", "b"] [("S", ["aSb", "ε"])] none = .ok nested := by rfl
  exact .declare h

def endless : Grammar :=
  ⟨"S", ["a"], [⟨"S", [[.terminal "a", .nonTerminal "S"]]⟩]⟩

theorem endless_built : endless.Built := by
  have h : declare ["S"] ["a"] [("S", ["aS"])] none = .ok endless := by rfl
  exact .declare h

/-- The Chomsky form of a grammar generates the same words as the grammar. -/
theorem toChomsky_generates (hg : g.Built) (w : List String) :
    g.toChomsky.Generates g.toChomsky.start w ↔ g.Generates g.start w := by
  rw [generates_iff_yields, generates_iff_yields]
  exact hg.wellFormed.toChomsky_yields

theorem nested_toChomsky_generates : nested.Built ∧
    (nested.toChomsky.Generates nested.toChomsky.start ["a", "b"] ↔ nested.Generates nested.start ["a", "b"]) :=
  ⟨nested_built, toChomsky_generates nested_built ["a", "b"]⟩

theorem WellFormed.toChomsky_isChomsky (hg : g.WellFormed) : g.toChomsky.isChomsky = true := by
  have he := hg.eliminateEpsilon
  have hr := he.eliminateRenaming
  have ht := hr.trimmed
  have hw := trimmed_within hr.nonTerminals_nodup
  apply shape_isChomsky ht
  · exact (eliminateRenaming_renamingFree he.nonTerminals_nodup).within hw
  · have hs := (eliminateEpsilon_epsilonAtStart hg).eliminateRenaming he.nonTerminals_nodup
    exact hs.within hw ht.nonTerminals_nodup hr.nonTerminals_nodup

/-- Every production of the Chomsky form is a terminal or a pair of non-terminals, or the empty string as an alternative
of the start symbol, which then stands on no right side. -/
theorem toChomsky_strict (hg : g.Built) :
    g.toChomsky.isChomsky = true ∧ ∀ r ∈ g.toChomsky.rules, ∀ p ∈ r.alternatives,
      (∃ a, p = [.terminal a]) ∨ (∃ a b, p = [.nonTerminal a, .nonTerminal b]) ∨
        p = [.epsilon] ∧ r.left = g.toChomsky.start ∧
          ∀ s ∈ g.toChomsky.rules, ∀ q ∈ s.alternatives, .nonTerminal g.toChomsky.start ∉ q := by
  have hc := hg.wellFormed.toChomsky_isChomsky
  refine ⟨hc, fun r hr p hp => ?_⟩
  rcases isChomsky_iff.1 hc r hr p hp with ht | hn | ⟨he, hl, hs⟩
  · exact .inl ht
  · exact .inr (.inl hn)
  · refine .inr (.inr ⟨he, hl, fun s hs' q hq hm => ?_⟩)
    have ho := occursOnRight_iff.2 ⟨s, hs', q, hq, hm⟩
    rw [hs] at ho
    cases ho

theorem nested_toChomsky_strict : nested.Built ∧ nested.toChomsky.isChomsky = true :=
  ⟨nested_built, (toChomsky_strict nested_built).1⟩

theorem WellFormed.toChomsky_exposes (hg : g.WellFormed) :
    ∀ a ∈ g.toChomsky.nonTerminals, g.toChomsky.Exposes g.toChomsky.start a := by
  have hr := hg.eliminateEpsilon.eliminateRenaming
  exact shape_exposes hr.trimmed (trimmed_exposes hr.nonTerminals_nodup)

theorem WellFormed.toChomsky_productive (hg : g.WellFormed) (hs : ∃ w, g.Yields [.nonTerminal g.start] w) :
    ∀ a ∈ g.toChomsky.nonTerminals, ∃ w, g.toChomsky.Yields [.nonTerminal a] w := by
  have he := hg.eliminateEpsilon
  have hr := he.eliminateRenaming
  obtain ⟨w, hw⟩ := hs
  have hw := (eliminateRenaming_yields he.nonTerminals_nodup).2 ((eliminateEpsilon_yields_start hg).2 hw)
  exact shape_productive hr.trimmed (trimmed_productive hr.nonTerminals_nodup ⟨w, hw⟩)

theorem WellFormed.toChomsky_rules (hg : g.WellFormed) (hs : ∀ w, ¬ g.Yields [.nonTerminal g.start] w) :
    g.toChomsky.start = g.start ∧ g.toChomsky.rules = [⟨g.start, []⟩] := by
  have he := hg.eliminateEpsilon
  have hstart := eliminateEpsilon_start_of_not_yields hg.nonTerminals_nodup (hs [])
  have ht : g.eliminateEpsilon.eliminateRenaming.trimmed.rules = [⟨g.eliminateEpsilon.start, []⟩] := by
    refine he.eliminateRenaming.trimmed_rules fun w hw => hs w ?_
    exact (eliminateEpsilon_yields_start hg).1 ((eliminateRenaming_yields he.nonTerminals_nodup).1 hw)
  rw [hstart] at ht
  constructor
  · exact hstart
  · change (g.eliminateEpsilon.eliminateRenaming.trimmed.shape).rules = _
    simp [shape_eq, helpers, Helper.ofRule, Helper.shapedRule, ht]

/-- Nothing in the Chomsky form is useless. If there are no words, then only the start symbol is left; otherwise every
production is used on the way from the start symbol to some word. -/
theorem toChomsky_useful (hg : g.WellFormed) :
    ((∀ w, ¬ g.Generates g.start w) → g.toChomsky.start = g.start ∧ g.toChomsky.rules = [⟨g.start, []⟩]) ∧
    ((∃ w, g.Generates g.start w) →
      (∀ r ∈ g.toChomsky.rules, r.alternatives ≠ []) ∧
      (∀ r ∈ g.toChomsky.rules, ∀ p ∈ r.alternatives, ∃ (u v : List Symbol) (w : List String),
        g.toChomsky.Derives [.nonTerminal g.toChomsky.start] (u ++ .nonTerminal r.left :: v) ∧
        g.toChomsky.Step (u ++ .nonTerminal r.left :: v) (u ++ p.yield ++ v) ∧
        g.toChomsky.Derives (u ++ p.yield ++ v) (w.map .terminal)) ∧
      ∀ a ∈ g.toChomsky.nonTerminals, a ∈ g.toChomsky.accessible ∧ a ∈ g.toChomsky.productive) := by
  simp only [generates_iff_yields]
  refine ⟨hg.toChomsky_rules, fun hs => ?_⟩
  have hn := hg.toChomsky.nonTerminals_nodup
  have he := hg.toChomsky_exposes
  have hp := hg.toChomsky_productive hs
  refine ⟨fun r hr ha => ?_, fun r hr p hm => ?_, fun a ha => ?_⟩
  · obtain ⟨w, hw⟩ := hp r.left (left_mem_nonTerminals hr)
    obtain ⟨p, hm, -⟩ := yields_nonTerminal.1 hw
    rw [productions_left hn hr, ha] at hm
    exact List.not_mem_nil hm
  · have hm := (mem_productions hn).2 ⟨r, hr, rfl, hm⟩
    refine exists_use (he r.left (left_mem_nonTerminals hr)) hm fun a ha => hp a ?_
    exact ha.closed (fun _ _ _ hq b hb => (hg.toChomsky.admits hq).nonTerminal_mem b hb) hg.toChomsky.start_mem
  · exact ⟨(he a ha).mem_accessible hn, (mem_productive hn).2 (hp a ha)⟩

theorem nested_toChomsky_useful : nested.WellFormed ∧ endless.WellFormed ∧ nested.Generates nested.start [] ∧
    (∀ a ∈ nested.toChomsky.nonTerminals, a ∈ nested.toChomsky.accessible ∧ a ∈ nested.toChomsky.productive) ∧
    (∀ w, ¬ endless.Generates endless.start w) ∧ endless.toChomsky.rules = [⟨endless.start, []⟩] := by
  have hn := nested_built.wellFormed
  have he := endless_built.wellFormed
  have hw : nested.Generates nested.start [] :=
    .of_mem_productions (p := [.epsilon]) (by decide)
  have hnone : ∀ w, ¬ endless.Generates endless.start w := by
    intro w hw
    have hp := (mem_productive he.nonTerminals_nodup).2 ⟨w, generates_iff_yields.1 hw⟩
    exact absurd hp (by decide +kernel)
  exact ⟨hn, he, hw, ((toChomsky_useful hn).2 ⟨[], hw⟩).2.2, hnone, ((toChomsky_useful he).1 hnone).2⟩

theorem WellFormed.toChomsky_eliminateInaccessible (hg : g.WellFormed) :
    g.toChomsky.eliminateInaccessible = g.toChomsky := by
  apply eliminateInaccessible_eq_self
  intro a ha
  exact (hg.toChomsky_exposes a ha).mem_accessible hg.toChomsky.nonTerminals_nodup

theorem WellFormed.toChomsky_eliminateNonProductive (hg : g.WellFormed) :
    g.toChomsky.eliminateNonProductive = g.toChomsky := by
  have hw := hg.toChomsky
  have hn := hw.nonTerminals_nodup
  by_cases hs : ∃ w, g.Yields [.nonTerminal g.start] w
  · have hp : ∀ a ∈ g.toChomsky.nonTerminals, a ∈ g.toChomsky.productive :=
      fun a ha => (mem_productive hn).2 (hg.toChomsky_productive hs a ha)
    apply eliminateNonProductive_eq_self hn
    · exact fun a ha => .inl (hp a ha)
    · exact fun _ _ hm a ha => hp a ((hw.admits hm).nonTerminal_mem a ha)
  · -- only the start symbol is left, and it is kept without any production
    obtain ⟨hstart, hrules⟩ := hg.toChomsky_rules (not_exists.1 hs)
    have hrule : ∀ r ∈ g.toChomsky.rules, r = ⟨g.start, []⟩ := by simp [hrules]
    apply eliminateNonProductive_eq_self hn
    · intro a ha
      obtain ⟨r, hr, rfl⟩ := mem_nonTerminals.1 ha
      rw [hrule r hr, hstart]
      exact .inr rfl
    · intro left p hm
      obtain ⟨r, hr, -, hp⟩ := exists_of_mem_productions hm
      rw [hrule r hr] at hp
      exact absurd hp List.not_mem_nil

theorem toChomsky_eq (g : Grammar) : g.toChomsky =
    g.eliminateEpsilon.eliminateRenaming.eliminateInaccessible.eliminateNonProductive.eliminateInaccessible.shape :=
  rfl

/-- None of the transformations finds anything to do in the Chomsky form, so that it stays as it is when it is brought
into the form again. -/
theorem toChomsky_fixpoint (hg : g.WellFormed) :
    g.toChomsky.eliminateEpsilon = g.toChomsky ∧ g.toChomsky.eliminateRenaming = g.toChomsky ∧
      g.toChomsky.eliminateInaccessible = g.toChomsky ∧ g.toChomsky.eliminateNonProductive = g.toChomsky ∧
      g.toChomsky.shape = g.toChomsky ∧ g.toChomsky.toChomsky = g.toChomsky := by
  have hw := hg.toChomsky
  have hc := hg.toChomsky_isChomsky
  have he := eliminateEpsilon_eq_self hw (epsilonAtStart_of_isChomsky hc)
  have hr := eliminateRenaming_eq_self hw (renamingFree_of_isChomsky hc)
  have hi := hg.toChomsky_eliminateInaccessible
  have hp := hg.toChomsky_eliminateNonProductive
  have hs := shape_eq_self hw.nonTerminals_nodup (shaped_of_isChomsky hc)
  refine ⟨he, hr, hi, hp, hs, ?_⟩
  rw [toChomsky_eq g.toChomsky, he, hr, hi, hp, hi, hs]

theorem nested_toChomsky_fixpoint : nested.WellFormed ∧ nested.toChomsky.start = "S'" ∧
    nested.toChomsky.eliminateEpsilon = nested.toChomsky ∧ nested.toChomsky.toChomsky = nested.toChomsky := by
  have hn := nested_built.wellFormed
  obtain ⟨he, -, -, -, -, hc⟩ := toChomsky_fixpoint hn
  exact ⟨hn, by decide +kernel, he, hc⟩

end NormalForms.Grammar
