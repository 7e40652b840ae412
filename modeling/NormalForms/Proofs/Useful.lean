import NormalForms.Grammar.Eliminations
import NormalForms.Proofs.Guarantees
import NormalForms.Proofs.Reach
import NormalForms.Proofs.Saturation

namespace NormalForms.Grammar

variable {g : Grammar}

theorem mem_references (hn : g.nonTerminals.Nodup) {a b : String} :
    (a, b) ∈ g.references ↔ ∃ p ∈ g.productions a, .nonTerminal b ∈ p := by
  simp only [references, List.mem_flatMap, List.mem_map, Prod.mk.injEq, mem_productions hn,
    Production.mem_nonTerminals]
  constructor
  · rintro ⟨r, hr, p, hp, c, hc, rfl, rfl⟩
    exact ⟨p, ⟨r, hr, rfl, hp⟩, hc⟩
  · rintro ⟨p, ⟨r, hr, rfl, hp⟩, hb⟩
    exact ⟨r, hr, p, hp, b, hb, rfl, rfl⟩

theorem mem_accessible {a : String} : a ∈ g.accessible ↔ Leads g.references g.start a := by
  simp [accessible, mem_reach]

theorem start_mem_accessible : g.start ∈ g.accessible :=
  mem_accessible.2 .refl

theorem mem_accessible_of_mem_productions (hn : g.nonTerminals.Nodup) {a b : String} {p : Production}
    (ha : a ∈ g.accessible) (hp : p ∈ g.productions a) (hb : .nonTerminal b ∈ p) : b ∈ g.accessible :=
  mem_accessible.2 (.tail (mem_accessible.1 ha) ((mem_references hn).2 ⟨p, hp, hb⟩))

theorem eliminateInaccessible_nonTerminals :
    g.eliminateInaccessible.nonTerminals = g.nonTerminals.filter (· ∈ g.accessible) := by
  rw [nonTerminals, nonTerminals, List.filter_map]
  rfl

theorem eliminateInaccessible_nodup (hn : g.nonTerminals.Nodup) : g.eliminateInaccessible.nonTerminals.Nodup := by
  rw [eliminateInaccessible_nonTerminals]
  exact hn.filter _

theorem mem_eliminateInaccessible (hn : g.nonTerminals.Nodup) {a : String} {p : Production} :
    p ∈ g.eliminateInaccessible.productions a ↔ a ∈ g.accessible ∧ p ∈ g.productions a := by
  rw [mem_productions (eliminateInaccessible_nodup hn), mem_productions hn]
  simp only [eliminateInaccessible, List.mem_filter, decide_eq_true_eq]
  constructor
  · rintro ⟨r, ⟨hr, ha⟩, rfl, hp⟩
    exact ⟨ha, r, hr, rfl, hp⟩
  · rintro ⟨ha, r, hr, rfl, hp⟩
    exact ⟨r, ⟨hr, ha⟩, rfl, hp⟩

theorem eliminateInaccessible_within (hn : g.nonTerminals.Nodup) : g.eliminateInaccessible.Within g :=
  ⟨rfl, fun _ _ hp => ((mem_eliminateInaccessible hn).1 hp).2⟩

theorem eliminateInaccessible_yields (hn : g.nonTerminals.Nodup) {u : List Symbol} {w : List String}
    (hu : ∀ a, .nonTerminal a ∈ u → a ∈ g.accessible) : g.eliminateInaccessible.Yields u w ↔ g.Yields u w := by
  constructor
  · exact Yields.mono (eliminateInaccessible_within hn).mem_of_mem
  · intro h
    refine h.transfer (P := (· ∈ g.accessible)) ?_ ?_ hu
    · intro left p hl hp a ha
      exact mem_accessible_of_mem_productions hn hl hp ha
    · intro left p w hl hp _ hy
      exact hy.of_mem_productions ((mem_eliminateInaccessible hn).2 ⟨hl, hp⟩)

theorem eliminateInaccessible_yields_nonTerminal (hn : g.nonTerminals.Nodup) {a : String} {w : List String}
    (ha : a ∈ g.accessible) : g.eliminateInaccessible.Yields [.nonTerminal a] w ↔ g.Yields [.nonTerminal a] w := by
  apply eliminateInaccessible_yields hn
  intro b hb
  rwa [Symbol.nonTerminal.inj (List.mem_singleton.1 hb)]

theorem Exposes.mem_accessible (hn : g.nonTerminals.Nodup) {a : String} (h : g.Exposes g.start a) :
    a ∈ g.accessible :=
  h.closed (fun _ _ hl hp _ hb => mem_accessible_of_mem_productions hn hl hp hb) start_mem_accessible

theorem eliminateInaccessible_exposes (hn : g.nonTerminals.Nodup) {a : String}
    (ha : a ∈ g.eliminateInaccessible.nonTerminals) : g.eliminateInaccessible.Exposes g.start a := by
  rw [eliminateInaccessible_nonTerminals, List.mem_filter, decide_eq_true_eq, mem_accessible] at ha
  induction ha.2 with
  | refl => exact .refl _
  | tail hl he ih =>
      obtain ⟨p, hp, hb⟩ := (mem_references hn).1 he
      have hm := (mem_eliminateInaccessible hn).2 ⟨mem_accessible.2 hl, hp⟩
      exact (ih ⟨mem_nonTerminals_of_mem_productions hp, hl⟩).trans (.of_mem_productions hm hb)

theorem WellFormed.eliminateInaccessible (hg : g.WellFormed) : g.eliminateInaccessible.WellFormed := by
  have hmem : ∀ a, a ∈ g.eliminateInaccessible.nonTerminals ↔ a ∈ g.nonTerminals ∧ a ∈ g.accessible := by
    simp [eliminateInaccessible_nonTerminals]
  have hn := hg.nonTerminals_nodup
  apply hg.of_sublist
  · rfl
  · rw [eliminateInaccessible_nonTerminals]
    exact List.filter_sublist
  · exact (hmem _).2 ⟨hg.start_mem, start_mem_accessible⟩
  · intro left p hp
    obtain ⟨hl, hp⟩ := (mem_eliminateInaccessible hn).1 hp
    have ha := hg.admits hp
    exact ⟨ha, fun a hm => (hmem a).2 ⟨ha.nonTerminal_mem a hm, mem_accessible_of_mem_productions hn hl hp hm⟩⟩
  · intro r hr
    exact hg.alternatives_nodup r (List.mem_of_mem_filter hr)

theorem eliminateNonProductive_nonTerminals :
    g.eliminateNonProductive.nonTerminals = g.nonTerminals.filter fun a => a ∈ g.productive ∨ a = g.start := by
  rw [nonTerminals, nonTerminals, List.filter_map]
  simp only [eliminateNonProductive, List.map_map]
  rfl

theorem eliminateNonProductive_nodup (hn : g.nonTerminals.Nodup) : g.eliminateNonProductive.nonTerminals.Nodup := by
  rw [eliminateNonProductive_nonTerminals]
  exact hn.filter _

theorem mem_productive_of_forall (hn : g.nonTerminals.Nodup) {a : String} {p : Production}
    (hp : p ∈ g.productions a) (hb : ∀ b, .nonTerminal b ∈ p → b ∈ g.productive) : a ∈ g.productive := by
  rw [mem_productive hn]
  obtain ⟨w, hw⟩ := exists_yields_of_forall fun b hm => (mem_productive hn).1 (hb b hm)
  exact ⟨w, hw.of_mem_productions hp⟩

theorem mem_eliminateNonProductive (hn : g.nonTerminals.Nodup) {a : String} {p : Production} :
    p ∈ g.eliminateNonProductive.productions a ↔
      p ∈ g.productions a ∧ ∀ b, .nonTerminal b ∈ p → b ∈ g.productive := by
  rw [mem_productions (eliminateNonProductive_nodup hn)]
  simp only [eliminateNonProductive, List.mem_map, List.mem_filter, decide_eq_true_eq]
  constructor
  · rintro ⟨_, ⟨r, ⟨hr, -⟩, rfl⟩, rfl, hp⟩
    simp only [List.mem_filter, List.all_eq_true, decide_eq_true_eq, Production.mem_nonTerminals] at hp
    exact ⟨mem_productions_left hn hr hp.1, hp.2⟩
  · rintro ⟨hp, hb⟩
    have ha := mem_productive_of_forall hn hp hb
    obtain ⟨r, hr, rfl, hr'⟩ := exists_of_mem_productions hp
    refine ⟨_, ⟨r, ⟨hr, .inl ha⟩, rfl⟩, rfl, ?_⟩
    simpa only [List.mem_filter, List.all_eq_true, decide_eq_true_eq, Production.mem_nonTerminals] using ⟨hr', hb⟩

theorem mem_eliminateNonProductive_iff_yields (hn : g.nonTerminals.Nodup) {a : String} {p : Production} :
    p ∈ g.eliminateNonProductive.productions a ↔ p ∈ g.productions a ∧ ∃ w, g.Yields p w := by
  rw [mem_eliminateNonProductive hn]
  simp only [mem_productive hn]
  exact and_congr_right fun _ => ⟨exists_yields_of_forall, fun ⟨_, hw⟩ _ hb => hw.exists_of_mem hb⟩

theorem eliminateNonProductive_productions_start (hn : g.nonTerminals.Nodup)
    (hs : ∀ w, ¬ g.Yields [.nonTerminal g.start] w) : g.eliminateNonProductive.productions g.start = [] := by
  refine List.eq_nil_iff_forall_not_mem.2 fun p hm => ?_
  obtain ⟨hm, hb⟩ := (mem_eliminateNonProductive hn).1 hm
  obtain ⟨w, hw⟩ := (mem_productive hn).1 (mem_productive_of_forall hn hm hb)
  exact hs w hw

theorem eliminateNonProductive_within (hn : g.nonTerminals.Nodup) : g.eliminateNonProductive.Within g :=
  ⟨rfl, fun _ _ hp => ((mem_eliminateNonProductive hn).1 hp).1⟩

theorem eliminateNonProductive_yields (hn : g.nonTerminals.Nodup) {u : List Symbol} {w : List String} :
    g.eliminateNonProductive.Yields u w ↔ g.Yields u w := by
  constructor
  · exact Yields.mono (eliminateNonProductive_within hn).mem_of_mem
  · intro h
    refine h.simulate fun left p w hp hg hy => hy.of_mem_productions ?_
    exact (mem_eliminateNonProductive hn).2 ⟨hp, fun b hb => (mem_productive hn).2 (hg.exists_of_mem hb)⟩

theorem WellFormed.eliminateNonProductive (hg : g.WellFormed) : g.eliminateNonProductive.WellFormed := by
  have hmem : ∀ a, a ∈ g.eliminateNonProductive.nonTerminals ↔
      a ∈ g.nonTerminals ∧ (a ∈ g.productive ∨ a = g.start) := by
    simp [eliminateNonProductive_nonTerminals]
  have hn := hg.nonTerminals_nodup
  apply hg.of_sublist
  · rfl
  · rw [eliminateNonProductive_nonTerminals]
    exact List.filter_sublist
  · exact (hmem _).2 ⟨hg.start_mem, .inr rfl⟩
  · intro left p hp
    obtain ⟨hp, hb⟩ := (mem_eliminateNonProductive hn).1 hp
    have ha := hg.admits hp
    exact ⟨ha, fun a hm => (hmem a).2 ⟨ha.nonTerminal_mem a hm, .inl (hb a hm)⟩⟩
  · intro r hr
    obtain ⟨s, hs, rfl⟩ := List.mem_map.1 hr
    exact (hg.alternatives_nodup s (List.mem_of_mem_filter hs)).filter _

end NormalForms.Grammar
