import NormalForms.Proofs.Useful

namespace NormalForms.Grammar

variable {g : Grammar}

def trimmed (g : Grammar) : Grammar :=
  g.eliminateInaccessible.eliminateNonProductive.eliminateInaccessible

@[simp] theorem trimmed_start : g.trimmed.start = g.start :=
  rfl

theorem WellFormed.trimmed (hg : g.WellFormed) : g.trimmed.WellFormed :=
  hg.eliminateInaccessible.eliminateNonProductive.eliminateInaccessible

theorem trimmed_within (hn : g.nonTerminals.Nodup) : g.trimmed.Within g := by
  have hi := eliminateInaccessible_nodup hn
  have hp := eliminateNonProductive_nodup hi
  exact (eliminateInaccessible_within hp).trans
    ((eliminateNonProductive_within hi).trans (eliminateInaccessible_within hn))

theorem trimmed_yields_start (hn : g.nonTerminals.Nodup) {w : List String} :
    g.trimmed.Yields [.nonTerminal g.start] w ↔ g.Yields [.nonTerminal g.start] w := by
  have hi := eliminateInaccessible_nodup hn
  have hp := eliminateNonProductive_nodup hi
  calc
    _ ↔ g.eliminateInaccessible.eliminateNonProductive.Yields [.nonTerminal g.start] w :=
      eliminateInaccessible_yields_nonTerminal hp start_mem_accessible
    _ ↔ g.eliminateInaccessible.Yields [.nonTerminal g.start] w := eliminateNonProductive_yields hi
    _ ↔ _ := eliminateInaccessible_yields_nonTerminal hn start_mem_accessible

theorem trimmed_exposes (hn : g.nonTerminals.Nodup) : ∀ a ∈ g.trimmed.nonTerminals, g.trimmed.Exposes g.start a := by
  intro a ha
  have hi := eliminateInaccessible_nodup hn
  exact eliminateInaccessible_exposes (eliminateNonProductive_nodup hi) ha

/-- The second removal of what is inaccessible takes no word from a name that it keeps. -/
theorem trimmed_productive (hn : g.nonTerminals.Nodup) (hs : ∃ w, g.Yields [.nonTerminal g.start] w) :
    ∀ a ∈ g.trimmed.nonTerminals, ∃ w, g.trimmed.Yields [.nonTerminal a] w := by
  intro a ha
  have hi := eliminateInaccessible_nodup hn
  have hp := eliminateNonProductive_nodup hi
  rw [trimmed, eliminateInaccessible_nonTerminals, List.mem_filter, eliminateNonProductive_nonTerminals,
    List.mem_filter] at ha
  simp only [decide_eq_true_eq] at ha
  obtain ⟨⟨_, hk⟩, hacc⟩ := ha
  rcases hk with hk | rfl
  · obtain ⟨v, hv⟩ := (mem_productive hi).1 hk
    have hv := (eliminateNonProductive_yields hi).2 hv
    exact ⟨v, (eliminateInaccessible_yields_nonTerminal hp hacc).2 hv⟩
  · obtain ⟨w, hw⟩ := hs
    exact ⟨w, (trimmed_yields_start hn).2 hw⟩

theorem trimmed_productions_start (hn : g.nonTerminals.Nodup) (hs : ∀ w, ¬ g.Yields [.nonTerminal g.start] w) :
    g.trimmed.productions g.start = [] := by
  have hi := eliminateInaccessible_nodup hn
  have hp := eliminateNonProductive_nodup hi
  have hnone : g.eliminateInaccessible.eliminateNonProductive.productions g.start = [] :=
    eliminateNonProductive_productions_start hi fun w hw =>
      hs w ((eliminateInaccessible_yields_nonTerminal hn start_mem_accessible).1 hw)
  refine List.eq_nil_iff_forall_not_mem.2 fun p hm => ?_
  rw [trimmed, mem_eliminateInaccessible hp, hnone] at hm
  exact List.not_mem_nil hm.2

theorem WellFormed.trimmed_rules (hg : g.WellFormed) (hs : ∀ w, ¬ g.Yields [.nonTerminal g.start] w) :
    g.trimmed.rules = [⟨g.start, []⟩] := by
  have ht := hg.trimmed
  have hn := ht.nonTerminals_nodup
  have hnone := trimmed_productions_start hg.nonTerminals_nodup hs
  -- the start symbol has no production left, so it leads nowhere else
  have honly : ∀ a ∈ g.trimmed.nonTerminals, a = g.start := by
    intro a ha
    have hl := mem_accessible.1 ((trimmed_exposes hg.nonTerminals_nodup a ha).mem_accessible hn)
    refine hl.eq_of_no_edge ?_
    rintro ⟨b, c⟩ he rfl
    obtain ⟨p, hp, -⟩ := (mem_references hn).1 he
    rw [trimmed_start, hnone] at hp
    exact List.not_mem_nil hp
  have hnames : g.trimmed.nonTerminals = [g.start] := by
    refine List.perm_singleton.1 ((List.perm_ext_iff_of_nodup hn (List.nodup_singleton _)).2 fun a => ?_)
    rw [List.mem_singleton]
    constructor
    · exact honly a
    · rintro rfl
      exact ht.start_mem
  obtain ⟨r, hr, hl⟩ := List.map_eq_singleton_iff.1 hnames
  have hm : r ∈ g.trimmed.rules := by simp [hr]
  have ha := productions_left hn hm
  rw [hl, hnone] at ha
  rw [hr, ← hl, ha]

end NormalForms.Grammar
