import NormalForms.Proofs.Built

namespace NormalForms.Grammar

variable {g : Grammar}

theorem mem_eliminateInaccessible_nonTerminals (hg : g.WellFormed) {a : String} :
    a ∈ g.eliminateInaccessible.nonTerminals ↔ g.Exposes g.start a := by
  have hn := hg.nonTerminals_nodup
  constructor
  · intro ha
    refine (eliminateInaccessible_exposes hn ha).simulate fun left p hp b hb => ?_
    exact .of_mem_productions ((eliminateInaccessible_within hn).mem_of_mem left p hp) hb
  · intro he
    rw [eliminateInaccessible_nonTerminals, List.mem_filter, decide_eq_true_eq]
    refine ⟨he.closed (fun _ _ _ hp b hb => ?_) hg.start_mem, he.mem_accessible hn⟩
    exact (hg.admits hp).nonTerminal_mem b hb

theorem eliminateInaccessible_productions (hn : g.nonTerminals.Nodup) {a : String}
    (ha : a ∈ g.eliminateInaccessible.nonTerminals) : g.eliminateInaccessible.productions a = g.productions a := by
  obtain ⟨r, hr, rfl⟩ := mem_nonTerminals.1 ha
  rw [productions_left (eliminateInaccessible_nodup hn) hr, productions_left hn (List.mem_of_mem_filter hr)]

theorem eliminateInaccessible_derivesIn (hn : g.nonTerminals.Nodup) {n : Nat} {u v : List Symbol}
    (hu : ∀ a, .nonTerminal a ∈ u → a ∈ g.accessible) :
    g.eliminateInaccessible.DerivesIn n u v ↔ g.DerivesIn n u v := by
  constructor
  · intro hd
    refine hd.transfer (P := fun _ => True) (fun _ _ _ _ _ _ => trivial) (fun left p _ hp => ?_) fun _ _ => trivial
    exact (eliminateInaccessible_within hn).mem_of_mem left p hp
  · intro hd
    refine hd.transfer (P := (· ∈ g.accessible)) (fun left p hl hp a ha => ?_) (fun left p hl hp => ?_) hu
    · exact mem_accessible_of_mem_productions hn hl hp ha
    · exact (mem_eliminateInaccessible hn).2 ⟨hl, hp⟩

theorem eliminateInaccessible_accessible (hn : g.nonTerminals.Nodup) :
    ∀ a ∈ g.eliminateInaccessible.nonTerminals, a ∈ g.eliminateInaccessible.accessible := by
  intro a ha
  exact (eliminateInaccessible_exposes hn ha).mem_accessible (eliminateInaccessible_nodup hn)

/-- Without its inaccessible names a grammar has the rules, as they were, of those names that stand in a sentential form
derived from the start symbol. From each of them the same sentential forms are derived as before, and by the same number
of steps, and each is still found from the start symbol. -/
theorem eliminateInaccessible_keeps_forms (hg : g.WellFormed) :
    g.eliminateInaccessible.start = g.start ∧ g.eliminateInaccessible.terminals = g.terminals ∧
    g.eliminateInaccessible.rules.Sublist g.rules ∧
    g.eliminateInaccessible.nonTerminals.Sublist g.nonTerminals ∧
    (∀ a, a ∈ g.eliminateInaccessible.nonTerminals ↔
      ∃ u v, g.Derives [.nonTerminal g.start] (u ++ .nonTerminal a :: v)) ∧
    (∀ a ∈ g.eliminateInaccessible.nonTerminals, g.eliminateInaccessible.productions a = g.productions a) ∧
    (∀ a ∈ g.eliminateInaccessible.nonTerminals, ∀ u,
      (g.eliminateInaccessible.Derives [.nonTerminal a] u ↔ g.Derives [.nonTerminal a] u) ∧
      ∀ n, g.eliminateInaccessible.DerivesIn n [.nonTerminal a] u ↔ g.DerivesIn n [.nonTerminal a] u) ∧
    ∀ a ∈ g.eliminateInaccessible.nonTerminals, a ∈ g.eliminateInaccessible.accessible ∧
      ∃ u v, g.eliminateInaccessible.Derives [.nonTerminal g.eliminateInaccessible.start] (u ++ .nonTerminal a :: v) := by
  have hn := hg.nonTerminals_nodup
  have hforms : ∀ a ∈ g.eliminateInaccessible.nonTerminals, ∀ u n,
      g.eliminateInaccessible.DerivesIn n [.nonTerminal a] u ↔ g.DerivesIn n [.nonTerminal a] u := by
    intro a ha u n
    apply eliminateInaccessible_derivesIn hn
    intro b hb
    rw [Symbol.nonTerminal.inj (List.mem_singleton.1 hb)]
    exact ((mem_eliminateInaccessible_nonTerminals hg).1 ha).mem_accessible hn
  have hrules : g.eliminateInaccessible.rules.Sublist g.rules := List.filter_sublist
  refine ⟨rfl, rfl, hrules, hrules.map _, fun a => mem_eliminateInaccessible_nonTerminals hg,
    fun a => eliminateInaccessible_productions hn, fun a ha u => ⟨exists_congr (hforms a ha u), hforms a ha u⟩,
    fun a ha => ⟨eliminateInaccessible_accessible hn a ha, eliminateInaccessible_exposes hn ha⟩⟩

/-- A grammar with names that refer to its start symbol, but to which nothing leads from there. -/
def stranding : Grammar where
  start := "S"
  terminals := ["a", "b"]
  rules := [
    ⟨"D", [[.nonTerminal "C"], [.nonTerminal "S"]]⟩,
    ⟨"S", [[.terminal "a", .nonTerminal "A"], [.terminal "b"]]⟩,
    ⟨"C", [[.terminal "a", .nonTerminal "D"]]⟩,
    ⟨"A", [[.nonTerminal "S", .nonTerminal "A"], [.epsilon]]⟩]

theorem stranding_wellFormed : stranding.WellFormed := by
  have h : declare ["D", "S", "C", "A"] ["a", "b"]
      [("D", ["C", "S"]), ("S", ["aA", "b"]), ("C", ["aD"]), ("A", ["SA", "ε"])] (some "S") = .ok stranding := by rfl
  exact declare_wellFormed h

theorem stranding_eliminateInaccessible : stranding.WellFormed ∧
    stranding.eliminateInaccessible.nonTerminals = ["S", "A"] ∧
    (¬ ∃ u v, stranding.Derives [.nonTerminal "S"] (u ++ .nonTerminal "D" :: v)) ∧
    stranding.eliminateInaccessible.Derives [.nonTerminal "A"] [.nonTerminal "S", .nonTerminal "A"] := by
  have hw := stranding_wellFormed
  obtain ⟨-, -, -, -, hnames, -, hforms, -⟩ := eliminateInaccessible_keeps_forms hw
  have hmem : stranding.eliminateInaccessible.nonTerminals = ["S", "A"] := by with_unfolding_all decide
  have hd : stranding.Derives [.nonTerminal "A"] [.nonTerminal "S", .nonTerminal "A"] :=
    .of_mem_productions (p := [.nonTerminal "S", .nonTerminal "A"]) (by decide)
  refine ⟨hw, hmem, fun he => ?_, (hforms "A" (by simp [hmem]) _).1.2 hd⟩
  have hD := (hnames "D").2 he
  rw [hmem] at hD
  simp at hD

end NormalForms.Grammar
