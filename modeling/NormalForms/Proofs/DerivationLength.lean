import NormalForms.Proofs.Built

namespace NormalForms

/-- How many steps lie behind a symbol: a terminal is one step further on than a non-terminal. -/
def Symbol.weight : Symbol → Nat
  | terminal _ => 2
  | _ => 1

def weight : List Symbol → Nat
  | [] => 0
  | s :: u => s.weight + weight u

theorem weight_append (u v : List Symbol) : weight (u ++ v) = weight u + weight v := by
  induction u with
  | nil => simp [weight]
  | cons s u ih =>
      rw [List.cons_append, weight, weight, ih]
      omega

theorem weight_terminals (w : List String) : weight (w.map .terminal) = 2 * w.length := by
  induction w with
  | nil => rfl
  | cons a w ih =>
      rw [List.map_cons, weight, ih, Symbol.weight, List.length_cons]
      omega

namespace Grammar

variable {g : Grammar} {u v : List Symbol}

/-- No symbol of the form can vanish: if the start symbol has the empty string, then it does not stand there. -/
def Lasting (g : Grammar) (u : List Symbol) : Prop :=
  [.epsilon] ∈ g.productions g.start → .nonTerminal g.start ∉ u

/-- In Chomsky normal form, a production that is not the empty string weighs one more than its left side, and the start
symbol is not brought back to where it could vanish. -/
theorem weight_yield_of_isChomsky (hn : g.nonTerminals.Nodup) (hc : g.isChomsky = true) {left : String}
    {p : Production} (hp : p ∈ g.productions left) (hne : p ≠ [.epsilon]) :
    weight p.yield = 2 ∧ g.Lasting p.yield := by
  have hlast : g.Lasting p.yield := by
    intro he hm
    obtain ⟨-, hs⟩ := epsilonAtStart_of_isChomsky hc g.start he
    exact (occursOnRight_eq_false hn).1 hs left p hp (List.mem_of_mem_filter hm)
  refine ⟨?_, hlast⟩
  rcases isChomsky_cases hc hp with ⟨a, rfl⟩ | ⟨a, b, rfl⟩ | ⟨he, -⟩
  · rfl
  · rfl
  · exact absurd he hne

theorem Lasting.step (hn : g.nonTerminals.Nodup) (hc : g.isChomsky = true) (hl : g.Lasting u) (hs : g.Step u v) :
    g.Lasting v ∧ weight v = weight u + 1 := by
  cases hs with
  | @replace x y left p hp =>
      have hne : p ≠ [.epsilon] := by
        rintro rfl
        obtain ⟨rfl, -⟩ := epsilonAtStart_of_isChomsky hc left hp
        exact hl hp (by simp)
      obtain ⟨hw, hp⟩ := weight_yield_of_isChomsky hn hc hp hne
      constructor
      · intro he hm
        have hu := hl he
        rw [List.append_assoc, List.mem_append, List.mem_append] at hm
        rcases hm with hm | hm | hm
        · exact hu (by simp [hm])
        · exact hp he hm
        · exact hu (by simp [hm])
      · simp only [weight_append, weight, hw, Symbol.weight]
        omega

/-- As long as nothing can vanish, every step adds one to the weight. -/
theorem Lasting.derivesIn (hn : g.nonTerminals.Nodup) (hc : g.isChomsky = true) (hl : g.Lasting u) {n : Nat}
    (hd : g.DerivesIn n u v) : weight v = weight u + n := by
  induction hd with
  | refl => rfl
  | step hs _ ih =>
      obtain ⟨hl', hw⟩ := hl.step hn hc hs
      rw [ih hl', hw]
      omega

theorem exists_yield_of_step {left : String} (hs : g.Step [.nonTerminal left] v) :
    ∃ p ∈ g.productions left, v = p.yield := by
  generalize hu : [Symbol.nonTerminal left] = u at hs
  cases hs with
  | @replace x y left' p hp =>
      obtain ⟨rfl, he⟩ | ⟨-, he⟩ := List.singleton_eq_append_iff.1 hu
      · obtain ⟨rfl, rfl⟩ : left' = left ∧ y = [] := by simpa using he
        exact ⟨p, hp, by simp⟩
      · cases he

theorem eq_of_derivesIn_nil {n : Nat} (hd : g.DerivesIn n [] v) : n = 0 ∧ v = [] := by
  cases hd with
  | refl => exact ⟨rfl, rfl⟩
  | step hs _ =>
      generalize hu : [] = u at hs
      cases hs with
      | replace x y hp => simp at hu

/-- The first step either is the last one or leads to where nothing can vanish. -/
theorem derivesIn_succ_start (hn : g.nonTerminals.Nodup) (hc : g.isChomsky = true) {n : Nat}
    (hd : g.DerivesIn (n + 1) [.nonTerminal g.start] v) :
    (n = 0 ∧ v = []) ∨ ∃ u, g.Lasting u ∧ weight u = 2 ∧ g.DerivesIn n u v := by
  cases hd with
  | step hs hd =>
      obtain ⟨p, hp, rfl⟩ := exists_yield_of_step hs
      by_cases he : p = [.epsilon]
      · subst he
        exact .inl (eq_of_derivesIn_nil hd)
      · obtain ⟨hw, hl⟩ := weight_yield_of_isChomsky hn hc hp he
        exact .inr ⟨p.yield, hl, hw, hd⟩

/-- In Chomsky normal form, the length of a word gives the number of steps of all its derivations, in whatever order
they go on, and from what they pass through nothing vanishes any more. -/
theorem isChomsky_derivesIn (hg : g.WellFormed) (hc : g.isChomsky = true) :
    (∀ (w : List String) (n : Nat), g.DerivesIn n [.nonTerminal g.start] (w.map .terminal) →
      n = if w = [] then 1 else 2 * w.length - 1) ∧
    ∀ (n : Nat) (u : List Symbol), g.DerivesIn (n + 1) [.nonTerminal g.start] u → (∃ a, .nonTerminal a ∈ u) →
      ¬ g.Derives u [] := by
  have hn := hg.nonTerminals_nodup
  constructor
  · intro w n hd
    cases n with
    | zero => cases w <;> cases hd
    | succ n =>
        rcases derivesIn_succ_start hn hc hd with ⟨rfl, hw⟩ | ⟨u, hl, hu, hd⟩
        · rw [if_pos (List.map_eq_nil_iff.1 hw)]
        · have hw := hl.derivesIn hn hc hd
          rw [weight_terminals, hu] at hw
          have hne : w ≠ [] := by
            rintro rfl
            rw [List.length_nil] at hw
            omega
          rw [if_neg hne]
          omega
  · rintro n u hd ⟨a, ha⟩ ⟨m, hm⟩
    rcases derivesIn_succ_start hn hc hd with ⟨-, rfl⟩ | ⟨t, hl, ht, hd⟩
    · exact List.not_mem_nil ha
    · have hw := hl.derivesIn hn hc (hd.trans hm)
      rw [weight, ht] at hw
      omega

def paired : Grammar :=
  ⟨"S", ["a", "b"], [⟨"S", [[.nonTerminal "A", .nonTerminal "B"], [.epsilon]]⟩, ⟨"A", [[.terminal "a"]]⟩,
    ⟨"B", [[.terminal "b"]]⟩]⟩

theorem paired_wellFormed : paired.WellFormed := by
  have h : declare ["S", "A", "B"] ["a", "b"] [("S", ["AB", "ε"]), ("A", ["a"]), ("B", ["b"])] none =
      .ok paired := by rfl
  exact declare_wellFormed h

theorem paired_derivesIn : paired.WellFormed ∧ paired.isChomsky = true ∧
    paired.DerivesIn 3 [.nonTerminal "S"] [.terminal "a", .terminal "b"] ∧
    ¬ paired.DerivesIn 4 [.nonTerminal "S"] [.terminal "a", .terminal "b"] ∧
    ¬ paired.DerivesIn 2 [.nonTerminal "S"] [] ∧
    ¬ paired.Derives [.terminal "a", .nonTerminal "B"] [] := by
  have hc : paired.isChomsky = true := by decide
  obtain ⟨hlength, hlasting⟩ := isChomsky_derivesIn paired_wellFormed hc
  have hs : paired.Step [.nonTerminal "S"] [.nonTerminal "A", .nonTerminal "B"] :=
    .replace [] [] (p := [.nonTerminal "A", .nonTerminal "B"]) (by decide)
  have ha : paired.Step [.nonTerminal "A", .nonTerminal "B"] [.terminal "a", .nonTerminal "B"] :=
    .replace [] [.nonTerminal "B"] (p := [.terminal "a"]) (by decide)
  have hb : paired.Step [.terminal "a", .nonTerminal "B"] [.terminal "a", .terminal "b"] :=
    .replace [.terminal "a"] [] (p := [.terminal "b"]) (by decide)
  refine ⟨paired_wellFormed, hc, .step hs (.step ha (.step hb (.refl _))), fun h => ?_, fun h => ?_, ?_⟩
  · exact absurd (hlength ["a", "b"] 4 h) (by decide)
  · exact absurd (hlength [] 2 h) (by decide)
  · exact hlasting 1 _ (.step hs (.step ha (.refl _))) ⟨"B", by simp⟩

end Grammar

end NormalForms
