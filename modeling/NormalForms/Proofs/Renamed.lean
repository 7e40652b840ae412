import Mathlib.Data.Set.Function
import NormalForms.Proofs.Built
import NormalForms.Proofs.SameAs

namespace NormalForms

def Symbol.renamed (f : String → String) : Symbol → Symbol
  | .nonTerminal a => .nonTerminal (f a)
  | s => s

def Rule.renamed (f : String → String) (r : Rule) : Rule :=
  ⟨f r.left, r.alternatives.map (·.map (Symbol.renamed f))⟩

def Grammar.renamed (f : String → String) (g : Grammar) : Grammar :=
  { g with start := f g.start, rules := g.rules.map (Rule.renamed f) }

/-- A short form takes on other names of the helpers by a renaming that keeps the names in the production. -/
theorem Helper.map_renamed_shaped {name other : Helper → String} {f : String → String} {left : String} {number : Nat}
    {p : Production} (hk : ∀ k ∈ needed left number p, f (name k) = other k) (hp : ∀ a, .nonTerminal a ∈ p → f a = a) :
    (shaped name left number p).map (Symbol.renamed f) = shaped other left number p := by
  have hw : ∀ x ∈ p, 2 ≤ p.length → (wrapped name x).renamed f = wrapped other x := by
    intro x hx hlen
    cases x with
    | epsilon => rfl
    | terminal a => exact congrArg Symbol.nonTerminal (hk _ (wrapper_mem_needed.2 ⟨hlen, hx⟩))
    | nonTerminal a => exact congrArg Symbol.nonTerminal (hp a hx)
  cases p using shaped.fun_cases with
  | case1 => rfl
  | case2 s =>
      cases s with
      | epsilon | terminal => rfl
      | nonTerminal a => simp [shaped, Symbol.renamed, hp a (by simp)]
  | case3 x y => simp [shaped, hw x (by simp) (by simp), hw y (by simp) (by simp)]
  | case4 x y z p =>
      have hl := hk _ (needed_cons_cons_cons left number x y z p).1
      rw [shaped, List.map_cons, hw x (by simp) (by simp), List.map_singleton, Symbol.renamed, hl, shaped]

namespace Grammar

open Helper

variable {g h : Grammar}

def introduced (g : Grammar) : Set String :=
  {a | a ∈ g.shape.nonTerminals ∧ a ∉ g.nonTerminals}

theorem mem_introduced {a : String} : a ∈ g.introduced ↔ ∃ k ∈ g.helpers, g.helperName k = a := by
  constructor
  · rintro ⟨hm, hnot⟩
    exact (mem_shape_nonTerminals.1 hm).resolve_left hnot
  · rintro ⟨k, hk, rfl⟩
    exact ⟨mem_shape_nonTerminals.2 (.inr ⟨k, hk, rfl⟩), (helperName_free hk).2.2⟩

/-- The name of a helper in the other grammar, for its name in the one grammar; all other names stay as they are. -/
def counterpart (g h : Grammar) (a : String) : String :=
  ((g.helpers.find? (g.helperName · = a)).map h.helperName).getD a

theorem counterpart_helperName {k : Helper} (hk : k ∈ g.helpers) :
    g.counterpart h (g.helperName k) = h.helperName k := by
  simp [counterpart, find?_helperName hk]

theorem counterpart_of_not_mem {a : String} (ha : a ∉ g.introduced) : g.counterpart h a = a := by
  have hf : g.helpers.find? (g.helperName · = a) = none := by
    rw [List.find?_eq_none]
    intro k hk he
    exact ha (mem_introduced.2 ⟨k, hk, of_decide_eq_true he⟩)
  simp [counterpart, hf]

theorem counterpart_of_mem {a : String} (ha : a ∈ g.nonTerminals) : g.counterpart h a = a :=
  counterpart_of_not_mem fun hm => hm.2 ha

theorem renamed_shapedRule (hg : g.WellFormed) {r : Rule} (hr : r ∈ g.rules) :
    (shapedRule g.helperName r).renamed (g.counterpart h) = shapedRule h.helperName r := by
  rw [Rule.renamed, shapedRule, shapedRule, counterpart_of_mem (left_mem_nonTerminals hr), List.map_map]
  congr 1
  apply List.map_congr_left
  intro e he
  have hm := hg.admits (mem_productions_of_mem_zipIdx hg.nonTerminals_nodup hr he)
  exact map_renamed_shaped (fun k hk => counterpart_helperName (serves_of_mem hr he k hk)) fun a ha =>
    counterpart_of_mem (hm.nonTerminal_mem a ha)

theorem renamed_rule (hg : g.WellFormed) {k : Helper} (hk : k ∈ g.helpers) :
    (rule g.helperName k).renamed (g.counterpart h) = rule h.helperName k := by
  obtain ⟨_, _, -, ⟨a, rfl, -⟩ | ⟨number, rest, rfl, -, -, hs⟩⟩ := origin_of_mem_helpers hg.nonTerminals_nodup hk
  · simp [Rule.renamed, rule, counterpart_helperName hk, Symbol.renamed]
  · have hrest := map_renamed_shaped (fun k hk => counterpart_helperName (h := h) (hs k hk)) fun a ha =>
      counterpart_of_mem ((hg.admits_body hk).nonTerminal_mem a ha)
    simp [Rule.renamed, rule, counterpart_helperName hk, hrest]

namespace SameAs

theorem helpers_perm (hs : g.SameAs h) : g.helpers.Perm h.helpers := by
  refine (List.perm_ext_iff_of_nodup g.helpers_nodup h.helpers_nodup).2 fun k => ?_
  simp only [mem_helpers, hs.rules_perm.mem_iff]

theorem counterpart_bijOn (hs : g.SameAs h) : Set.BijOn (g.counterpart h) g.introduced h.introduced := by
  refine ⟨?_, ?_, ?_⟩
  · intro a ha
    obtain ⟨k, hk, rfl⟩ := mem_introduced.1 ha
    rw [counterpart_helperName hk]
    exact mem_introduced.2 ⟨k, hs.helpers_perm.mem_iff.1 hk, rfl⟩
  · intro a ha b hb he
    obtain ⟨k, hk, rfl⟩ := mem_introduced.1 ha
    obtain ⟨l, hl, rfl⟩ := mem_introduced.1 hb
    rw [counterpart_helperName hk, counterpart_helperName hl] at he
    rw [helperName_inj (hs.helpers_perm.mem_iff.1 hk) (hs.helpers_perm.mem_iff.1 hl) he]
  · intro b hb
    obtain ⟨k, hk, rfl⟩ := mem_introduced.1 hb
    have hk := hs.helpers_perm.mem_iff.2 hk
    exact ⟨g.helperName k, mem_introduced.2 ⟨k, hk, rfl⟩, counterpart_helperName hk⟩

/-- The shaped forms of a grammar in two orders are the same but for the names of the helpers. -/
theorem shape (hg : g.WellFormed) (hs : g.SameAs h) : (g.shape.renamed (g.counterpart h)).SameAs h.shape := by
  have hrules : g.shape.rules.map (Rule.renamed (g.counterpart h)) =
      g.rules.map (shapedRule h.helperName) ++ g.helpers.map (rule h.helperName) := by
    rw [shape_eq, List.map_append, List.map_map, List.map_map]
    congr 1
    · exact List.map_congr_left fun r hr => renamed_shapedRule hg hr
    · exact List.map_congr_left fun k hk => renamed_rule hg hk
  refine ⟨(counterpart_of_mem hg.start_mem).trans hs.start_eq, hs.terminals_perm, ?_⟩
  rw [renamed, hrules]
  exact (hs.rules_perm.map _).append (hs.helpers_perm.map _)

end SameAs

def unshaped (g : Grammar) : Grammar :=
  g.eliminateEpsilon.eliminateRenaming.trimmed

theorem toChomsky_eq_shape (g : Grammar) : g.toChomsky = g.unshaped.shape :=
  rfl

theorem WellFormed.unshaped (hg : g.WellFormed) : g.unshaped.WellFormed :=
  hg.eliminateEpsilon.eliminateRenaming.trimmed

theorem SameAs.unshaped (hg : g.WellFormed) (hs : g.SameAs h) : g.unshaped.SameAs h.unshaped := by
  have he := hg.eliminateEpsilon.nonTerminals_nodup
  have hr := hg.eliminateEpsilon.eliminateRenaming.nonTerminals_nodup
  exact ((hs.eliminateEpsilon hg.nonTerminals_nodup).eliminateRenaming he).trimmed hr

/-- What is made of a grammar does not depend on the orders in which its rules and its terminals are written, but for
the names that wrappers and links get in the Chomsky form. -/
theorem order_irrelevant (hg : g.WellFormed) (hs : g.SameAs h) :
    g.eliminateEpsilon.SameAs h.eliminateEpsilon ∧ g.eliminateRenaming.SameAs h.eliminateRenaming ∧
      g.eliminateInaccessible.SameAs h.eliminateInaccessible ∧
      g.eliminateNonProductive.SameAs h.eliminateNonProductive ∧
      ((∃ fa, g.toAutomaton = .ok fa ∧ h.toAutomaton = .ok fa) ∨
        ∃ e e', g.toAutomaton = .error e ∧ h.toAutomaton = .error e') ∧
      ∃ f : String → String, (∀ a, a ∉ g.unshaped.introduced → f a = a) ∧
        Set.BijOn f g.unshaped.introduced h.unshaped.introduced ∧ (g.toChomsky.renamed f).SameAs h.toChomsky := by
  have hn := hg.nonTerminals_nodup
  have hu := hs.unshaped hg
  refine ⟨hs.eliminateEpsilon hn, hs.eliminateRenaming hn, hs.eliminateInaccessible hn, hs.eliminateNonProductive hn,
    ?_, g.unshaped.counterpart h.unshaped, fun _ => counterpart_of_not_mem, hu.counterpart_bijOn, ?_⟩
  · cases hfa : g.toAutomaton with
    | ok fa => exact .inl ⟨fa, rfl, hs.toAutomaton_eq_ok_iff.1 hfa⟩
    | error e =>
        cases hfb : h.toAutomaton with
        | ok fb =>
            rw [hs.toAutomaton_eq_ok_iff.2 hfb] at hfa
            cases hfa
        | error e' => exact .inr ⟨e, e', rfl, rfl⟩
  · rw [toChomsky_eq_shape, toChomsky_eq_shape]
    exact hu.shape hg.unshaped

/-- A grammar whose links are numbered through two rules. -/
def crossing : Grammar :=
  ⟨"S", ["a", "b"], [⟨"S", [[.terminal "a", .nonTerminal "B", .terminal "b"], [.terminal "a"]]⟩,
    ⟨"B", [[.terminal "b", .nonTerminal "S", .terminal "a"]]⟩]⟩

def crossed : Grammar :=
  ⟨"S", ["b", "a"], crossing.rules.reverse⟩

theorem crossing_wellFormed : crossing.WellFormed := by
  have h : declare ["S", "B"] ["a", "b"] [("S", ["aBb", "a"]), ("B", ["bSa"])] none = .ok crossing := by rfl
  exact declare_wellFormed h

theorem crossing_order_irrelevant : crossing.WellFormed ∧ crossing.SameAs crossed ∧
    "S_1" ∈ crossing.toChomsky.nonTerminals ∧ "S_1" ∉ crossed.toChomsky.nonTerminals ∧
    ∃ f : String → String, f "S" = "S" ∧ Set.BijOn f crossing.unshaped.introduced crossed.unshaped.introduced ∧
      (crossing.toChomsky.renamed f).SameAs crossed.toChomsky := by
  have hs : crossing.SameAs crossed := by decide
  obtain ⟨-, -, -, -, -, f, hfixed, hbij, hsame⟩ := order_irrelevant crossing_wellFormed hs
  have hS : "S" ∈ crossing.unshaped.nonTerminals := by with_unfolding_all decide
  exact ⟨crossing_wellFormed, hs, by with_unfolding_all decide, by with_unfolding_all decide, f,
    hfixed "S" fun hm => hm.2 hS, hbij, hsame⟩

end Grammar

end NormalForms
