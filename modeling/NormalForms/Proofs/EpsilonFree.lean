import NormalForms.Grammar.Eliminations
import NormalForms.Proofs.Fresh
import NormalForms.Proofs.Guarantees
import NormalForms.Proofs.Saturation

namespace NormalForms

namespace Production

variable {nullable : List String}

theorem deletions_cons_of_mem {s : Symbol} (h : s.nonTerminal?.any (· ∈ nullable) = true) (p : Production) :
    deletions nullable (s :: p) = (deletions nullable p).flatMap fun q => [s :: q, q] := by
  rw [deletions, if_pos h]

theorem deletions_cons_of_not_mem {s : Symbol} (h : ¬ s.nonTerminal?.any (· ∈ nullable) = true) (p : Production) :
    deletions nullable (s :: p) = (deletions nullable p).map (s :: ·) := by
  rw [deletions, if_neg h]

theorem mem_deletions_cons {s : Symbol} {p q : Production} :
    q ∈ deletions nullable (s :: p) ↔
      ∃ r ∈ deletions nullable p, q = s :: r ∨ q = r ∧ ∃ a ∈ nullable, s = .nonTerminal a := by
  have hs : s.nonTerminal?.any (· ∈ nullable) = true ↔ ∃ a ∈ nullable, s = .nonTerminal a := by
    simp [Option.any_eq_true, and_comm]
  by_cases h : s.nonTerminal?.any (· ∈ nullable) = true
  · have hc := hs.1 h
    simp only [deletions_cons_of_mem h, List.mem_flatMap, List.mem_cons, List.not_mem_nil, or_false, hc, and_true]
  · have hc := mt hs.2 h
    simp only [deletions_cons_of_not_mem h, List.mem_map, hc, and_false, or_false, eq_comm (a := q)]

theorem sublist_of_mem_deletions {p q : Production} (hq : q ∈ deletions nullable p) : q.Sublist p := by
  induction p generalizing q with
  | nil => simp_all [deletions]
  | cons s p ih =>
      obtain ⟨r, hr, rfl | ⟨rfl, -⟩⟩ := mem_deletions_cons.1 hq
      · exact (ih hr).cons_cons s
      · exact (ih hr).cons s

theorem deletions_congr {more : List String} (h : ∀ a, a ∈ nullable ↔ a ∈ more) (p : Production) :
    deletions nullable p = deletions more p := by
  induction p with
  | nil => rfl
  | cons s p ih => simp only [deletions, ih, h]

end Production

theorem Rule.withoutEpsilon_congr {nullable more : List String} (h : ∀ a, a ∈ nullable ↔ a ∈ more) (keeps : Bool)
    (r : Rule) : r.withoutEpsilon nullable keeps = r.withoutEpsilon more keeps := by
  simp only [withoutEpsilon, Production.deletions_congr h]

namespace Grammar

variable {g : Grammar}

theorem Yields.of_mem_deletions (hn : g.nonTerminals.Nodup) {p q : Production} {w : List String}
    (hq : q ∈ Production.deletions g.nullable p) (h : g.Yields q w) : g.Yields p w := by
  induction p generalizing q w with
  | nil => simp_all [Production.deletions]
  | cons s p ih =>
      obtain ⟨r, hr, rfl | ⟨rfl, a, ha, rfl⟩⟩ := Production.mem_deletions_cons.1 hq
      · obtain ⟨x, y, rfl, hx, hy⟩ := yields_cons.1 h
        exact hx.append (ih hr hy)
      · exact ((mem_nullable hn).1 ha).append (ih hr h)

def KeepsEpsilon (g : Grammar) : Prop :=
  g.start ∈ g.nullable ∧ ¬ g.occursOnRight g.start

instance : Decidable g.KeepsEpsilon :=
  inferInstanceAs (Decidable (_ ∧ _))

def expanded (g : Grammar) : Grammar :=
  { g with rules := g.rules.map fun r => r.withoutEpsilon g.nullable (g.KeepsEpsilon ∧ r.left = g.start) }

def withStart (g : Grammar) (start : String) : Grammar :=
  { g with start, rules := ⟨start, [[.nonTerminal g.start], [.epsilon]]⟩ :: g.rules }

theorem eliminateEpsilon_eq (g : Grammar) :
    g.eliminateEpsilon =
      if g.start ∈ g.nullable ∧ ¬ g.KeepsEpsilon then g.expanded.withStart (g.freshName g.start) else g.expanded :=
  rfl

@[simp] theorem expanded_start : g.expanded.start = g.start :=
  rfl

@[simp] theorem expanded_terminals : g.expanded.terminals = g.terminals :=
  rfl

@[simp] theorem expanded_nonTerminals : g.expanded.nonTerminals = g.nonTerminals := by
  simp [nonTerminals, expanded, Rule.withoutEpsilon]

@[simp] theorem withStart_nonTerminals (start : String) :
    (g.withStart start).nonTerminals = start :: g.nonTerminals :=
  rfl

theorem start_mem_of_mem_nullable (hn : g.nonTerminals.Nodup) (hs : g.start ∈ g.nullable) :
    g.start ∈ g.nonTerminals := by
  obtain ⟨p, hp, -⟩ := yields_nonTerminal.1 ((mem_nullable hn).1 hs)
  exact mem_nonTerminals_of_mem_productions hp

theorem mem_withoutEpsilon {nullable : List String} {keeps : Bool} {r : Rule} {p : Production} :
    p ∈ (r.withoutEpsilon nullable keeps).alternatives ↔
      (keeps = true ∧ p = [.epsilon]) ∨
        ∃ q ∈ r.alternatives, q ≠ [.epsilon] ∧ p ∈ Production.deletions nullable q ∧ p ≠ [] := by
  simp only [Rule.withoutEpsilon, List.mem_eraseDups, List.mem_append, List.mem_flatMap]
  constructor
  · rintro (⟨q, hq, hp⟩ | hp)
    · by_cases he : q = [.epsilon]
      · cases keeps <;> simp_all
      · simp only [he, if_false, List.mem_filter, decide_eq_true_eq] at hp
        exact .inr ⟨q, hq, he, hp⟩
    · cases keeps <;> simp_all
  · rintro (⟨rfl, rfl⟩ | ⟨q, hq, he, hp⟩)
    · exact .inr (by simp)
    · exact .inl ⟨q, hq, by simpa [he] using hp⟩

theorem mem_expanded (hn : g.nonTerminals.Nodup) {a : String} {p : Production} :
    p ∈ g.expanded.productions a ↔
      (g.KeepsEpsilon ∧ a = g.start ∧ p = [.epsilon]) ∨
        ∃ q ∈ g.productions a, q ≠ [.epsilon] ∧ p ∈ Production.deletions g.nullable q ∧ p ≠ [] := by
  have hrule : p ∈ g.expanded.productions a ↔ ∃ r ∈ g.rules, r.left = a ∧
      p ∈ (r.withoutEpsilon g.nullable (g.KeepsEpsilon ∧ r.left = g.start)).alternatives := by
    rw [mem_productions (by simpa using hn)]
    simp [expanded, Rule.withoutEpsilon]
  rw [hrule]
  simp only [mem_withoutEpsilon, decide_eq_true_eq]
  constructor
  · rintro ⟨r, hr, rfl, ⟨⟨hk, hl⟩, rfl⟩ | ⟨q, hq, h⟩⟩
    · exact .inl ⟨hk, hl, rfl⟩
    · exact .inr ⟨q, mem_productions_left hn hr hq, h⟩
  · rintro (⟨hk, rfl, rfl⟩ | ⟨q, hq, h⟩)
    · obtain ⟨r, hr, hl⟩ := mem_nonTerminals.1 (start_mem_of_mem_nullable hn hk.1)
      exact ⟨r, hr, hl, .inl ⟨⟨hk, hl⟩, rfl⟩⟩
    · obtain ⟨r, hr, rfl, hr'⟩ := exists_of_mem_productions hq
      exact ⟨r, hr, rfl, .inr ⟨q, hr', h⟩⟩

theorem Yields.of_expanded (hn : g.nonTerminals.Nodup) {u : List Symbol} {w : List String}
    (h : g.expanded.Yields u w) : g.Yields u w := by
  refine h.simulate fun left p w hp _ hg => ?_
  rcases (mem_expanded hn).1 hp with ⟨hk, rfl, rfl⟩ | ⟨q, hq, -, hd, -⟩
  · cases hg with
    | epsilon hg =>
        rw [yields_nil.1 hg]
        exact (mem_nullable hn).1 hk.1
  · exact (Yields.of_mem_deletions hn hd hg).of_mem_productions hq

/-- The names that give the empty word in a derivation are left out of the form. -/
theorem exists_deletion_yields (hn : g.nonTerminals.Nodup) {u : List Symbol} {w : List String} (h : g.Yields u w) :
    ∃ q ∈ Production.deletions g.nullable u, g.expanded.Yields q w := by
  induction h with
  | nil => exact ⟨[], by simp [Production.deletions], .nil⟩
  | epsilon _ ih =>
      obtain ⟨q, hq, hy⟩ := ih
      exact ⟨.epsilon :: q, Production.mem_deletions_cons.2 ⟨q, hq, .inl rfl⟩, .epsilon hy⟩
  | terminal a _ ih =>
      obtain ⟨q, hq, hy⟩ := ih
      exact ⟨.terminal a :: q, Production.mem_deletions_cons.2 ⟨q, hq, .inl rfl⟩, .terminal a hy⟩
  | @nonTerminal left p u v w hp hv _ ihp ihu =>
      obtain ⟨q, hq, hy⟩ := ihu
      by_cases he : v = []
      · subst he
        have hl := (mem_nullable hn).2 (hv.of_mem_productions hp)
        exact ⟨q, Production.mem_deletions_cons.2 ⟨q, hq, .inr ⟨rfl, left, hl, rfl⟩⟩, hy⟩
      · obtain ⟨r, hr, hz⟩ := ihp
        have hne : p ≠ [.epsilon] := by
          rintro rfl
          cases hv with
          | epsilon hv => exact he (yields_nil.1 hv)
        have hr' : r ≠ [] := by
          rintro rfl
          exact he (yields_nil.1 hz)
        have hm := (mem_expanded hn).2 (.inr ⟨p, hp, hne, hr, hr'⟩)
        exact ⟨.nonTerminal left :: q, Production.mem_deletions_cons.2 ⟨q, hq, .inl rfl⟩, .nonTerminal hm hz hy⟩

theorem expanded_yields (hn : g.nonTerminals.Nodup) {a : String} {w : List String} (hw : w ≠ []) :
    g.expanded.Yields [.nonTerminal a] w ↔ g.Yields [.nonTerminal a] w := by
  constructor
  · exact Yields.of_expanded hn
  · intro h
    obtain ⟨q, hq, hy⟩ := exists_deletion_yields hn h
    obtain ⟨r, hr, rfl | ⟨rfl, -⟩⟩ := Production.mem_deletions_cons.1 hq
    · simpa [Production.deletions] using List.mem_singleton.1 hr ▸ hy
    · rw [List.mem_singleton.1 hr] at hy
      exact absurd (yields_nil.1 hy) hw

end Grammar

end NormalForms
