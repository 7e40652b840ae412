import NormalForms.Proofs.Derivation

namespace NormalForms

def Symbol.substitute (f : String → List Symbol) : Symbol → List Symbol
  | nonTerminal a => f a
  | s => [s]

namespace Grammar

variable {g h : Grammar}

/-- If the alternatives of one grammar can be made up for in the other one, then so can all that a form gives. Names
that fail `P` need not be considered, as long as no alternative of the others leads to them. -/
theorem Yields.transfer {P : String → Prop}
    (hclosed : ∀ left p, P left → p ∈ g.productions left → ∀ a, .nonTerminal a ∈ p → P a)
    (hstep : ∀ left p w, P left → p ∈ g.productions left → g.Yields p w → h.Yields p w →
      h.Yields [.nonTerminal left] w)
    {u : List Symbol} {w : List String} (hy : g.Yields u w) (hu : ∀ a, .nonTerminal a ∈ u → P a) : h.Yields u w := by
  induction hy with
  | nil => exact .nil
  | epsilon _ ih => exact .epsilon (ih fun a ha => hu a (List.mem_cons_of_mem _ ha))
  | terminal b _ ih => exact .terminal b (ih fun a ha => hu a (List.mem_cons_of_mem _ ha))
  | nonTerminal hp hq _ ihp ihu =>
      have hl := hu _ List.mem_cons_self
      have hn := hstep _ _ _ hl hp hq (ihp (hclosed _ _ hl hp))
      exact hn.append (ihu fun a ha => hu a (List.mem_cons_of_mem _ ha))

theorem Yields.simulate
    (hstep : ∀ left p w, p ∈ g.productions left → g.Yields p w → h.Yields p w → h.Yields [.nonTerminal left] w)
    {u : List Symbol} {w : List String} (hy : g.Yields u w) : h.Yields u w :=
  hy.transfer (P := fun _ => True) (fun _ _ _ _ _ _ => trivial) (fun left p w _ => hstep left p w)
    (fun _ _ => trivial)

theorem Yields.mono (hp : ∀ left, ∀ p ∈ g.productions left, p ∈ h.productions left)
    {u : List Symbol} {w : List String} (hy : g.Yields u w) : h.Yields u w :=
  hy.simulate fun left p _ hg _ hh => hh.of_mem_productions (hp left p hg)

theorem Yields.substitute {f : String → List Symbol}
    (hstep : ∀ left p w, p ∈ g.productions left → h.Yields (p.flatMap (Symbol.substitute f)) w → h.Yields (f left) w)
    {u : List Symbol} {w : List String} (hy : g.Yields u w) : h.Yields (u.flatMap (Symbol.substitute f)) w := by
  induction hy with
  | nil => exact .nil
  | epsilon _ ih => exact .epsilon ih
  | terminal a _ ih => exact .terminal a ih
  | nonTerminal hp _ _ ihp ihu => exact (hstep _ _ _ hp ihp).append ihu

/-- A derivation goes through step by step in a grammar that has the same alternatives for the names that occur in it. -/
theorem DerivesIn.transfer {P : String → Prop}
    (hclosed : ∀ left p, P left → p ∈ g.productions left → ∀ a, .nonTerminal a ∈ p → P a)
    (hkept : ∀ left p, P left → p ∈ g.productions left → p ∈ h.productions left)
    {n : Nat} {u v : List Symbol} (hd : g.DerivesIn n u v) (hu : ∀ a, .nonTerminal a ∈ u → P a) :
    h.DerivesIn n u v := by
  induction hd with
  | refl => exact .refl _
  | step hs _ ih =>
      cases hs with
      | @replace x y left p hp =>
          have hl : P left := hu left (by simp)
          refine .step (.replace x y (hkept left p hl hp)) (ih fun a ha => ?_)
          rw [List.append_assoc, List.mem_append, List.mem_append] at ha
          rcases ha with ha | ha | ha
          · exact hu a (by simp [ha])
          · exact hclosed left p hl hp a (List.mem_filter.1 ha).1
          · exact hu a (by simp [ha])

theorem Derives.forall_mem {P : Symbol → Prop}
    (hstep : ∀ left p, P (.nonTerminal left) → p ∈ g.productions left → ∀ s ∈ p.yield, P s)
    {u v : List Symbol} (hd : g.Derives u v) (hu : ∀ s ∈ u, P s) : ∀ s ∈ v, P s := by
  obtain ⟨n, hn⟩ := hd
  induction hn with
  | refl => exact hu
  | step hs _ ih =>
      apply ih
      cases hs with
      | replace x y hp =>
          intro s hs
          rw [List.append_assoc, List.mem_append, List.mem_append] at hs
          rcases hs with hs | hs | hs
          · exact hu s (by simp [hs])
          · exact hstep _ _ (hu _ (by simp)) hp s hs
          · exact hu s (by simp [hs])

theorem epsilon_not_mem_yield (p : Production) : .epsilon ∉ p.yield := by
  simp [Production.yield]

theorem yield_eq_self {p : Production} (hp : .epsilon ∉ p) : p.yield = p := by
  rw [Production.yield, List.filter_eq_self]
  intro s hs
  simpa using fun he : s = .epsilon => hp (he ▸ hs)

theorem Derives.epsilon_not_mem {u v : List Symbol} (hd : g.Derives u v) (hu : .epsilon ∉ u) : .epsilon ∉ v := by
  intro hv
  refine hd.forall_mem (P := (· ≠ .epsilon)) ?_ ?_ .epsilon hv rfl
  · rintro left p - - s hs rfl
    exact epsilon_not_mem_yield p hs
  · rintro s hs rfl
    exact hu hs

/-- Some derivation from the one name puts the other one into a sentential form. -/
def Exposes (g : Grammar) (a b : String) : Prop :=
  ∃ u v, g.Derives [.nonTerminal a] (u ++ .nonTerminal b :: v)

namespace Exposes

theorem refl (a : String) : g.Exposes a a :=
  ⟨[], [], .refl _⟩

theorem of_derives {a b : String} {u : List Symbol} (hd : g.Derives [.nonTerminal a] u) (hb : .nonTerminal b ∈ u) :
    g.Exposes a b := by
  obtain ⟨x, y, rfl⟩ := List.append_of_mem hb
  exact ⟨x, y, hd⟩

theorem trans {a b c : String} (hab : g.Exposes a b) (hbc : g.Exposes b c) : g.Exposes a c := by
  obtain ⟨u, v, hu⟩ := hab
  obtain ⟨x, y, hx⟩ := hbc
  have hd := hx.context u v
  rw [List.append_assoc, List.singleton_append] at hd
  exact of_derives (hu.trans hd) (by simp)

theorem of_mem_productions {a b : String} {p : Production} (hp : p ∈ g.productions a) (hb : .nonTerminal b ∈ p) :
    g.Exposes a b :=
  of_derives (.of_mem_productions hp) (by simpa [Production.yield] using hb)

theorem closed {P : String → Prop}
    (hstep : ∀ left p, P left → p ∈ g.productions left → ∀ b, .nonTerminal b ∈ p → P b)
    {a b : String} (he : g.Exposes a b) (ha : P a) : P b := by
  obtain ⟨u, v, hd⟩ := he
  refine hd.forall_mem (P := fun s => ∀ c, s = .nonTerminal c → P c) ?_ ?_ (.nonTerminal b) (by simp) b rfl
  · rintro left p hl hp s hs c rfl
    exact hstep left p (hl left rfl) hp c (List.mem_filter.1 hs).1
  · intro s hs c hc
    rw [List.mem_singleton.1 hs, Symbol.nonTerminal.injEq] at hc
    rwa [← hc]

theorem simulate (hstep : ∀ left p, p ∈ g.productions left → ∀ b, .nonTerminal b ∈ p → h.Exposes left b)
    {a b : String} (he : g.Exposes a b) : h.Exposes a b :=
  he.closed (P := h.Exposes a) (fun left p hl hp b hb => hl.trans (hstep left p hp b hb)) (refl a)

end Exposes

/-- In a grammar where all exposed names have words, every alternative of an exposed name is used on the way to some
word. -/
theorem exists_use {left : String} {p : Production} (hl : g.Exposes g.start left) (hp : p ∈ g.productions left)
    (hw : ∀ a, g.Exposes g.start a → ∃ w, g.Yields [.nonTerminal a] w) :
    ∃ (u v : List Symbol) (w : List String), g.Derives [.nonTerminal g.start] (u ++ .nonTerminal left :: v) ∧
      g.Step (u ++ .nonTerminal left :: v) (u ++ p.yield ++ v) ∧ g.Derives (u ++ p.yield ++ v) (w.map .terminal) := by
  obtain ⟨u, v, hd⟩ := hl
  have hs : g.Step (u ++ .nonTerminal left :: v) (u ++ p.yield ++ v) := .replace u v hp
  have hd' := hd.trans (.of_step hs)
  obtain ⟨w, hy⟩ := exists_yields_of_forall fun a ha => hw a (.of_derives hd' ha)
  have hy' := hy.derives
  rw [yield_eq_self (hd'.epsilon_not_mem (by simp))] at hy'
  exact ⟨u, v, w, hd, hs, hy'⟩

end Grammar

end NormalForms
