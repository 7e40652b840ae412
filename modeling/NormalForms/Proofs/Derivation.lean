import NormalForms.Grammar.Derivation

namespace NormalForms.Grammar

variable {g : Grammar}

theorem DerivesIn.trans {m n : Nat} {u v w : List Symbol} (h : g.DerivesIn m u v) (k : g.DerivesIn n v w) :
    g.DerivesIn (m + n) u w := by
  induction h with
  | refl => simpa using k
  | step hs _ ih =>
      have hd := DerivesIn.step hs (ih k)
      rwa [Nat.add_right_comm] at hd

theorem Step.context {u v : List Symbol} (h : g.Step u v) (x y : List Symbol) :
    g.Step (x ++ u ++ y) (x ++ v ++ y) := by
  cases h with
  | replace s t hp => simpa using Step.replace (x ++ s) (t ++ y) hp

theorem DerivesIn.context {n : Nat} {u v : List Symbol} (h : g.DerivesIn n u v) (x y : List Symbol) :
    g.DerivesIn n (x ++ u ++ y) (x ++ v ++ y) := by
  induction h with
  | refl => exact .refl _
  | step hs _ ih => exact .step (hs.context x y) ih

namespace Derives

theorem refl (u : List Symbol) : g.Derives u u :=
  ⟨0, .refl u⟩

theorem trans {u v w : List Symbol} (h : g.Derives u v) (k : g.Derives v w) : g.Derives u w := by
  obtain ⟨m, hm⟩ := h
  obtain ⟨n, hn⟩ := k
  exact ⟨m + n, hm.trans hn⟩

theorem of_step {u v : List Symbol} (h : g.Step u v) : g.Derives u v :=
  ⟨1, .step h (.refl v)⟩

theorem of_mem_productions {left : String} {p : Production} (hp : p ∈ g.productions left) :
    g.Derives [.nonTerminal left] p.yield := by
  simpa using of_step (Step.replace [] [] hp)

theorem context {u v : List Symbol} (h : g.Derives u v) (x y : List Symbol) :
    g.Derives (x ++ u ++ y) (x ++ v ++ y) := by
  obtain ⟨n, hn⟩ := h
  exact ⟨n, hn.context x y⟩

theorem append {u u' v v' : List Symbol} (h : g.Derives u u') (k : g.Derives v v') :
    g.Derives (u ++ v) (u' ++ v') := by
  have hl := h.context [] v
  have hr := k.context u' []
  simp only [List.nil_append, List.append_nil] at hl hr
  exact hl.trans hr

end Derives

/-- The words of a sentential form, read off from its structure: a non-terminal gives the words of its alternatives,
and the empty string gives nothing. -/
inductive Yields (g : Grammar) : List Symbol → List String → Prop
  | nil : Yields g [] []
  | epsilon {u : List Symbol} {w : List String} : Yields g u w → Yields g (.epsilon :: u) w
  | terminal (a : String) {u : List Symbol} {w : List String} :
      Yields g u w → Yields g (.terminal a :: u) (a :: w)
  | nonTerminal {left : String} {p : Production} {u : List Symbol} {v w : List String} :
      p ∈ g.productions left → Yields g p v → Yields g u w → Yields g (.nonTerminal left :: u) (v ++ w)

theorem Yields.append {u v : List Symbol} {x y : List String} (h : g.Yields u x) (k : g.Yields v y) :
    g.Yields (u ++ v) (x ++ y) := by
  induction h with
  | nil => exact k
  | epsilon _ ih => exact .epsilon ih
  | terminal a _ ih => exact .terminal a ih
  | nonTerminal hp hq _ _ ih =>
      rw [List.append_assoc]
      exact .nonTerminal hp hq ih

theorem Yields.exists_of_append {u v : List Symbol} {w : List String} (h : g.Yields (u ++ v) w) :
    ∃ x y, w = x ++ y ∧ g.Yields u x ∧ g.Yields v y := by
  induction u generalizing w with
  | nil => exact ⟨[], w, rfl, .nil, h⟩
  | cons s u ih =>
      rw [List.cons_append] at h
      cases h with
      | epsilon h =>
          obtain ⟨x, y, rfl, hx, hy⟩ := ih h
          exact ⟨x, y, rfl, .epsilon hx, hy⟩
      | terminal a h =>
          obtain ⟨x, y, rfl, hx, hy⟩ := ih h
          exact ⟨a :: x, y, rfl, .terminal a hx, hy⟩
      | nonTerminal hp hq h =>
          obtain ⟨x, y, rfl, hx, hy⟩ := ih h
          exact ⟨_ ++ x, y, (List.append_assoc _ x y).symm, .nonTerminal hp hq hx, hy⟩

theorem yields_append {u v : List Symbol} {w : List String} :
    g.Yields (u ++ v) w ↔ ∃ x y, w = x ++ y ∧ g.Yields u x ∧ g.Yields v y := by
  constructor
  · exact Yields.exists_of_append
  · rintro ⟨x, y, rfl, hx, hy⟩
    exact hx.append hy

theorem yields_cons {s : Symbol} {u : List Symbol} {w : List String} :
    g.Yields (s :: u) w ↔ ∃ x y, w = x ++ y ∧ g.Yields [s] x ∧ g.Yields u y :=
  yields_append (u := [s])

theorem yields_nil {w : List String} : g.Yields [] w ↔ w = [] := by
  constructor
  · intro h
    cases h with
    | nil => rfl
  · rintro rfl
    exact .nil

theorem yields_epsilon : g.Yields [.epsilon] [] :=
  .epsilon .nil

theorem yields_nonTerminal {left : String} {w : List String} :
    g.Yields [.nonTerminal left] w ↔ ∃ p ∈ g.productions left, g.Yields p w := by
  constructor
  · intro h
    cases h with
    | nonTerminal hp hq h =>
        rw [yields_nil.1 h, List.append_nil]
        exact ⟨_, hp, hq⟩
  · rintro ⟨p, hp, hq⟩
    simpa using Yields.nonTerminal hp hq .nil

theorem Yields.of_mem_productions {left : String} {p : Production} {w : List String} (hp : p ∈ g.productions left)
    (h : g.Yields p w) : g.Yields [.nonTerminal left] w :=
  yields_nonTerminal.2 ⟨p, hp, h⟩

theorem Yields.exists_of_mem {u : List Symbol} {w : List String} (h : g.Yields u w) {s : Symbol} (hs : s ∈ u) :
    ∃ v, g.Yields [s] v := by
  obtain ⟨x, y, rfl⟩ := List.append_of_mem hs
  obtain ⟨_, _, _, _, h⟩ := yields_append.1 h
  obtain ⟨v, _, _, hv, _⟩ := yields_cons.1 h
  exact ⟨v, hv⟩

theorem exists_yields_of_forall {u : List Symbol} (h : ∀ a, .nonTerminal a ∈ u → ∃ w, g.Yields [.nonTerminal a] w) :
    ∃ w, g.Yields u w := by
  induction u with
  | nil => exact ⟨[], .nil⟩
  | cons s u ih =>
      obtain ⟨y, hy⟩ := ih fun a ha => h a (List.mem_cons_of_mem s ha)
      cases s with
      | epsilon => exact ⟨y, .epsilon hy⟩
      | terminal a => exact ⟨a :: y, .terminal a hy⟩
      | nonTerminal a =>
          obtain ⟨x, hx⟩ := h a List.mem_cons_self
          exact ⟨x ++ y, hx.append hy⟩

theorem yields_yield {p : Production} {w : List String} : g.Yields p.yield w ↔ g.Yields p w := by
  induction p generalizing w with
  | nil => exact Iff.rfl
  | cons s p ih =>
      have hy : g.Yields (s :: Production.yield p) w ↔ g.Yields (s :: p) w := by
        rw [yields_cons, yields_cons (u := p)]
        simp only [ih]
      cases s with
      | epsilon =>
          constructor
          · intro h
            exact .epsilon (ih.1 h)
          · intro h
            cases h with
            | epsilon h => exact ih.2 h
      | terminal | nonTerminal => exact hy

theorem yields_map_terminal (w : List String) : g.Yields (w.map .terminal) w := by
  induction w with
  | nil => exact .nil
  | cons a w ih => exact .terminal a ih

theorem Yields.of_step {u v : List Symbol} {w : List String} (hs : g.Step u v) (h : g.Yields v w) :
    g.Yields u w := by
  cases hs with
  | replace s t hp =>
      obtain ⟨_, z, rfl, h, hz⟩ := yields_append.1 h
      obtain ⟨x, y, rfl, hx, hy⟩ := yields_append.1 h
      rw [List.append_assoc]
      exact hx.append (.nonTerminal hp (yields_yield.1 hy) hz)

theorem DerivesIn.yields {n : Nat} {u v : List Symbol} {w : List String} (hd : g.DerivesIn n u v)
    (h : g.Yields v w) : g.Yields u w := by
  induction hd with
  | refl => exact h
  | step hs _ ih => exact (ih h).of_step hs

theorem Yields.derives {p : Production} {w : List String} (h : g.Yields p w) :
    g.Derives p.yield (w.map .terminal) := by
  induction h with
  | nil => exact .refl []
  | epsilon _ ih => exact ih
  | terminal a _ ih => exact (Derives.refl [.terminal a]).append ih
  | nonTerminal hp _ _ ihp ihu =>
      rw [List.map_append]
      exact ((Derives.of_mem_productions hp).trans ihp).append ihu

/-- The words that rewriting derives from a production are those that its structure gives. -/
theorem derives_yield_iff {p : Production} {w : List String} :
    g.Derives p.yield (w.map .terminal) ↔ g.Yields p w := by
  constructor
  · rintro ⟨n, hn⟩
    exact yields_yield.1 (hn.yields (yields_map_terminal w))
  · exact Yields.derives

theorem generates_iff_yields {name : String} {w : List String} :
    g.Generates name w ↔ g.Yields [.nonTerminal name] w :=
  derives_yield_iff (p := [.nonTerminal name])

end NormalForms.Grammar
