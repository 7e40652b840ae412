import NormalForms.Proofs.ShapedForm

namespace NormalForms.Grammar

open Helper

variable {g : Grammar}

def unfoldOnce (g : Grammar) (names : List String) (p : Production) : Production :=
  p.flatMap (Symbol.substitute fun a => if a ∈ names then (g.productions a).headD [] else [.nonTerminal a])

theorem unfoldOnce_append (names : List String) (p q : Production) :
    g.unfoldOnce names (p ++ q) = g.unfoldOnce names p ++ g.unfoldOnce names q :=
  List.flatMap_append

theorem iterate_unfoldOnce_cons {names : List String} {s : Symbol} (hs : g.unfoldOnce names [s] = [s])
    (p : Production) (m : Nat) : (g.unfoldOnce names)^[m] (s :: p) = s :: (g.unfoldOnce names)^[m] p := by
  induction m generalizing p with
  | zero => rfl
  | succ m ih =>
      have hcons : g.unfoldOnce names (s :: p) = s :: g.unfoldOnce names p := by
        rw [← List.singleton_append, unfoldOnce_append, hs]
        rfl
      rw [Function.iterate_succ_apply, hcons, ih, Function.iterate_succ_apply]

def fresh (g : Grammar) : List String :=
  g.shape.nonTerminals.drop g.nonTerminals.length

theorem fresh_eq (g : Grammar) : g.fresh = g.helpers.map g.helperName := by
  rw [fresh, shape_nonTerminals, List.drop_left]

theorem mem_fresh {a : String} : a ∈ g.fresh ↔ ∃ h ∈ g.helpers, g.helperName h = a := by
  rw [fresh_eq, List.mem_map]

theorem not_mem_fresh {a : String} (ha : a ∈ g.nonTerminals) : a ∉ g.fresh := by
  intro hm
  obtain ⟨h, hh, rfl⟩ := mem_fresh.1 hm
  exact (helperName_free hh).2.2 ha

theorem shape_productions_helperName (hn : g.nonTerminals.Nodup) {h : Helper} (hh : h ∈ g.helpers) :
    g.shape.productions (g.helperName h) = (rule g.helperName h).alternatives := by
  have hm : rule g.helperName h ∈ g.shape.rules := mem_shape_rules.2 (.inr ⟨h, hh, rfl⟩)
  have hl : (rule g.helperName h).left = g.helperName h := by cases h <;> rfl
  rw [← hl, productions_left (shape_nodup hn) hm]

theorem shape_productions_left (hn : g.nonTerminals.Nodup) {r : Rule} (hr : r ∈ g.rules) :
    g.shape.productions r.left = (shapedRule g.helperName r).alternatives :=
  productions_left (shape_nodup hn) (mem_shape_rules.2 (.inl ⟨r, hr, rfl⟩))

theorem unfoldOnce_fresh_of_old {p : Production} (hp : ∀ a, .nonTerminal a ∈ p → a ∈ g.nonTerminals) :
    g.shape.unfoldOnce g.fresh p = p := by
  have hsymbol : ∀ s ∈ p, Symbol.substitute
      (fun a => if a ∈ g.fresh then (g.shape.productions a).headD [] else [.nonTerminal a]) s = [s] := by
    intro s hs
    cases s with
    | epsilon | terminal => rfl
    | nonTerminal a => rw [Symbol.substitute, if_neg (not_mem_fresh (hp a hs))]
  rw [unfoldOnce, List.flatMap_congr hsymbol, List.flatMap_singleton']

theorem unfoldOnce_fresh_helperName (hn : g.nonTerminals.Nodup) {h : Helper} (hh : h ∈ g.helpers) :
    g.shape.unfoldOnce g.fresh [.nonTerminal (g.helperName h)] = (rule g.helperName h).alternatives.headD [] := by
  have hm : g.helperName h ∈ g.fresh := mem_fresh.2 ⟨h, hh, rfl⟩
  rw [unfoldOnce, List.flatMap_singleton, Symbol.substitute, if_pos hm, shape_productions_helperName hn hh]

theorem unfoldOnce_fresh_wrapped (hn : g.nonTerminals.Nodup) {left : String} {number : Nat} {p : Production}
    (hs : g.Serves left number p) (hp : ∀ a, .nonTerminal a ∈ p → a ∈ g.nonTerminals) (hlen : 2 ≤ p.length)
    {x : Symbol} (hx : x ∈ p) : g.shape.unfoldOnce g.fresh [wrapped g.helperName x] = [x] := by
  cases x with
  | epsilon => rfl
  | terminal t => exact unfoldOnce_fresh_helperName hn (hs _ (wrapper_mem_needed.2 ⟨hlen, hx⟩))
  | nonTerminal a =>
      apply unfoldOnce_fresh_of_old
      intro b hb
      rw [Symbol.nonTerminal.inj (List.mem_singleton.1 hb)]
      exact hp a hx

/-- The short form of a production turns back into it, one link with each round. -/
theorem iterate_unfoldOnce_shaped (hn : g.nonTerminals.Nodup) {left : String} {number : Nat} {p : Production}
    (hs : g.Serves left number p) (hp : ∀ a, .nonTerminal a ∈ p → a ∈ g.nonTerminals) {m : Nat}
    (hm : p.length ≤ m) : (g.shape.unfoldOnce g.fresh)^[m] (shaped g.helperName left number p) = p := by
  induction p using links.induct generalizing m with
  | case1 x y z p ih =>
      obtain ⟨hl, hsub⟩ := needed_cons_cons_cons left number x y z p
      have hold : ∀ a, .nonTerminal a ∈ y :: z :: p → a ∈ g.nonTerminals := fun a ha =>
        hp a (List.mem_cons_of_mem x ha)
      have hx := unfoldOnce_fresh_wrapped hn hs hp (by simp) (x := x) List.mem_cons_self
      obtain ⟨m, rfl⟩ : ∃ n, m = n + 1 := ⟨m - 1, by simp only [List.length_cons] at hm; omega⟩
      have hfixed : g.shape.unfoldOnce g.fresh [x] = [x] := by
        apply unfoldOnce_fresh_of_old
        intro a ha
        exact hp a (List.mem_singleton.1 ha ▸ List.mem_cons_self)
      have hround : g.shape.unfoldOnce g.fresh (shaped g.helperName left number (x :: y :: z :: p)) =
          x :: shaped g.helperName left number (y :: z :: p) := by
        rw [shaped, ← List.singleton_append, unfoldOnce_append, hx, unfoldOnce_fresh_helperName hn (hs _ hl)]
        rfl
      rw [Function.iterate_succ_apply, hround, iterate_unfoldOnce_cons hfixed]
      exact congrArg (x :: ·) (ih (fun k hk => hs k (hsub k hk)) hold (Nat.le_of_succ_le_succ hm))
  | case2 p hshort =>
      have hround : g.shape.unfoldOnce g.fresh (shaped g.helperName left number p) = p := by
        have hw : ∀ x ∈ p, 2 ≤ p.length → g.shape.unfoldOnce g.fresh [wrapped g.helperName x] = [x] := fun x hx hlen =>
          unfoldOnce_fresh_wrapped hn hs hp hlen hx
        cases p using shaped.fun_cases with
        | case1 => rfl
        | case2 s => exact unfoldOnce_fresh_of_old hp
        | case3 x y =>
            rw [shaped, ← List.singleton_append, unfoldOnce_append, hw x (by simp) (by simp), hw y (by simp) (by simp)]
            rfl
        | case4 x y z p => exact absurd rfl (hshort x y z p)
      cases m with
      | zero =>
          rw [List.eq_nil_of_length_eq_zero (Nat.le_zero.1 hm)]
          rfl
      | succ m => rw [Function.iterate_succ_apply, hround, Function.iterate_fixed (unfoldOnce_fresh_of_old hp)]

theorem iterate_unfoldOnce_productions (hg : g.WellFormed) {a : String} (ha : a ∈ g.nonTerminals) {m : Nat}
    (hm : ∀ p ∈ g.productions a, p.length ≤ m) :
    (g.shape.productions a).map (g.shape.unfoldOnce g.fresh)^[m] = g.productions a := by
  have hn := hg.nonTerminals_nodup
  obtain ⟨r, hr, rfl⟩ := mem_nonTerminals.1 ha
  rw [productions_left hn hr] at hm
  rw [shape_productions_left hn hr, productions_left hn hr]
  calc
    _ = r.alternatives.zipIdx.map Prod.fst := by
      rw [shapedRule, List.map_map]
      refine List.map_congr_left fun e he => ?_
      have hadm := hg.admits (mem_productions_of_mem_zipIdx hn hr he)
      have hlen := hm e.1 ((List.mem_zipIdx' he).2 ▸ List.getElem_mem _)
      exact iterate_unfoldOnce_shaped hn (serves_of_mem hr he) hadm.nonTerminal_mem hlen
    _ = _ := List.zipIdx_map_fst 0 r.alternatives

end NormalForms.Grammar
