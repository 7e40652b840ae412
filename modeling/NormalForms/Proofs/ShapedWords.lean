import NormalForms.Proofs.Shaping

namespace NormalForms.Grammar

open Helper

variable {g : Grammar}

theorem yields_wrapped (hn : g.nonTerminals.Nodup) {x : Symbol} {w : List String}
    (hx : ∀ a, x = .terminal a → wrapper a ∈ g.helpers) (h : g.shape.Yields [x] w) :
    g.shape.Yields [wrapped g.helperName x] w := by
  cases x with
  | epsilon | nonTerminal => exact h
  | terminal a => exact h.of_mem_productions (rule_mem_shape hn (hx a rfl) (List.mem_singleton.2 rfl))

/-- The words of a production are also those of its short form, since the links give what they stand for. -/
theorem yields_shaped (hn : g.nonTerminals.Nodup) {left : String} {number : Nat} {p : Production} {w : List String}
    (hs : g.Serves left number p) (h : g.shape.Yields p w) :
    g.shape.Yields (shaped g.helperName left number p) w := by
  have hx : ∀ {q : Production}, g.Serves left number q → 2 ≤ q.length → ∀ x ∈ q,
      ∀ a, x = .terminal a → wrapper a ∈ g.helpers := by
    rintro q hq hlen x hx a rfl
    exact hq _ (wrapper_mem_needed.2 ⟨hlen, hx⟩)
  induction p using links.induct generalizing w with
  | case1 x y z p ih =>
      obtain ⟨hl, hsub⟩ := needed_cons_cons_cons left number x y z p
      obtain ⟨u, v, rfl, hu, hv⟩ := yields_cons.1 h
      have hv := ih (fun k hk => hs k (hsub k hk)) hv
      have hv := hv.of_mem_productions (rule_mem_shape hn (hs _ hl) (List.mem_singleton.2 rfl))
      exact (yields_wrapped hn (hx hs (by simp) x (by simp)) hu).append hv
  | case2 p hp =>
      cases p using shaped.fun_cases with
      | case1 | case2 => exact h
      | case3 x y =>
          obtain ⟨u, v, rfl, hu, hv⟩ := yields_cons.1 h
          exact (yields_wrapped hn (hx hs (by simp) x (by simp)) hu).append
            (yields_wrapped hn (hx hs (by simp) y (by simp)) hv)
      | case4 x y z p => exact absurd rfl (hp x y z p)

theorem Yields.shape (hn : g.nonTerminals.Nodup) {u : List Symbol} {w : List String} (h : g.Yields u w) :
    g.shape.Yields u w := by
  refine h.simulate fun left p w hp _ hy => ?_
  obtain ⟨r, hr, rfl, number, he⟩ := exists_number_of_mem_productions hp
  exact (yields_shaped hn (serves_of_mem hr he) hy).of_mem_productions (shaped_mem_shape hn hr he)

theorem yields_helperName (hn : g.nonTerminals.Nodup) {h : Helper} (hh : h ∈ g.helpers) {w : List String}
    (hy : g.shape.Yields h.body w) : g.shape.Yields [.nonTerminal (g.helperName h)] w := by
  obtain ⟨left, p, hp, ⟨a, rfl, -⟩ | ⟨number, rest, rfl, -, -, hs⟩⟩ := origin_of_mem_helpers hn hh
  · exact hy.of_mem_productions (rule_mem_shape hn hh (List.mem_singleton.2 rfl))
  · exact (yields_shaped hn hs hy).of_mem_productions (rule_mem_shape hn hh (List.mem_singleton.2 rfl))

/-- A grammar and its shaped form give the same words to the names of the grammar. -/
theorem shape_yields (hg : g.WellFormed) {a : String} (ha : a ∈ g.nonTerminals) {w : List String} :
    g.shape.Yields [.nonTerminal a] w ↔ g.Yields [.nonTerminal a] w := by
  have hn := hg.nonTerminals_nodup
  constructor
  · -- putting the bodies of the helpers in the place of their names undoes every step of the shaped grammar
    intro h
    have hu := h.substitute (h := g) (f := g.unfolded) fun left p w hp hy => ?_
    · simpa [Symbol.substitute, unfolded_of_mem ha] using hu
    · obtain ⟨b, number, q, rfl, hs, hq | ⟨k, hk, rfl, rfl⟩⟩ := origin_of_mem_shape hn hp
      · rw [unfold_shaped hs (hg.admits hq).nonTerminal_mem] at hy
        rw [unfolded_of_mem (mem_nonTerminals_of_mem_productions hq)]
        exact hy.of_mem_productions hq
      · rw [unfold_shaped hs (hg.admits_body hk).nonTerminal_mem] at hy
        rwa [unfolded_helperName hk]
  · exact Yields.shape hn

/-- What a production refers to, and the helpers it needs, can still be reached from its short form. -/
theorem exposes_shaped (hn : g.nonTerminals.Nodup) {left : String} {number : Nat} {p : Production} {a : String}
    (hs : g.Serves left number p) (hp : shaped g.helperName left number p ∈ g.shape.productions a) :
    (∀ b, .nonTerminal b ∈ p → g.shape.Exposes a b) ∧
      ∀ h ∈ needed left number p, g.shape.Exposes a (g.helperName h) := by
  induction p using links.induct generalizing a with
  | case1 x y z p ih =>
      obtain ⟨hl, hsub⟩ := needed_cons_cons_cons left number x y z p
      have hlink : g.shape.Exposes a (g.helperName (link left number (y :: z :: p))) :=
        .of_mem_productions hp (by simp [shaped])
      obtain ⟨hb, hh⟩ := ih (fun k hk => hs k (hsub k hk)) (rule_mem_shape hn (hs _ hl) (List.mem_singleton.2 rfl))
      refine ⟨fun b hm => ?_, fun h hm => ?_⟩
      · rcases List.mem_cons.1 hm with rfl | hm
        · exact .of_mem_productions hp (by simp [shaped, wrapped])
        · exact hlink.trans (hb b hm)
      · rcases cases_of_mem_needed hm with ⟨c, rfl, hc⟩ | hm
        · rcases List.mem_cons.1 hc with rfl | hc
          · exact .of_mem_productions hp (by simp [shaped, wrapped])
          · exact hlink.trans (hh _ (wrapper_mem_needed.2 ⟨by simp, hc⟩))
        · rw [links] at hm
          rcases List.mem_cons.1 hm with rfl | hm
          · exact hlink
          · obtain ⟨rest, rfl, -, -, -⟩ := eq_link_of_mem_links hm
            exact hlink.trans (hh _ (by simp [needed, hm]))
  | case2 p hp' =>
      cases p using shaped.fun_cases with
      | case1 => simp [needed]
      | case2 s => exact ⟨fun b hb => .of_mem_productions hp hb, by simp [needed]⟩
      | case3 x y =>
          have hw : ∀ s ∈ [x, y], wrapped g.helperName s ∈ shaped g.helperName left number [x, y] := by
            simp [shaped]
          refine ⟨fun b hm => .of_mem_productions hp (hw _ hm), fun h hm => ?_⟩
          rcases cases_of_mem_needed hm with ⟨c, rfl, hc⟩ | hm
          · exact .of_mem_productions hp (hw _ hc)
          · simp [links] at hm
      | case4 x y z p => exact absurd rfl (hp' x y z p)

theorem shape_exposes (hg : g.WellFormed) (ha : ∀ a ∈ g.nonTerminals, g.Exposes g.start a) :
    ∀ a ∈ g.shape.nonTerminals, g.shape.Exposes g.start a := by
  have hn := hg.nonTerminals_nodup
  have hold : ∀ a ∈ g.nonTerminals, g.shape.Exposes g.start a := by
    intro a hm
    refine (ha a hm).simulate fun left p hp => ?_
    obtain ⟨r, hr, rfl, number, he⟩ := exists_number_of_mem_productions hp
    exact (exposes_shaped hn (serves_of_mem hr he) (shaped_mem_shape hn hr he)).1
  intro a hm
  rcases mem_shape_nonTerminals.1 hm with hm | ⟨h, hh, rfl⟩
  · exact hold a hm
  · obtain ⟨r, hr, ⟨p, number⟩, he, hm⟩ := mem_helpers.1 hh
    exact (hold r.left (left_mem_nonTerminals hr)).trans
      ((exposes_shaped hn (serves_of_mem hr he) (shaped_mem_shape hn hr he)).2 h hm)

theorem shape_productive (hg : g.WellFormed) (ha : ∀ a ∈ g.nonTerminals, ∃ w, g.Yields [.nonTerminal a] w) :
    ∀ a ∈ g.shape.nonTerminals, ∃ w, g.shape.Yields [.nonTerminal a] w := by
  intro a hm
  have hn := hg.nonTerminals_nodup
  rcases mem_shape_nonTerminals.1 hm with hm | ⟨h, hh, rfl⟩
  · obtain ⟨w, hw⟩ := ha a hm
    exact ⟨w, hw.shape hn⟩
  · obtain ⟨w, hw⟩ := exists_yields_of_forall fun b hb => ha b ((hg.admits_body hh).nonTerminal_mem b hb)
    exact ⟨w, yields_helperName hn hh (hw.shape hn)⟩

end NormalForms.Grammar
