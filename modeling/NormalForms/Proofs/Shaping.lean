import NormalForms.Proofs.Shape

namespace NormalForms.Grammar

open Helper

variable {g : Grammar}

theorem shape_eq (g : Grammar) :
    g.shape = { g with rules := g.rules.map (shapedRule g.helperName) ++ g.helpers.map (rule g.helperName) } :=
  rfl

@[simp] theorem shape_terminals : g.shape.terminals = g.terminals :=
  rfl

theorem mem_shape_rules {r : Rule} :
    r ∈ g.shape.rules ↔
      (∃ s ∈ g.rules, shapedRule g.helperName s = r) ∨ ∃ h ∈ g.helpers, rule g.helperName h = r := by
  simp [shape_eq]

theorem shape_nonTerminals : g.shape.nonTerminals = g.nonTerminals ++ g.helpers.map g.helperName := by
  have hl : (fun h => (rule g.helperName h).left) = g.helperName := by
    funext h
    cases h <;> rfl
  rw [nonTerminals, shape_eq, List.map_append, List.map_map, List.map_map]
  exact congrArg₂ (· ++ ·) rfl (congrArg (List.map · g.helpers) hl)

theorem mem_shape_nonTerminals {a : String} :
    a ∈ g.shape.nonTerminals ↔ a ∈ g.nonTerminals ∨ ∃ h ∈ g.helpers, g.helperName h = a := by
  simp [shape_nonTerminals]

theorem shape_nodup (hn : g.nonTerminals.Nodup) : g.shape.nonTerminals.Nodup := by
  rw [shape_nonTerminals, List.nodup_append]
  refine ⟨hn, (List.nodup_map_iff_inj_on g.helpers_nodup).2 fun h hh k hk => helperName_inj hh hk, ?_⟩
  rintro a ha _ hb rfl
  obtain ⟨h, hh, rfl⟩ := List.mem_map.1 hb
  exact (helperName_free hh).2.2 ha

def Serves (g : Grammar) (left : String) (number : Nat) (p : Production) : Prop :=
  ∀ h ∈ needed left number p, h ∈ g.helpers

theorem mem_helpers {h : Helper} :
    h ∈ g.helpers ↔ ∃ r ∈ g.rules, ∃ e ∈ r.alternatives.zipIdx, h ∈ needed r.left e.2 e.1 := by
  simp [helpers, ofRule]

theorem serves_of_mem {r : Rule} (hr : r ∈ g.rules) {p : Production} {number : Nat}
    (hp : (p, number) ∈ r.alternatives.zipIdx) : g.Serves r.left number p :=
  fun _ hh => mem_helpers.2 ⟨r, hr, _, hp, hh⟩

theorem mem_productions_of_mem_zipIdx (hn : g.nonTerminals.Nodup) {r : Rule} (hr : r ∈ g.rules)
    {e : Production × Nat} (he : e ∈ r.alternatives.zipIdx) : e.1 ∈ g.productions r.left := by
  rw [productions_left hn hr]
  exact (List.mem_zipIdx' he).2 ▸ List.getElem_mem _

theorem serves_singleton (left : String) (number : Nat) (s : Symbol) : g.Serves left number [s] := by
  simp [Serves, needed]

theorem origin_of_mem_helpers (hn : g.nonTerminals.Nodup) {h : Helper} (hh : h ∈ g.helpers) :
    ∃ left, ∃ p ∈ g.productions left, (∃ a, h = wrapper a ∧ .terminal a ∈ p) ∨
      ∃ number rest, h = link left number rest ∧ 2 ≤ rest.length ∧ rest <:+ p ∧ g.Serves left number rest := by
  obtain ⟨r, hr, ⟨p, number⟩, he, hh⟩ := mem_helpers.1 hh
  refine ⟨r.left, p, mem_productions_of_mem_zipIdx hn hr he, (cases_of_mem_needed hh).imp id fun hl => ?_⟩
  obtain ⟨rest, rfl, hlen, hsuf, hsub⟩ := eq_link_of_mem_links hl
  exact ⟨number, rest, rfl, hlen, hsuf, fun k hk => serves_of_mem hr he k (hsub k hk)⟩

theorem Admits.suffix {p q : Production} (hp : g.Admits p) (hq : q ≠ []) (hs : q <:+ p) : g.Admits q where
  ne_nil := hq
  epsilon_alone he := by
    have hp' := hp.epsilon_alone (hs.subset he)
    rw [hp'] at hs
    rcases List.suffix_cons_iff.1 hs with hs | hs
    · exact hs
    · exact absurd (List.suffix_nil.1 hs) hq
  terminal_mem a ha := hp.terminal_mem a (hs.subset ha)
  nonTerminal_mem a ha := hp.nonTerminal_mem a (hs.subset ha)

theorem WellFormed.admits_body (hg : g.WellFormed) {h : Helper} (hh : h ∈ g.helpers) : g.Admits h.body := by
  obtain ⟨left, p, hp, ⟨a, rfl, ha⟩ | ⟨number, rest, rfl, hlen, hs, -⟩⟩ :=
    origin_of_mem_helpers hg.nonTerminals_nodup hh
  · exact ⟨by simp [body], by simp [body], by simpa [body] using (hg.admits hp).terminal_mem a ha, by simp [body]⟩
  · refine (hg.admits hp).suffix ?_ hs
    rintro rfl
    simp at hlen

theorem shaped_mem_shape (hn : g.nonTerminals.Nodup) {r : Rule} (hr : r ∈ g.rules) {p : Production} {number : Nat}
    (hp : (p, number) ∈ r.alternatives.zipIdx) :
    shaped g.helperName r.left number p ∈ g.shape.productions r.left := by
  refine (mem_productions (shape_nodup hn)).2 ⟨shapedRule g.helperName r, ?_, rfl, ?_⟩
  · exact mem_shape_rules.2 (.inl ⟨r, hr, rfl⟩)
  · exact List.mem_map.2 ⟨_, hp, rfl⟩

theorem exists_number_of_mem_productions {left : String} {p : Production} (hp : p ∈ g.productions left) :
    ∃ r ∈ g.rules, r.left = left ∧ ∃ number, (p, number) ∈ r.alternatives.zipIdx := by
  obtain ⟨r, hr, hl, hp⟩ := exists_of_mem_productions hp
  obtain ⟨number, hlt, he⟩ := List.mem_iff_getElem.1 hp
  exact ⟨r, hr, hl, number, List.mem_zipIdx_iff_getElem?.2 (List.getElem?_eq_some_iff.2 ⟨hlt, he⟩)⟩

theorem rule_mem_shape (hn : g.nonTerminals.Nodup) {h : Helper} (hh : h ∈ g.helpers) {p : Production}
    (hp : p ∈ (rule g.helperName h).alternatives) : p ∈ g.shape.productions (g.helperName h) := by
  refine (mem_productions (shape_nodup hn)).2 ⟨rule g.helperName h, ?_, by cases h <;> rfl, hp⟩
  exact mem_shape_rules.2 (.inr ⟨h, hh, rfl⟩)

/-- Every production of the shaped grammar stands for a production of the grammar or for the body of a helper. -/
theorem origin_of_mem_shape (hn : g.nonTerminals.Nodup) {a : String} {p : Production}
    (hp : p ∈ g.shape.productions a) :
    ∃ left number q, p = shaped g.helperName left number q ∧ g.Serves left number q ∧
      (q ∈ g.productions a ∨ ∃ h ∈ g.helpers, g.helperName h = a ∧ h.body = q) := by
  obtain ⟨r, hr, rfl, hp'⟩ := exists_of_mem_productions hp
  rcases mem_shape_rules.1 hr with ⟨s, hs, rfl⟩ | ⟨h, hh, rfl⟩
  · obtain ⟨⟨q, number⟩, he, rfl⟩ := List.mem_map.1 hp'
    exact ⟨s.left, number, q, rfl, serves_of_mem hs he, .inl (mem_productions_of_mem_zipIdx hn hs he)⟩
  · obtain ⟨left, q, hq, ⟨a, rfl, -⟩ | ⟨number, rest, rfl, -, -, hs⟩⟩ := origin_of_mem_helpers hn hh
    · obtain rfl := List.mem_singleton.1 hp'
      exact ⟨"", 0, [.terminal a], rfl, serves_singleton "" 0 _, .inr ⟨_, hh, rfl, rfl⟩⟩
    · obtain rfl := List.mem_singleton.1 hp'
      exact ⟨left, number, rest, rfl, hs, .inr ⟨_, hh, rfl, rfl⟩⟩

theorem find?_helperName {h : Helper} (hh : h ∈ g.helpers) :
    g.helpers.find? (g.helperName · = g.helperName h) = some h :=
  find?_key_eq_some hh fun _ hk he => helperName_inj hk hh he

def unfolded (g : Grammar) (a : String) : List Symbol :=
  ((g.helpers.find? (g.helperName · = a)).map body).getD [.nonTerminal a]

theorem unfolded_helperName {h : Helper} (hh : h ∈ g.helpers) : g.unfolded (g.helperName h) = h.body := by
  simp [unfolded, find?_helperName hh]

theorem unfolded_of_mem {a : String} (ha : a ∈ g.nonTerminals) : g.unfolded a = [.nonTerminal a] := by
  have hf : g.helpers.find? (g.helperName · = a) = none := by
    rw [List.find?_eq_none]
    intro h hh he
    exact (helperName_free hh).2.2 (of_decide_eq_true he ▸ ha)
  simp [unfolded, hf]

theorem unfold_shaped {left : String} {number : Nat} {p : Production} (hs : g.Serves left number p)
    (hp : ∀ a, .nonTerminal a ∈ p → a ∈ g.nonTerminals) :
    (shaped g.helperName left number p).flatMap (Symbol.substitute g.unfolded) = p := by
  have hw : ∀ x ∈ p, 2 ≤ p.length → Symbol.substitute g.unfolded (wrapped g.helperName x) = [x] := by
    intro x hx hlen
    cases x with
    | epsilon => rfl
    | terminal a => exact unfolded_helperName (hs _ (wrapper_mem_needed.2 ⟨hlen, hx⟩))
    | nonTerminal a => exact unfolded_of_mem (hp a hx)
  cases p using shaped.fun_cases with
  | case1 => rfl
  | case2 s =>
      cases s with
      | epsilon | terminal => rfl
      | nonTerminal a => simp [shaped, Symbol.substitute, unfolded_of_mem (hp a (by simp))]
  | case3 x y => simp [shaped, hw x (by simp) (by simp), hw y (by simp) (by simp)]
  | case4 x y z p =>
      have hl := unfolded_helperName (hs _ (needed_cons_cons_cons left number x y z p).1)
      rw [shaped, List.flatMap_cons, hw x (by simp) (by simp), List.flatMap_singleton, Symbol.substitute, hl]
      rfl

end NormalForms.Grammar
