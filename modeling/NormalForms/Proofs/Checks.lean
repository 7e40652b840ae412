import NormalForms.Proofs.Productions

namespace NormalForms

theorem bind_eq_ok {ε α β : Type} {x : Except ε α} {f : α → Except ε β} {b : β} :
    x >>= f = .ok b ↔ ∃ a, x = .ok a ∧ f a = .ok b := by
  cases x with
  | error e => simp [bind, Except.bind]
  | ok a => simp [bind, Except.bind]

theorem exists_of_mem_of_forall₂ {α β : Type} {R : α → β → Prop} {l : List α} {m : List β} (h : List.Forall₂ R l m)
    {b : β} (hb : b ∈ m) : ∃ a ∈ l, R a b := by
  induction h with
  | nil => cases hb
  | @cons a b' l m hab _ ih =>
      rcases List.mem_cons.1 hb with rfl | hb
      · exact ⟨a, List.mem_cons_self, hab⟩
      · obtain ⟨c, hc, hcb⟩ := ih hb
        exact ⟨c, List.mem_cons_of_mem a hc, hcb⟩

theorem mapM_eq_ok {ε α β : Type} {f : α → Except ε β} {l : List α} {m : List β} :
    l.mapM f = .ok m ↔ List.Forall₂ (fun a b => f a = .ok b) l m := by
  induction l generalizing m with
  | nil => cases m <;> simp [pure, Except.pure]
  | cons a l ih =>
      rw [List.mapM_cons]
      simp only [bind_eq_ok, ih, pure, Except.pure, Except.ok.injEq, List.forall₂_cons_left_iff]
      constructor
      · rintro ⟨b, hb, m, hm, rfl⟩
        exact ⟨b, m, hb, hm, rfl⟩
      · rintro ⟨b, m, hb, hm, rfl⟩
        exact ⟨b, hb, m, hm, rfl⟩

theorem exists_of_mem_mapM {ε α β : Type} {f : α → Except ε β} {l : List α} {m : List β} (h : l.mapM f = .ok m)
    {b : β} (hb : b ∈ m) : ∃ a ∈ l, f a = .ok b :=
  exists_of_mem_of_forall₂ (mapM_eq_ok.1 h) hb

@[simp] theorem map_left_mergeRules (lefts : List String) (rules : List Rule) :
    (mergeRules lefts rules).map (·.left) = lefts := by
  rw [mergeRules, List.map_map]
  exact List.map_id lefts

theorem nodup_of_mem_mergeRules {lefts : List String} {rules : List Rule} {r : Rule} (hr : r ∈ mergeRules lefts rules) :
    r.alternatives.Nodup := by
  obtain ⟨left, -, rfl⟩ := List.mem_map.1 hr
  exact nodup_eraseDups _

theorem exists_of_mem_mergeRules {lefts : List String} {rules : List Rule} {r : Rule} {p : Production}
    (hr : r ∈ mergeRules lefts rules) (hp : p ∈ r.alternatives) :
    ∃ s ∈ rules, s.left = r.left ∧ p ∈ s.alternatives := by
  obtain ⟨left, -, rfl⟩ := List.mem_map.1 hr
  simpa [and_assoc] using hp

namespace Grammar

variable {g : Grammar}

structure Alphabets (g : Grammar) : Prop where
  start_mem : g.start ∈ g.nonTerminals
  declarable : ∀ name ∈ g.terminals ++ g.nonTerminals, isDeclarable name = true
  disjoint : ∀ name ∈ g.terminals, name ∉ g.nonTerminals

theorem alphabetFault?_eq_none : g.alphabetFault? = none ↔ g.Alphabets := by
  unfold alphabetFault?
  by_cases hs : g.start ∈ g.nonTerminals
  · rw [if_neg (not_not.2 hs)]
    cases hd : (g.terminals ++ g.nonTerminals).find? (!isDeclarable ·) with
    | some name =>
        simp only [reduceCtorEq, false_iff]
        intro h
        have hn := List.find?_some hd
        rw [h.declarable name (List.mem_of_find?_eq_some hd)] at hn
        cases hn
    | none =>
        simp only [Option.map_eq_none_iff, List.find?_eq_none, decide_eq_true_eq]
        constructor
        · intro h
          exact ⟨hs, fun name hn => by simpa using List.find?_eq_none.1 hd name hn, h⟩
        · exact Alphabets.disjoint
  · rw [if_pos hs]
    simp only [reduceCtorEq, false_iff]
    exact fun h => hs h.start_mem

theorem epsilon_alone_iff {p : Production} (hp : p ≠ []) :
    (.epsilon ∈ p → p = [.epsilon]) ↔ ¬ (p.length > 1 ∧ .epsilon ∈ p) := by
  cases p with
  | nil => exact absurd rfl hp
  | cons s p =>
      cases p with
      | nil => simp [eq_comm]
      | cons t p => simp

theorem productionFault?_eq_none (left : String) {p : Production} : g.productionFault? left p = none ↔ g.Admits p := by
  unfold productionFault?
  by_cases hp : p = []
  · rw [if_pos hp]
    simp only [reduceCtorEq, false_iff]
    exact fun h => h.ne_nil hp
  · rw [if_neg hp]
    by_cases hi : p.length > 1 ∧ .epsilon ∈ p
    · rw [if_pos hi]
      simp only [reduceCtorEq, false_iff]
      exact fun h => (epsilon_alone_iff hp).1 h.epsilon_alone hi
    · rw [if_neg hi]
      simp only [Option.map_eq_none_iff, List.find?_eq_none, Bool.not_eq_true', Bool.not_eq_false,
        forall_declares_iff]
      constructor
      · rintro ⟨ht, hn⟩
        exact ⟨hp, (epsilon_alone_iff hp).2 hi, ht, hn⟩
      · intro h
        exact ⟨h.terminal_mem, h.nonTerminal_mem⟩

theorem fault?_eq_none : g.fault? = none ↔ g.Alphabets ∧ ∀ r ∈ g.rules, ∀ p ∈ r.alternatives, g.Admits p := by
  simp only [fault?, Option.or_eq_none_iff, alphabetFault?_eq_none, List.findSome?_eq_none_iff,
    productionFault?_eq_none]

theorem WellFormed.faultless (hg : g.WellFormed) : g.fault? = none := by
  refine fault?_eq_none.2 ⟨⟨hg.start_mem, hg.declarable, hg.disjoint⟩, fun r hr p hp => ?_⟩
  exact hg.admits (mem_productions_left hg.nonTerminals_nodup hr hp)

theorem checked_eq_ok {h : Grammar} : g.checked = .ok h ↔ g.fault? = none ∧ g = h := by
  unfold checked
  cases hf : g.fault? <;> simp

theorem checked_eq_error {g : Grammar} {e : Error} : g.checked = .error e ↔ g.fault? = some e := by
  unfold checked
  cases hf : g.fault? <;> simp

theorem WellFormed.of_fault?_eq_none (hf : g.fault? = none) (ht : g.terminals.Nodup) (hn : g.nonTerminals.Nodup)
    (ha : ∀ r ∈ g.rules, r.alternatives.Nodup) : g.WellFormed := by
  obtain ⟨h, hp⟩ := fault?_eq_none.1 hf
  refine .of_admits h.start_mem h.declarable h.disjoint ht hn (fun left p hm => ?_) ha
  obtain ⟨r, hr, -, hm⟩ := exists_of_mem_productions hm
  exact hp r hr p hm

theorem Alphabets.wellFormed_mergeRules (ha : g.Alphabets) (ht : g.terminals.Nodup) (hn : g.nonTerminals.Nodup)
    (read : List Rule) (hp : ∀ r ∈ read, ∀ p ∈ r.alternatives, g.Admits p) :
    WellFormed { g with rules := mergeRules g.nonTerminals read } := by
  have hnames : nonTerminals { g with rules := mergeRules g.nonTerminals read } = g.nonTerminals :=
    map_left_mergeRules g.nonTerminals read
  apply WellFormed.of_admits
  · simpa only [hnames] using ha.start_mem
  · simpa only [hnames] using ha.declarable
  · simpa only [hnames] using ha.disjoint
  · exact ht
  · rwa [hnames]
  · intro left p hm
    obtain ⟨r, hr, -, hm⟩ := exists_of_mem_productions hm
    obtain ⟨s, hs, -, hm⟩ := exists_of_mem_mergeRules hr hm
    exact (hp s hs p hm).mono (fun _ h => h) fun _ _ h => by rwa [hnames]
  · exact fun r hr => nodup_of_mem_mergeRules hr

end Grammar

end NormalForms
