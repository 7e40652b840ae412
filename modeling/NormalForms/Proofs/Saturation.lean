import NormalForms.Grammar.Saturation
import NormalForms.Proofs.Productions
import NormalForms.Proofs.Simulation

namespace NormalForms

variable {base : Symbol → Bool}

theorem Rule.isCovered_iff {found : List String} {r : Rule} :
    r.isCovered base found = true ↔
      ∃ p ∈ r.alternatives, ∀ s ∈ p, base s = true ∨ ∃ a ∈ found, s = .nonTerminal a := by
  simp only [Rule.isCovered, List.any_eq_true, List.all_eq_true, Bool.or_eq_true, Option.any_eq_true,
    decide_eq_true_eq, Symbol.nonTerminal?_eq_some]
  simp only [and_comm]

theorem sweep_cons_of_covered {found : List String} {r : Rule} (h : r.isCovered base found = true)
    (rules : List Rule) : sweep base found (r :: rules) = sweep base (found ++ [r.left]) rules := by
  rw [sweep, if_pos h]

theorem sweep_cons_of_not_covered {found : List String} {r : Rule} (h : ¬ r.isCovered base found = true)
    (rules : List Rule) :
    sweep base found (r :: rules) = ((sweep base found rules).1, r :: (sweep base found rules).2) := by
  rw [sweep, if_neg h]

theorem mem_sweep_of_mem {found : List String} {a : String} (ha : a ∈ found) (rules : List Rule) :
    a ∈ (sweep base found rules).1 := by
  induction rules generalizing found with
  | nil => exact ha
  | cons r rules ih =>
      by_cases h : r.isCovered base found = true
      · rw [sweep_cons_of_covered h]
        exact ih (List.mem_append_left _ ha)
      · rw [sweep_cons_of_not_covered h]
        exact ih ha

theorem left_mem_sweep_or_mem_waiting {found : List String} {rules : List Rule} {r : Rule} (hr : r ∈ rules) :
    r.left ∈ (sweep base found rules).1 ∨ r ∈ (sweep base found rules).2 := by
  induction rules generalizing found with
  | nil => exact absurd hr List.not_mem_nil
  | cons s rules ih =>
      by_cases h : s.isCovered base found = true
      · rw [sweep_cons_of_covered h]
        rcases List.mem_cons.1 hr with rfl | hr
        · exact .inl (mem_sweep_of_mem (by simp) rules)
        · exact ih hr
      · rw [sweep_cons_of_not_covered h]
        rcases List.mem_cons.1 hr with rfl | hr
        · exact .inr List.mem_cons_self
        · exact (ih hr).imp id (List.mem_cons_of_mem s)

theorem waiting_sublist (base : Symbol → Bool) (found : List String) (rules : List Rule) :
    (sweep base found rules).2.Sublist rules := by
  induction rules generalizing found with
  | nil => exact .refl []
  | cons r rules ih =>
      by_cases h : r.isCovered base found = true
      · rw [sweep_cons_of_covered h]
        exact (ih _).cons r
      · rw [sweep_cons_of_not_covered h]
        exact (ih _).cons_cons r

theorem sweep_eq_self {found : List String} {rules : List Rule}
    (hl : rules.length ≤ (sweep base found rules).2.length) :
    (sweep base found rules).1 = found ∧ ∀ r ∈ rules, ¬ r.isCovered base found = true := by
  induction rules generalizing found with
  | nil => exact ⟨rfl, by simp⟩
  | cons r rules ih =>
      by_cases h : r.isCovered base found = true
      · have hle := (waiting_sublist base (found ++ [r.left]) rules).length_le
        rw [sweep_cons_of_covered h, List.length_cons] at hl
        omega
      · rw [sweep_cons_of_not_covered h] at hl ⊢
        simp only [List.length_cons, Nat.add_le_add_iff_right] at hl
        obtain ⟨he, hn⟩ := ih hl
        exact ⟨he, List.forall_mem_cons.2 ⟨h, hn⟩⟩

def Inductive (base : Symbol → Bool) (rules : List Rule) (P : String → Prop) : Prop :=
  ∀ r ∈ rules, ∀ p ∈ r.alternatives, (∀ s ∈ p, base s = true ∨ ∃ a, P a ∧ s = .nonTerminal a) → P r.left

theorem Inductive.sublist {rules some : List Rule} {P : String → Prop} (hP : Inductive base rules P)
    (hs : some.Sublist rules) : Inductive base some P :=
  fun r hr => hP r (hs.subset hr)

theorem sweep_sound {rules : List Rule} {P : String → Prop} (hP : Inductive base rules P) {found : List String}
    (hf : ∀ a ∈ found, P a) : ∀ a ∈ (sweep base found rules).1, P a := by
  induction rules generalizing found with
  | nil => exact hf
  | cons r rules ih =>
      have hP' := hP.sublist (List.sublist_cons_self r rules)
      by_cases h : r.isCovered base found = true
      · rw [sweep_cons_of_covered h]
        apply ih hP'
        intro a ha
        rcases List.mem_append.1 ha with ha | ha
        · exact hf a ha
        · obtain ⟨p, hp, hs⟩ := Rule.isCovered_iff.1 h
          rw [List.mem_singleton.1 ha]
          refine hP r List.mem_cons_self p hp fun s hm => ?_
          rcases hs s hm with hb | ⟨b, hb, he⟩
          · exact .inl hb
          · exact .inr ⟨b, hf b hb, he⟩
      · rw [sweep_cons_of_not_covered h]
        exact ih hP' hf

theorem saturate_eq (base : Symbol → Bool) (found : List String) (rules : List Rule) :
    saturate base found rules =
      if (sweep base found rules).2.length < rules.length then
        saturate base (sweep base found rules).1 (sweep base found rules).2
      else (sweep base found rules).1 := by
  rw [saturate]

theorem saturate_sound {rules : List Rule} {P : String → Prop} (hP : Inductive base rules P) {found : List String}
    (hf : ∀ a ∈ found, P a) : ∀ a ∈ saturate base found rules, P a := by
  induction found, rules using saturate.induct base with
  | case1 found rules more waiting he hl ih =>
      rw [saturate_eq, if_pos (by rwa [he])]
      rw [he]
      have hs := waiting_sublist base found rules
      have hm := sweep_sound hP hf
      rw [he] at hs hm
      exact ih (hP.sublist hs) hm
  | case2 found rules more waiting he hl =>
      rw [saturate_eq, if_neg (by rwa [he])]
      exact sweep_sound hP hf

theorem mem_saturate_of_mem {found : List String} {rules : List Rule} {a : String} (ha : a ∈ found) :
    a ∈ saturate base found rules := by
  induction found, rules using saturate.induct base with
  | case1 found rules more waiting he hl ih =>
      rw [saturate_eq, if_pos (by rwa [he])]
      have hm : a ∈ (sweep base found rules).1 := mem_sweep_of_mem ha rules
      rw [he] at hm ⊢
      exact ih hm
  | case2 found rules more waiting he hl =>
      rw [saturate_eq, if_neg (by rwa [he])]
      exact mem_sweep_of_mem ha rules

theorem saturate_inductive (base : Symbol → Bool) (found : List String) (rules : List Rule) :
    Inductive base rules (· ∈ saturate base found rules) := by
  induction found, rules using saturate.induct base with
  | case1 found rules more waiting he hl ih =>
      rw [saturate_eq, if_pos (by rwa [he]), he]
      intro r hr p hp hs
      have hr' : r.left ∈ (sweep base found rules).1 ∨ r ∈ (sweep base found rules).2 :=
        left_mem_sweep_or_mem_waiting hr
      rw [he] at hr'
      rcases hr' with hm | hw
      · exact mem_saturate_of_mem hm
      · exact ih r hw p hp hs
  | case2 found rules more waiting he hl =>
      rw [saturate_eq, if_neg (by rwa [he])]
      have hn : (sweep base found rules).1 = found ∧ ∀ r ∈ rules, ¬ r.isCovered base found = true :=
        sweep_eq_self (by rw [he]; exact Nat.le_of_not_lt hl)
      rw [hn.1]
      intro r hr p hp hs
      refine absurd (Rule.isCovered_iff.2 ⟨p, hp, fun s hm => ?_⟩) (hn.2 r hr)
      exact (hs s hm).imp id fun ⟨a, ha, e⟩ => ⟨a, ha, e⟩

namespace Grammar

variable {g : Grammar}

theorem yields_nil_of_forall {p : Production}
    (h : ∀ s ∈ p, s = .epsilon ∨ ∃ a, g.Yields [.nonTerminal a] [] ∧ s = .nonTerminal a) : g.Yields p [] := by
  induction p with
  | nil => exact .nil
  | cons s p ih =>
      have hp := ih fun t ht => h t (List.mem_cons_of_mem s ht)
      rcases h s List.mem_cons_self with rfl | ⟨a, ha, rfl⟩
      · exact .epsilon hp
      · exact ha.append hp

theorem Yields.eq_epsilon_or_nullable {u : List Symbol} {w : List String} (h : g.Yields u w) (hw : w = []) :
    ∀ s ∈ u, s = .epsilon ∨ ∃ a ∈ g.nullable, s = .nonTerminal a := by
  induction h with
  | nil => simp
  | epsilon _ ih => exact List.forall_mem_cons.2 ⟨.inl rfl, ih hw⟩
  | terminal => cases hw
  | nonTerminal hp _ _ ihp ihu =>
      obtain ⟨hv, hw⟩ := List.append_eq_nil_iff.1 hw
      obtain ⟨r, hr, rfl, hp'⟩ := exists_of_mem_productions hp
      have hl := saturate_inductive (· = .epsilon) [] g.rules r hr _ hp' fun s hs =>
        (ihp hv s hs).imp (by simp) id
      exact List.forall_mem_cons.2 ⟨.inr ⟨_, hl, rfl⟩, ihu hw⟩

/-- The nullable names are those from which the empty word can be derived. -/
theorem mem_nullable (h : g.nonTerminals.Nodup) {name : String} :
    name ∈ g.nullable ↔ g.Yields [.nonTerminal name] [] := by
  constructor
  · apply saturate_sound (P := fun a => g.Yields [.nonTerminal a] []) _ (by simp)
    intro r hr p hp hs
    have hn : g.Yields p [] := yields_nil_of_forall fun s hm => (hs s hm).imp of_decide_eq_true id
    exact hn.of_mem_productions (mem_productions_left h hr hp)
  · intro hy
    rcases hy.eq_epsilon_or_nullable rfl _ List.mem_cons_self with he | ⟨a, ha, he⟩
    · cases he
    · cases he
      exact ha

theorem Yields.mem_productive {u : List Symbol} {w : List String} (h : g.Yields u w) :
    ∀ a, .nonTerminal a ∈ u → a ∈ g.productive := by
  induction h with
  | nil => simp
  | epsilon _ ih => simpa using ih
  | terminal _ _ ih => simpa using ih
  | nonTerminal hp _ _ ihp ihu =>
      obtain ⟨r, hr, rfl, hp'⟩ := exists_of_mem_productions hp
      have hl := saturate_inductive (·.nonTerminal? = none) [] g.rules r hr _ hp' fun s hs => by
        cases s with
        | epsilon => exact .inl rfl
        | terminal => exact .inl rfl
        | nonTerminal a => exact .inr ⟨a, ihp a hs, rfl⟩
      intro a ha
      rcases List.mem_cons.1 ha with he | ha
      · cases he
        exact hl
      · exact ihu a ha

theorem mem_productive (h : g.nonTerminals.Nodup) {name : String} :
    name ∈ g.productive ↔ ∃ w, g.Yields [.nonTerminal name] w := by
  constructor
  · apply saturate_sound (P := fun a => ∃ w, g.Yields [.nonTerminal a] w) _ (by simp)
    intro r hr p hp hs
    have hb : ∀ a, .nonTerminal a ∈ p → ∃ w, g.Yields [.nonTerminal a] w := by
      intro a ha
      rcases hs _ ha with hb | ⟨b, hb, he⟩
      · simp [Symbol.nonTerminal?] at hb
      · cases he
        exact hb
    obtain ⟨w, hw⟩ := exists_yields_of_forall hb
    exact ⟨w, hw.of_mem_productions (mem_productions_left h hr hp)⟩
  · rintro ⟨w, hy⟩
    exact hy.mem_productive name List.mem_cons_self

end Grammar

end NormalForms
