import NormalForms.Proofs.FreshStart
import NormalForms.Proofs.RenamingFree
import NormalForms.Proofs.Shaping
import NormalForms.Proofs.Useful

namespace NormalForms

theorem Production.deletions_eq_singleton {nullable : List String} {p : Production}
    (h : ∀ a ∈ nullable, .nonTerminal a ∉ p) : deletions nullable p = [p] := by
  induction p with
  | nil => rfl
  | cons s p ih =>
      have hs : ¬ s.nonTerminal?.any (· ∈ nullable) = true := by
        simp only [Option.any_eq_true, decide_eq_true_eq, Symbol.nonTerminal?_eq_some, not_exists, not_and]
        intro a he ha
        exact h a ha (he ▸ List.mem_cons_self)
      rw [deletions_cons_of_not_mem hs, ih fun a ha hm => h a ha (List.mem_cons_of_mem s hm)]
      rfl

theorem Rule.withoutEpsilon_eq_self {nullable : List String} {keeps : Bool} {r : Rule}
    (hnd : r.alternatives.Nodup) (hne : ∀ p ∈ r.alternatives, p ≠ [])
    (hk : keeps = true ↔ [.epsilon] ∈ r.alternatives)
    (hn : ∀ p ∈ r.alternatives, ∀ a ∈ nullable, .nonTerminal a ∉ p) : r.withoutEpsilon nullable keeps = r := by
  have hkept : (r.alternatives.flatMap fun p =>
      if p = [.epsilon] then (if keeps then [p] else []) else (Production.deletions nullable p).filter (· ≠ [])) =
      r.alternatives := by
    calc
      _ = r.alternatives.flatMap ([·]) := by
        apply List.flatMap_congr
        intro p hp
        split
        · rename_i he
          rw [if_pos (hk.2 (he ▸ hp))]
        · rw [Production.deletions_eq_singleton (hn p hp)]
          simpa using hne p hp
      _ = _ := List.flatMap_singleton' _
  have hrest : ∀ p ∈ (if keeps then [[Symbol.epsilon]] else []), p ∈ r.alternatives := by
    intro p hp
    split at hp
    · rename_i hkeeps
      rw [List.mem_singleton.1 hp]
      exact hk.1 hkeeps
    · exact absurd hp List.not_mem_nil
  rw [Rule.withoutEpsilon, hkept, eraseDups_append_eq_left hnd hrest]

namespace Grammar

variable {g : Grammar}

/-- If the empty string is left to the start symbol, then so is the empty word. -/
theorem EpsilonAtStart.of_mem_nullable (he : g.EpsilonAtStart) (hg : g.WellFormed) {a : String}
    (ha : a ∈ g.nullable) : a = g.start ∧ [.epsilon] ∈ g.productions a := by
  have hn := hg.nonTerminals_nodup
  refine saturate_sound (P := fun a => a = g.start ∧ [.epsilon] ∈ g.productions a) ?_ (by simp) a ha
  intro r hr p hp hs
  have hm : p ∈ g.productions r.left := mem_productions_left hn hr hp
  -- the start symbol stands on no right side, so that nothing but the empty string makes a production nullable
  suffices hmem : .epsilon ∈ p by
    rw [(hg.admits hm).epsilon_alone hmem] at hm
    exact ⟨(he r.left hm).1, hm⟩
  obtain ⟨s, q, rfl⟩ := List.exists_cons_of_ne_nil (hg.admits hm).ne_nil
  rcases hs s List.mem_cons_self with hb | ⟨b, ⟨rfl, hb⟩, rfl⟩
  · exact of_decide_eq_true hb ▸ List.mem_cons_self
  · have hright := (occursOnRight_eq_false hn).1 (he _ hb).2
    exact absurd List.mem_cons_self (hright r.left _ hm)

theorem EpsilonAtStart.expanded_eq_self (he : g.EpsilonAtStart) (hg : g.WellFormed) : g.expanded = g := by
  have hn := hg.nonTerminals_nodup
  apply map_rules_eq_self
  intro r hr
  have hmem : ∀ {p}, p ∈ r.alternatives → p ∈ g.productions r.left := fun hp =>
    mem_productions_left hn hr hp
  apply Rule.withoutEpsilon_eq_self (hg.alternatives_nodup r hr) (hg.ne_nil r hr)
  · rw [decide_eq_true_eq]
    constructor
    · rintro ⟨hk, hl⟩
      have hs := (he.of_mem_nullable hg hk.1).2
      rwa [← hl, productions_left hn hr] at hs
    · intro hp
      obtain ⟨hl, hs⟩ := he r.left (hmem hp)
      refine ⟨⟨(mem_nullable hn).2 ?_, by simp [hs]⟩, hl⟩
      exact yields_epsilon.of_mem_productions (hl ▸ hmem hp)
  · intro p hp a ha
    obtain ⟨rfl, hs⟩ := he.of_mem_nullable hg ha
    exact (occursOnRight_eq_false hn).1 (he _ hs).2 r.left p (hmem hp)

theorem eliminateEpsilon_eq_self (hg : g.WellFormed) (he : g.EpsilonAtStart) : g.eliminateEpsilon = g := by
  have hc : ¬ (g.start ∈ g.nullable ∧ ¬ g.KeepsEpsilon) := by
    rintro ⟨hs, hk⟩
    apply hk
    exact ⟨hs, by simp [(he _ (he.of_mem_nullable hg hs).2).2]⟩
  rw [eliminateEpsilon_eq, if_neg hc, he.expanded_eq_self hg]

theorem RenamingFree.renamings_eq_nil (hr : g.RenamingFree) (hn : g.nonTerminals.Nodup) : g.renamings = [] := by
  apply List.eq_nil_iff_forall_not_mem.2
  intro e he
  have hf := hr e.1 _ ((mem_renamings hn).1 he)
  simp [Production.isRenaming] at hf

theorem eliminateRenaming_eq_self (hg : g.WellFormed) (hr : g.RenamingFree) : g.eliminateRenaming = g := by
  have hn := hg.nonTerminals_nodup
  apply map_rules_eq_self
  intro r hm
  have hc : g.unitClosure r.left = [r.left] := by
    rw [unitClosure, hr.renamings_eq_nil hn, reach]
    simp [search, targetsOf, withoutSource]
  have hp := productions_left hn hm
  have hf : r.alternatives.filter (!Production.isRenaming ·) = r.alternatives := by
    apply List.filter_eq_self.2
    intro p hp'
    rw [hr r.left p (hp ▸ hp')]
    rfl
  simp only [withoutRenamingsIn, hc, List.flatMap_singleton, hp, hf]
  rw [eraseDups_eq_self (hg.alternatives_nodup r hm)]

theorem eliminateInaccessible_eq_self (ha : ∀ a ∈ g.nonTerminals, a ∈ g.accessible) : g.eliminateInaccessible = g := by
  have hf : g.rules.filter (·.left ∈ g.accessible) = g.rules :=
    List.filter_eq_self.2 fun r hr => decide_eq_true (ha r.left (left_mem_nonTerminals hr))
  rw [eliminateInaccessible, hf]

theorem eliminateNonProductive_eq_self (hn : g.nonTerminals.Nodup)
    (hk : ∀ a ∈ g.nonTerminals, a ∈ g.productive ∨ a = g.start)
    (hp : ∀ left, ∀ p ∈ g.productions left, ∀ a, .nonTerminal a ∈ p → a ∈ g.productive) :
    g.eliminateNonProductive = g := by
  have hf : g.rules.filter (fun r => r.left ∈ g.productive ∨ r.left = g.start) = g.rules :=
    List.filter_eq_self.2 fun r hr => decide_eq_true (hk r.left (left_mem_nonTerminals hr))
  rw [eliminateNonProductive, hf]
  apply map_rules_eq_self
  intro r hr
  have hu : r.alternatives.filter (fun p => (Production.nonTerminals p).all (· ∈ g.productive)) = r.alternatives := by
    apply List.filter_eq_self.2
    intro p hm
    simpa using hp r.left p (mem_productions_left hn hr hm)
  rw [hu]

theorem Shaped.helpers_eq_nil (hs : g.Shaped) (hn : g.nonTerminals.Nodup) : g.helpers = [] := by
  apply List.eq_nil_iff_forall_not_mem.2
  intro h hh
  obtain ⟨r, hr, e, he, hh⟩ := mem_helpers.1 hh
  rcases hs r.left e.1 (mem_productions_of_mem_zipIdx hn hr he) with ⟨s, hp⟩ | ⟨a, b, hp⟩
  · simp [hp, Helper.needed] at hh
  · simp [hp, Helper.needed, Helper.links, Production.terminals, Symbol.terminal?] at hh

theorem shape_eq_self (hn : g.nonTerminals.Nodup) (hs : g.Shaped) : g.shape = g := by
  rw [shape_eq, hs.helpers_eq_nil hn, List.map_nil, List.append_nil]
  apply map_rules_eq_self
  intro r hr
  have ha : (r.alternatives.zipIdx.map fun e => Helper.shaped g.helperName r.left e.2 e.1) = r.alternatives := by
    calc
      _ = r.alternatives.zipIdx.map Prod.fst := by
        apply List.map_congr_left
        intro e he
        rcases hs r.left e.1 (mem_productions_of_mem_zipIdx hn hr he) with ⟨s, hp⟩ | ⟨a, b, hp⟩
        · rw [hp]
          rfl
        · rw [hp]
          rfl
      _ = _ := List.zipIdx_map_fst 0 r.alternatives
  rw [Helper.shapedRule, ha]

end Grammar

end NormalForms
