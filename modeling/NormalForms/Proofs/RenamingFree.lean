import NormalForms.Grammar.Eliminations
import NormalForms.Proofs.Guarantees
import NormalForms.Proofs.Reach
import NormalForms.Proofs.Simulation

namespace NormalForms.Grammar

variable {g : Grammar}

theorem mem_renamings (hn : g.nonTerminals.Nodup) {a b : String} :
    (a, b) ∈ g.renamings ↔ [.nonTerminal b] ∈ g.productions a := by
  rw [mem_productions hn]
  simp only [renamings, List.mem_flatMap, List.mem_map, List.mem_filter, Prod.mk.injEq]
  constructor
  · rintro ⟨r, hr, p, ⟨hp, hq⟩, c, hc, rfl, rfl⟩
    obtain ⟨d, rfl⟩ := Production.isRenaming_iff.1 hq
    obtain rfl : c = d := by simpa using hc
    exact ⟨r, hr, rfl, hp⟩
  · rintro ⟨r, hr, rfl, hp⟩
    exact ⟨r, hr, _, ⟨hp, rfl⟩, b, by simp, rfl, rfl⟩

theorem mem_unitClosure {a b : String} : b ∈ g.unitClosure a ↔ Leads g.renamings a b := by
  simp [unitClosure, mem_reach]

@[simp] theorem eliminateRenaming_start : g.eliminateRenaming.start = g.start :=
  rfl

@[simp] theorem eliminateRenaming_nonTerminals : g.eliminateRenaming.nonTerminals = g.nonTerminals := by
  simp [nonTerminals, eliminateRenaming, withoutRenamingsIn]

theorem mem_eliminateRenaming (hn : g.nonTerminals.Nodup) {a : String} {p : Production} :
    p ∈ g.eliminateRenaming.productions a ↔
      a ∈ g.nonTerminals ∧ ∃ b, Leads g.renamings a b ∧ p ∈ g.productions b ∧ p.isRenaming = false := by
  have hrule : p ∈ g.eliminateRenaming.productions a ↔
      ∃ r ∈ g.rules, r.left = a ∧ p ∈ (g.withoutRenamingsIn r).alternatives := by
    rw [mem_productions (by simpa using hn)]
    simp [eliminateRenaming, withoutRenamingsIn]
  rw [hrule, mem_nonTerminals]
  simp only [withoutRenamingsIn, List.mem_eraseDups, List.mem_flatMap, List.mem_filter, mem_unitClosure,
    Bool.not_eq_true']
  constructor
  · rintro ⟨r, hr, rfl, hp⟩
    exact ⟨⟨r, hr, rfl⟩, hp⟩
  · rintro ⟨⟨r, hr, rfl⟩, hp⟩
    exact ⟨r, hr, rfl, hp⟩

theorem Yields.of_leads_renamings (hn : g.nonTerminals.Nodup) {a b : String} (hl : Leads g.renamings a b)
    {w : List String} (h : g.Yields [.nonTerminal b] w) : g.Yields [.nonTerminal a] w := by
  induction hl using Relation.ReflTransGen.head_induction_on with
  | refl => exact h
  | head he _ ih => exact ih.of_mem_productions ((mem_renamings hn).1 he)

theorem eliminateRenaming_yields (hn : g.nonTerminals.Nodup) {u : List Symbol} {w : List String} :
    g.eliminateRenaming.Yields u w ↔ g.Yields u w := by
  constructor
  · intro h
    refine h.simulate fun left p w hp _ hg => ?_
    obtain ⟨-, b, hl, hp, -⟩ := (mem_eliminateRenaming hn).1 hp
    exact .of_leads_renamings hn hl (hg.of_mem_productions hp)
  · intro h
    refine h.simulate fun left p w hp _ hr => ?_
    have hleft := mem_nonTerminals_of_mem_productions hp
    cases hq : p.isRenaming with
    | false => exact hr.of_mem_productions ((mem_eliminateRenaming hn).2 ⟨hleft, left, .refl, hp, hq⟩)
    | true =>
        obtain ⟨b, rfl⟩ := Production.isRenaming_iff.1 hq
        obtain ⟨q, hq, hy⟩ := yields_nonTerminal.1 hr
        obtain ⟨-, c, hl, hc, hf⟩ := (mem_eliminateRenaming hn).1 hq
        have hl' : Leads g.renamings left c := .head ((mem_renamings hn).2 hp) hl
        exact hy.of_mem_productions ((mem_eliminateRenaming hn).2 ⟨hleft, c, hl', hc, hf⟩)

theorem eliminateRenaming_renamingFree (hn : g.nonTerminals.Nodup) : g.eliminateRenaming.RenamingFree := by
  intro left p hp
  obtain ⟨-, -, -, -, hf⟩ := (mem_eliminateRenaming hn).1 hp
  exact hf

/-- The start symbol keeps the empty string to itself, since no other name is renamed to it. -/
theorem EpsilonAtStart.eliminateRenaming (hn : g.nonTerminals.Nodup) (he : g.EpsilonAtStart) :
    g.eliminateRenaming.EpsilonAtStart := by
  intro left hp
  obtain ⟨-, b, hl, hp, -⟩ := (mem_eliminateRenaming hn).1 hp
  obtain ⟨hb, hs⟩ := he b hp
  have hright := (occursOnRight_eq_false hn).1 hs
  constructor
  · rcases Relation.ReflTransGen.cases_tail hl with hl | ⟨c, -, hc⟩
    · exact hl.symm.trans hb
    · have hc := (mem_renamings hn).1 hc
      rw [hb] at hc
      exact absurd List.mem_cons_self (hright c _ hc)
  · refine (occursOnRight_eq_false (by simpa using hn)).2 fun left' p hp' => ?_
    obtain ⟨-, c, -, hp', -⟩ := (mem_eliminateRenaming hn).1 hp'
    exact hright c p hp'

theorem WellFormed.eliminateRenaming (hg : g.WellFormed) : g.eliminateRenaming.WellFormed := by
  apply hg.of_sublist
  · rfl
  · simp
  · simpa using hg.start_mem
  · intro left p hp
    obtain ⟨-, b, -, hp, -⟩ := (mem_eliminateRenaming hg.nonTerminals_nodup).1 hp
    exact ⟨hg.admits hp, by simpa using (hg.admits hp).nonTerminal_mem⟩
  · intro r hr
    obtain ⟨s, -, rfl⟩ := List.mem_map.1 hr
    exact nodup_eraseDups _

end NormalForms.Grammar
