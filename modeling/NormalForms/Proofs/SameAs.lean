import NormalForms.Proofs.EpsilonFree
import NormalForms.Proofs.RenamingFree
import NormalForms.Proofs.RightLinear
import NormalForms.Proofs.Trimmed

namespace NormalForms

def Rule.edges (chosen : Rule → List Production) (r : Rule) : List (String × String) :=
  (chosen r).flatMap fun p => (Production.nonTerminals p).map (r.left, ·)

theorem Rule.targetsOf_edges_of_ne {chosen : Rule → List Production} {r : Rule} {a : String} (h : r.left ≠ a) :
    targetsOf a (r.edges chosen) = [] := by
  rw [List.eq_nil_iff_forall_not_mem]
  intro b hb
  obtain ⟨p, -, hp⟩ := List.mem_flatMap.1 (mem_targetsOf.1 hb)
  obtain ⟨c, -, he⟩ := List.mem_map.1 hp
  exact h (congrArg Prod.fst he)

/-- With one rule for each name, the targets of a name come from one rule, wherever it stands. -/
theorem targetsOf_edges_perm (chosen : Rule → List Production) {rules more : List Rule} (hp : rules.Perm more)
    (hn : (rules.map (·.left)).Nodup) (a : String) :
    targetsOf a (rules.flatMap (Rule.edges chosen)) = targetsOf a (more.flatMap (Rule.edges chosen)) := by
  induction hp with
  | nil => rfl
  | cons r _ ih => simp only [List.flatMap_cons, targetsOf_append, ih (List.nodup_cons.1 hn).2]
  | swap r s rules =>
      -- neighbours have different left sides, so one of the two has nothing to add
      have hne : s.left ≠ r.left := by
        intro he
        simp [he] at hn
      have hnone : targetsOf a (r.edges chosen) = [] ∨ targetsOf a (s.edges chosen) = [] := by
        by_cases hr : r.left = a
        · exact .inr (Rule.targetsOf_edges_of_ne (hr ▸ hne))
        · exact .inl (Rule.targetsOf_edges_of_ne hr)
      simp only [List.flatMap_cons, targetsOf_append]
      rcases hnone with hnone | hnone
      · simp [hnone]
      · simp [hnone]
  | trans hp _ ih ih' => exact (ih hn).trans (ih' ((hp.map _).nodup_iff.1 hn))

namespace Grammar

variable {g h : Grammar}

namespace SameAs

theorem start_eq (hs : g.SameAs h) : g.start = h.start :=
  hs.1

theorem terminals_perm (hs : g.SameAs h) : g.terminals.Perm h.terminals :=
  hs.2.1

theorem rules_perm (hs : g.SameAs h) : g.rules.Perm h.rules :=
  hs.2.2

theorem nonTerminals_perm (hs : g.SameAs h) : g.nonTerminals.Perm h.nonTerminals :=
  hs.rules_perm.map _

theorem nodup (hs : g.SameAs h) (hn : g.nonTerminals.Nodup) : h.nonTerminals.Nodup :=
  hs.nonTerminals_perm.nodup_iff.1 hn

theorem productions_eq (hs : g.SameAs h) (hn : g.nonTerminals.Nodup) (left : String) :
    g.productions left = h.productions left := by
  by_cases hl : left ∈ g.nonTerminals
  · obtain ⟨r, hr, rfl⟩ := mem_nonTerminals.1 hl
    rw [productions_left hn hr, productions_left (hs.nodup hn) (hs.rules_perm.mem_iff.1 hr)]
  · have hl' : left ∉ h.nonTerminals := mt hs.nonTerminals_perm.mem_iff.2 hl
    rw [productions_of_not_mem hl, productions_of_not_mem hl']

theorem yields_iff (hs : g.SameAs h) (hn : g.nonTerminals.Nodup) {u : List Symbol} {word : List String} :
    g.Yields u word ↔ h.Yields u word := by
  constructor
  · exact Yields.mono fun left p hp => hs.productions_eq hn left ▸ hp
  · exact Yields.mono fun left p hp => (hs.productions_eq hn left).symm ▸ hp

theorem freshName_eq (hs : g.SameAs h) (name : String) : g.freshName name = h.freshName name := by
  apply primed_congr
  intro a
  simp only [takenNames, List.mem_append, hs.terminals_perm.mem_iff, hs.nonTerminals_perm.mem_iff]

theorem occursOnRight_eq (hs : g.SameAs h) (name : String) : g.occursOnRight name = h.occursOnRight name := by
  rw [Bool.eq_iff_iff, occursOnRight_iff, occursOnRight_iff]
  simp only [hs.rules_perm.mem_iff]

theorem mem_nullable_iff (hs : g.SameAs h) (hn : g.nonTerminals.Nodup) (a : String) :
    a ∈ g.nullable ↔ a ∈ h.nullable := by
  rw [mem_nullable hn, mem_nullable (hs.nodup hn), hs.yields_iff hn]

theorem keepsEpsilon_iff (hs : g.SameAs h) (hn : g.nonTerminals.Nodup) : g.KeepsEpsilon ↔ h.KeepsEpsilon := by
  rw [KeepsEpsilon, KeepsEpsilon, hs.mem_nullable_iff hn, hs.occursOnRight_eq, hs.start_eq]

theorem expanded (hs : g.SameAs h) (hn : g.nonTerminals.Nodup) : g.expanded.SameAs h.expanded := by
  have hrule (r : Rule) : r.withoutEpsilon g.nullable (g.KeepsEpsilon ∧ r.left = g.start) =
      r.withoutEpsilon h.nullable (h.KeepsEpsilon ∧ r.left = h.start) := by
    rw [Rule.withoutEpsilon_congr (hs.mem_nullable_iff hn)]
    simp only [hs.keepsEpsilon_iff hn, hs.start_eq]
  refine ⟨hs.start_eq, hs.terminals_perm, ?_⟩
  rw [Grammar.expanded, Grammar.expanded, funext hrule]
  exact hs.rules_perm.map _

theorem withStart (hs : g.SameAs h) (start : String) : (g.withStart start).SameAs (h.withStart start) := by
  refine ⟨rfl, hs.terminals_perm, ?_⟩
  rw [Grammar.withStart, Grammar.withStart, hs.start_eq]
  exact hs.rules_perm.cons _

theorem eliminateEpsilon (hs : g.SameAs h) (hn : g.nonTerminals.Nodup) :
    g.eliminateEpsilon.SameAs h.eliminateEpsilon := by
  have hiff : g.start ∈ g.nullable ∧ ¬ g.KeepsEpsilon ↔ h.start ∈ h.nullable ∧ ¬ h.KeepsEpsilon := by
    rw [hs.mem_nullable_iff hn, hs.keepsEpsilon_iff hn, hs.start_eq]
  rw [eliminateEpsilon_eq, eliminateEpsilon_eq]
  by_cases hc : g.start ∈ g.nullable ∧ ¬ g.KeepsEpsilon
  · rw [if_pos hc, if_pos (hiff.1 hc), ← hs.freshName_eq, ← hs.start_eq]
    exact (hs.expanded hn).withStart _
  · rw [if_neg hc, if_neg (mt hiff.2 hc)]
    exact hs.expanded hn

theorem unitClosure_eq (hs : g.SameAs h) (hn : g.nonTerminals.Nodup) (a : String) :
    g.unitClosure a = h.unitClosure a :=
  search_congr (targetsOf_edges_perm (fun r => r.alternatives.filter Production.isRenaming) hs.rules_perm hn) [] [a]

theorem eliminateRenaming (hs : g.SameAs h) (hn : g.nonTerminals.Nodup) :
    g.eliminateRenaming.SameAs h.eliminateRenaming := by
  have hrule (r : Rule) : g.withoutRenamingsIn r = h.withoutRenamingsIn r := by
    simp only [withoutRenamingsIn, hs.unitClosure_eq hn, hs.productions_eq hn]
  refine ⟨hs.start_eq, hs.terminals_perm, ?_⟩
  rw [Grammar.eliminateRenaming, Grammar.eliminateRenaming, funext hrule]
  exact hs.rules_perm.map _

theorem accessible_eq (hs : g.SameAs h) (hn : g.nonTerminals.Nodup) : g.accessible = h.accessible := by
  rw [accessible, accessible, hs.start_eq]
  exact search_congr (targetsOf_edges_perm (·.alternatives) hs.rules_perm hn) [] [h.start]

theorem eliminateInaccessible (hs : g.SameAs h) (hn : g.nonTerminals.Nodup) :
    g.eliminateInaccessible.SameAs h.eliminateInaccessible := by
  refine ⟨hs.start_eq, hs.terminals_perm, ?_⟩
  rw [Grammar.eliminateInaccessible, Grammar.eliminateInaccessible, hs.accessible_eq hn]
  exact hs.rules_perm.filter _

theorem mem_productive_iff (hs : g.SameAs h) (hn : g.nonTerminals.Nodup) (a : String) :
    a ∈ g.productive ↔ a ∈ h.productive := by
  rw [mem_productive hn, mem_productive (hs.nodup hn)]
  simp only [hs.yields_iff hn]

theorem eliminateNonProductive (hs : g.SameAs h) (hn : g.nonTerminals.Nodup) :
    g.eliminateNonProductive.SameAs h.eliminateNonProductive := by
  refine ⟨hs.start_eq, hs.terminals_perm, ?_⟩
  simp only [Grammar.eliminateNonProductive, hs.mem_productive_iff hn, hs.start_eq]
  exact (hs.rules_perm.filter _).map _

theorem trimmed (hs : g.SameAs h) (hn : g.nonTerminals.Nodup) : g.trimmed.SameAs h.trimmed := by
  have hi := eliminateInaccessible_nodup hn
  have hp := eliminateNonProductive_nodup hi
  exact ((hs.eliminateInaccessible hn).eliminateNonProductive hi).eliminateInaccessible hp

theorem accepting_eq (hs : g.SameAs h) : g.accepting = h.accepting := by
  have hany : (g.rules.any fun r => r.alternatives.any Production.isSingleTerminal) =
      h.rules.any fun r => r.alternatives.any Production.isSingleTerminal := hs.rules_perm.any_eq
  rw [accepting, accepting, hany, hs.freshName_eq]

theorem moveAutomaton_eq (hs : g.SameAs h) : g.moveAutomaton = h.moveAutomaton := by
  have htransitions : ∀ t, t ∈ g.moveAutomaton.transitions ↔ t ∈ h.moveAutomaton.transitions := by
    simp only [mem_moveAutomaton_transitions, hs.rules_perm.mem_iff, hs.freshName_eq, implies_true]
  apply Automaton.eq_of_mem_iff
  case states =>
    intro q
    rw [mem_moveAutomaton_states, mem_moveAutomaton_states, hs.nonTerminals_perm.mem_iff, hs.accepting_eq]
  case alphabet =>
    intro a
    simp only [moveAutomaton, OrderedSet.mem_ofList, hs.terminals_perm.mem_iff]
  case transitions => exact htransitions
  case rows =>
    intro d
    simp only [mem_moveAutomaton_rows, htransitions]
  case initial => exact hs.start_eq
  case finals =>
    intro q
    simp only [mem_moveAutomaton_finals, hs.rules_perm.mem_iff, hs.accepting_eq]

theorem toAutomaton_eq_ok_iff (hs : g.SameAs h) {fa : Automaton} :
    g.toAutomaton = .ok fa ↔ h.toAutomaton = .ok fa := by
  rw [toAutomaton_eq_ok, toAutomaton_eq_ok, hs.moveAutomaton_eq]
  simp only [hs.rules_perm.mem_iff]

end SameAs

end Grammar

end NormalForms
