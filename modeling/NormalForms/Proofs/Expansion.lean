import NormalForms.Proofs.FreshStart
import NormalForms.Proofs.Updates

namespace NormalForms

namespace Production

variable {nullable : List String}

theorem map_extend_of_mem {s : Symbol} (h : s.nonTerminal?.any (· ∈ nullable) = true) (versions : List Production)
    (q : Production) :
    (extend nullable versions s).map (· ++ q) = versions.map (· ++ s :: q) ++ versions.map (· ++ q) := by
  rw [extend, if_pos h, List.map_append, List.map_map]
  simp only [Function.comp_def, List.append_assoc, List.singleton_append]

theorem map_extend_of_not_mem {s : Symbol} (h : ¬ s.nonTerminal?.any (· ∈ nullable) = true)
    (versions : List Production) (q : Production) :
    (extend nullable versions s).map (· ++ q) = versions.map (· ++ s :: q) := by
  rw [extend, if_neg h, List.map_map]
  simp only [Function.comp_def, List.append_assoc, List.singleton_append]

/-- The loop goes from left to right: for each way to leave out symbols of the rest, all versions of what stands before
the rest are gone through. -/
theorem foldl_extend (p : Production) (versions : List Production) :
    p.foldl (extend nullable) versions = (deletions nullable p).flatMap fun q => versions.map (· ++ q) := by
  induction p generalizing versions with
  | nil => simp [deletions]
  | cons s p ih =>
      rw [List.foldl_cons, ih]
      by_cases h : s.nonTerminal?.any (· ∈ nullable) = true
      · simp only [deletions_cons_of_mem h, List.flatMap_assoc, map_extend_of_mem h, List.flatMap_cons,
          List.flatMap_nil, List.append_nil]
      · simp only [deletions_cons_of_not_mem h, List.flatMap_map, map_extend_of_not_mem h]

theorem versions_eq (nullable : List String) (p : Production) : versions nullable p = deletions nullable p := by
  simp [versions, foldl_extend]

end Production

def Production.remains (nullable : List String) (keeps : Bool) (p : Production) : List Production :=
  if p = [.epsilon] then if keeps then [p] else [] else (Production.deletions nullable p).filter (· ≠ [])

theorem Rule.withoutEpsilon_eq (nullable : List String) (keeps : Bool) (r : Rule) :
    r.withoutEpsilon nullable keeps =
      ⟨r.left, (r.alternatives.flatMap (Production.remains nullable keeps) ++
        if keeps then [[Symbol.epsilon]] else []).eraseDups⟩ :=
  rfl

theorem keep_eraseDups (kept : List Production) (p : Production) :
    keep kept.eraseDups p = (kept ++ [p]).eraseDups := by
  by_cases h : p ∈ kept
  · rw [keep, if_pos (by simpa using h), eraseDups_concat_of_mem h]
  · rw [keep, if_neg (by simpa using h), eraseDups_concat_of_not_mem h]

theorem foldl_keep (kept ps : List Production) : ps.foldl keep kept.eraseDups = (kept ++ ps).eraseDups :=
  foldl_eq_of_step keep_eraseDups kept ps

theorem Production.putBack_eraseDups (nullable : List String) (keeps : Bool) (kept : List Production) (p : Production) :
    putBack nullable keeps kept.eraseDups p = (kept ++ remains nullable keeps p).eraseDups := by
  unfold putBack remains
  split
  · cases keeps with
    | false => simp
    | true => exact keep_eraseDups kept p
  · rw [versions_eq, ← foldl_keep, List.foldl_filter]
    congr 1
    funext kept q
    by_cases hq : q = []
    · simp [hq]
    · simp [hq]

theorem Rule.refilled_alternatives (nullable : List String) (keeps : Bool) (r : Rule) :
    (r.refilled nullable keeps).alternatives =
      (r.alternatives.flatMap (Production.remains nullable keeps)).eraseDups := by
  have hstep (seen : List Production) (p : Production) :
      Production.putBack nullable keeps (seen.flatMap (Production.remains nullable keeps)).eraseDups p =
        ((seen ++ [p]).flatMap (Production.remains nullable keeps)).eraseDups := by
    rw [Production.putBack_eraseDups, List.flatMap_append, List.flatMap_singleton]
  exact foldl_eq_of_step hstep [] r.alternatives

theorem Rule.refilled_of_not_keeps (nullable : List String) (r : Rule) :
    r.refilled nullable false = r.withoutEpsilon nullable false := by
  have h := r.refilled_alternatives nullable false
  rw [withoutEpsilon_eq, if_neg Bool.false_ne_true, List.append_nil, ← h]
  rfl

theorem Rule.keep_refilled (nullable : List String) (r : Rule) :
    ⟨r.left, keep (r.refilled nullable true).alternatives [.epsilon]⟩ = r.withoutEpsilon nullable true := by
  rw [refilled_alternatives, keep_eraseDups, withoutEpsilon_eq, if_pos rfl]

namespace Grammar

variable {g : Grammar}

theorem addProduction_eq {left : String} (h : left ∈ g.nonTerminals) (p : Production) :
    g.addProduction left p =
      { g with rules := g.rules.map fun r => if r.left = left then ⟨left, keep r.alternatives p⟩ else r } := by
  rw [addProduction, addNonTerminal_of_mem h]
  rfl

theorem refilled_of_not_keepsEpsilon (h : ¬ g.KeepsEpsilon) : g.refilled = g.expanded := by
  have hrule (r : Rule) : r.refilled g.nullable (g.KeepsEpsilon ∧ r.left = g.start) =
      r.withoutEpsilon g.nullable (g.KeepsEpsilon ∧ r.left = g.start) := by
    rw [decide_eq_false fun hk => h hk.1, Rule.refilled_of_not_keeps]
  exact congrArg (Grammar.mk g.start g.terminals) (List.map_congr_left fun r _ => hrule r)

theorem refilled_of_keepsEpsilon (hs : g.start ∈ g.nonTerminals) (h : g.KeepsEpsilon) :
    g.refilled.addProduction g.start [.epsilon] = g.expanded := by
  have hstart : g.start ∈ g.refilled.nonTerminals := by simpa [nonTerminals, refilled, Rule.refilled] using hs
  have hrule (r : Rule) : (fun r : Rule => if r.left = g.start then ⟨g.start, keep r.alternatives [.epsilon]⟩ else r)
      (r.refilled g.nullable (g.KeepsEpsilon ∧ r.left = g.start)) =
        r.withoutEpsilon g.nullable (g.KeepsEpsilon ∧ r.left = g.start) := by
    by_cases hl : r.left = g.start
    · rw [decide_eq_true ⟨h, hl⟩, ← Rule.keep_refilled, hl]
      exact if_pos hl
    · rw [decide_eq_false fun hk => hl hk.2, ← Rule.refilled_of_not_keeps]
      exact if_neg hl
  rw [addProduction_eq hstart]
  refine congrArg (Grammar.mk g.start g.terminals) ?_
  exact (List.map_map ..).trans (List.map_congr_left fun r _ => hrule r)

/-- Refilling the rules one by one comes to the same grammar as the elimination of the empty word. -/
theorem refill_eq (hs : g.start ∈ g.nonTerminals) : g.refill = g.eliminateEpsilon := by
  have hsplit : g.refill = if g.KeepsEpsilon then g.refilled.addProduction g.start [.epsilon]
      else if g.start ∈ g.nullable then g.refilled.withStart (g.refilled.freshName g.start) else g.refilled := rfl
  rw [hsplit, eliminateEpsilon_eq]
  by_cases hk : g.KeepsEpsilon
  · rw [if_pos hk, if_neg fun h => h.2 hk, refilled_of_keepsEpsilon hs hk]
  · have hfresh : g.expanded.freshName g.start = g.freshName g.start := by
      rw [freshName, freshName, takenNames, takenNames, expanded_terminals, expanded_nonTerminals]
    rw [if_neg hk, refilled_of_not_keepsEpsilon hk, hfresh]
    simp only [hk, not_false_eq_true, and_true]

end Grammar

end NormalForms
