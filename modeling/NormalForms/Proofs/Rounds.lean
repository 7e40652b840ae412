import Mathlib.Logic.Function.Iterate
import NormalForms.Proofs.Saturation
import NormalForms.Proofs.WordsKept

namespace NormalForms

section

variable {base : Symbol → Bool} {found : List String} {rules : List Rule}

/-- Every left side is either found or still waiting. -/
theorem sweep_perm (base : Symbol → Bool) (found : List String) (rules : List Rule) :
    ((sweep base found rules).1 ++ (sweep base found rules).2.map (·.left)).Perm (found ++ rules.map (·.left)) := by
  induction rules generalizing found with
  | nil => exact .refl _
  | cons r rules ih =>
      by_cases h : r.isCovered base found = true
      · rw [sweep_cons_of_covered h]
        exact (ih (found ++ [r.left])).trans (.of_eq (List.append_assoc found [r.left] _))
      · rw [sweep_cons_of_not_covered h]
        exact List.perm_middle.trans (((ih found).cons r.left).trans List.perm_middle.symm)

theorem exists_saturate_perm (base : Symbol → Bool) (found : List String) (rules : List Rule) :
    ∃ waiting, (saturate base found rules ++ waiting).Perm (found ++ rules.map (·.left)) := by
  induction found, rules using saturate.induct base with
  | case1 found rules more waiting he hl ih =>
      obtain ⟨last, hlast⟩ := ih
      have hp := sweep_perm base found rules
      rw [he] at hp
      rw [saturate_eq, if_pos (by rwa [he]), he]
      exact ⟨last, hlast.trans hp⟩
  | case2 found rules more waiting he hl =>
      rw [saturate_eq, if_neg (by rwa [he])]
      exact ⟨_, sweep_perm base found rules⟩

def unfound (found : List String) (rules : List Rule) : List Rule :=
  rules.filter (·.left ∉ found)

theorem unfound_cons_of_mem {r : Rule} (h : r.left ∈ found) (rules : List Rule) :
    unfound found (r :: rules) = unfound found rules :=
  List.filter_cons_of_neg (by simpa using h)

theorem unfound_cons_of_not_mem {r : Rule} (h : r.left ∉ found) (rules : List Rule) :
    unfound found (r :: rules) = r :: unfound found rules :=
  List.filter_cons_of_pos (by simpa using h)

theorem unfound_append {left : String} (h : left ∉ rules.map (·.left)) :
    unfound (found ++ [left]) rules = unfound found rules := by
  apply List.filter_congr
  intro r hr
  have hne : r.left ≠ left := fun he => h (he ▸ List.mem_map_of_mem hr)
  simp [hne]

theorem unfound_unfound {more : List String} (h : ∀ a ∈ found, a ∈ more) (rules : List Rule) :
    unfound more (unfound found rules) = unfound more rules := by
  rw [unfound, unfound, List.filter_filter]
  apply List.filter_congr
  intro r _
  by_cases hr : r.left ∈ found
  · simp [h _ hr]
  · simp [hr]

theorem nodup_unfound (hf : found.Nodup) (hn : (rules.map (·.left)).Nodup) :
    (found ++ (unfound found rules).map (·.left)).Nodup := by
  refine List.nodup_append.2 ⟨hf, hn.sublist (List.filter_sublist.map _), ?_⟩
  rintro a ha _ hb rfl
  obtain ⟨r, hr, rfl⟩ := List.mem_map.1 hb
  have hnot := (List.mem_filter.1 hr).2
  simp [ha] at hnot

theorem sweep_waiting (hn : (found ++ rules.map (·.left)).Nodup) :
    (sweep base found rules).2 = unfound (sweep base found rules).1 rules := by
  induction rules generalizing found with
  | nil => rfl
  | cons r rules ih =>
      have hp := (sweep_perm base found (r :: rules)).nodup_iff.2 hn
      by_cases h : r.isCovered base found = true
      · rw [sweep_cons_of_covered h, unfound_cons_of_mem (mem_sweep_of_mem (by simp) rules)]
        exact ih (by simpa using hn)
      · rw [sweep_cons_of_not_covered h] at hp ⊢
        have hr : r.left ∉ (sweep base found rules).1 := by
          rw [List.map_cons, List.nodup_middle, List.nodup_cons] at hp
          exact fun hm => hp.1 (List.mem_append_left _ hm)
        rw [List.map_cons, List.nodup_middle] at hn
        rw [unfound_cons_of_not_mem hr, ih hn.of_cons]

namespace Rounds

theorem look_of_mem {r : Rule} (h : r.left ∈ found) (changed : Bool) :
    look base ⟨found, changed⟩ r = ⟨found, changed⟩ :=
  if_pos h

theorem look_of_covered {r : Rule} (h : r.left ∉ found) (hc : r.isCovered base found = true) (changed : Bool) :
    look base ⟨found, changed⟩ r = ⟨found ++ [r.left], true⟩ :=
  (if_neg h).trans (if_pos hc)

theorem look_of_not_covered {r : Rule} (h : r.left ∉ found) (hc : ¬ r.isCovered base found = true) (changed : Bool) :
    look base ⟨found, changed⟩ r = ⟨found, changed⟩ :=
  (if_neg h).trans (if_neg hc)

/-- A pass over all rules finds what a pass over the waiting ones does, and it changes something if fewer of them wait
behind it. -/
theorem foldl_look (hn : (rules.map (·.left)).Nodup) (found : List String) (changed : Bool) :
    rules.foldl (look base) ⟨found, changed⟩ =
      ⟨(sweep base found (unfound found rules)).1,
        changed || decide ((sweep base found (unfound found rules)).2.length < (unfound found rules).length)⟩ := by
  induction rules generalizing found changed with
  | nil => simp [unfound, sweep]
  | cons r rules ih =>
      obtain ⟨hr, hn⟩ := List.nodup_cons.1 hn
      rw [List.foldl_cons]
      by_cases hm : r.left ∈ found
      · rw [look_of_mem hm, unfound_cons_of_mem hm, ih hn]
      · rw [unfound_cons_of_not_mem hm]
        by_cases hc : r.isCovered base found = true
        · have hle := (waiting_sublist base (found ++ [r.left]) (unfound found rules)).length_le
          rw [look_of_covered hm hc, sweep_cons_of_covered hc, ih hn, unfound_append hr, Bool.true_or, eq_comm]
          simp only [List.length_cons, Nat.lt_succ_of_le hle, decide_true, Bool.or_true]
        · rw [look_of_not_covered hm hc, sweep_cons_of_not_covered hc, ih hn]
          simp only [List.length_cons, Nat.add_lt_add_iff_right]

theorem round_of_not_changed (found : List String) : round base rules ⟨found, false⟩ = ⟨found, false⟩ :=
  rfl

theorem round_of_changed (hn : (rules.map (·.left)).Nodup) (found : List String) :
    round base rules ⟨found, true⟩ =
      ⟨(sweep base found (unfound found rules)).1,
        decide ((sweep base found (unfound found rules)).2.length < (unfound found rules).length)⟩ :=
  (foldl_look hn found false).trans (by rw [Bool.false_or])

/-- Every pass but the last one leaves fewer rules waiting. -/
theorem iterate_round (hf : found.Nodup) (hn : (rules.map (·.left)).Nodup) {n : Nat}
    (h : (unfound found rules).length ≤ n) :
    (round base rules)^[n + 1] ⟨found, true⟩ = ⟨saturate base found (unfound found rules), false⟩ := by
  induction n using Nat.strongRec generalizing found with
  | ind n ih =>
      have hdisjoint := nodup_unfound hf hn
      rw [Function.iterate_succ_apply, round_of_changed hn, saturate_eq]
      by_cases hl : (sweep base found (unfound found rules)).2.length < (unfound found rules).length
      · have hwaiting : (sweep base found (unfound found rules)).2 =
            unfound (sweep base found (unfound found rules)).1 rules :=
          (sweep_waiting hdisjoint).trans (unfound_unfound (fun a ha => mem_sweep_of_mem ha _) rules)
        have hfound := ((sweep_perm base found (unfound found rules)).nodup_iff.2 hdisjoint).of_append_left
        obtain ⟨m, rfl⟩ := Nat.exists_eq_add_one.2 (show 0 < n by omega)
        rw [if_pos hl, decide_eq_true hl]
        rw [hwaiting] at hl ⊢
        exact ih m (Nat.lt_succ_self m) hfound (by omega)
      · rw [if_neg hl, decide_eq_false hl]
        exact Function.iterate_fixed (round_of_not_changed _) n

end Rounds

end

namespace Grammar

variable {g : Grammar}

theorem iterate_round_nullable (hn : g.nonTerminals.Nodup) :
    (Rounds.round (· = .epsilon) g.rules)^[g.nonTerminals.length + 1] ⟨[], true⟩ = ⟨g.nullable, false⟩ := by
  have hall : unfound [] g.rules = g.rules := List.filter_eq_self.2 (by simp)
  have hlength : (unfound [] g.rules).length ≤ g.nonTerminals.length := by
    rw [hall, nonTerminals, List.length_map]
  have hrounds : (Rounds.round (· = .epsilon) g.rules)^[g.nonTerminals.length + 1] ⟨[], true⟩ =
      ⟨saturate (· = .epsilon) [] (unfound [] g.rules), false⟩ := Rounds.iterate_round List.nodup_nil hn hlength
  rwa [hall] at hrounds

theorem nodup_nullable (hn : g.nonTerminals.Nodup) : g.nullable.Nodup := by
  obtain ⟨waiting, hp⟩ := exists_saturate_perm (· = .epsilon) [] g.rules
  exact (hp.nodup_iff.2 hn).of_append_left

/-- The passes over the rules end, since all but the last one find a non-terminal. What they find, each name once, is
exactly the non-terminals from which the empty word is derived. -/
theorem nullable_exact (hg : g.WellFormed) :
    (Rounds.round (· = .epsilon) g.rules)^[g.nonTerminals.length + 1] ⟨[], true⟩ = ⟨g.nullable, false⟩ ∧
    (∀ a, a ∈ g.nullable ↔ a ∈ g.nonTerminals ∧ g.Derives [.nonTerminal a] []) ∧ g.nullable.Nodup := by
  have hn := hg.nonTerminals_nodup
  refine ⟨iterate_round_nullable hn, fun a => ?_, nodup_nullable hn⟩
  have hempty : g.Generates a [] ↔ g.Yields [.nonTerminal a] [] := generates_iff_yields
  change a ∈ g.nullable ↔ a ∈ g.nonTerminals ∧ g.Generates a []
  rw [hempty, mem_nullable hn, iff_and_self]
  intro h
  obtain ⟨p, hp, -⟩ := yields_nonTerminal.1 h
  exact mem_nonTerminals_of_mem_productions hp

/-- Here the first pass makes use of a name that it has found itself, and the start symbol is found by the second. -/
theorem tangled_nullable_exact : tangled.WellFormed ∧
    (Rounds.round (· = .epsilon) tangled.rules)^[1] ⟨[], true⟩ = ⟨["A", "B"], true⟩ ∧
    (Rounds.round (· = .epsilon) tangled.rules)^[5] ⟨[], true⟩ = ⟨["A", "B", "S"], false⟩ ∧
    tangled.Derives [.nonTerminal "S"] [] ∧ ¬ tangled.Derives [.nonTerminal "D"] [] ∧ tangled.nullable.Nodup := by
  obtain ⟨hrounds, hmem, hnodup⟩ := nullable_exact tangled_wellFormed
  have hnullable : tangled.nullable = ["A", "B", "S"] := by with_unfolding_all decide
  rw [hnullable] at hrounds hmem
  exact ⟨tangled_wellFormed, by decide, hrounds, ((hmem "S").1 (by decide)).2,
    fun h => absurd ((hmem "D").2 ⟨by decide, h⟩) (by decide), hnullable ▸ hnodup⟩

end Grammar

end NormalForms
