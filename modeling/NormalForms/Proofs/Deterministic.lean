import NormalForms.Proofs.Built

namespace NormalForms

theorem OrderedSet.length_toList_le_one {α : Type} [Ord α] [Std.ReflOrd α] {s : OrderedSet α}
    (h : ∀ a ∈ s, ∀ b ∈ s, a = b) : s.toList.length ≤ 1 := by
  have hn := s.toList_nodup
  obtain ⟨l, hl⟩ := s
  cases l with
  | nil => simp
  | cons a l =>
      cases l with
      | nil => simp
      | cons b l =>
          have hab : a = b := h a (by simp [← mem_toList]) b (by simp [← mem_toList])
          simp [hab] at hn

namespace Automaton

variable {fa : Automaton}

theorem determinize_isDeterministic (fa : Automaton) : fa.determinize.isDeterministic = true := by
  simp only [isDeterministic, List.all_eq_true, Bool.and_eq_true, decide_eq_true_eq]
  intro t ht
  refine ⟨determinize_no_empty t ht, OrderedSet.length_toList_le_one fun p hp q hq => ?_⟩
  obtain ⟨s, hs, a, _, _, rfl⟩ := mem_determinize_transitions.1 ht
  obtain ⟨-, -, rfl⟩ := (mem_determinize_transitions_from hs).1 (mem_targets.1 hp)
  obtain ⟨-, -, rfl⟩ := (mem_determinize_transitions_from hs).1 (mem_targets.1 hq)
  rfl

/-- The automaton of the sets of states is deterministic and accepts the same words. -/
theorem determinize_correct (h : fa.Built) :
    fa.determinize.isDeterministic = true ∧ ∀ word, fa.determinize.accepts word = fa.accepts word :=
  ⟨fa.determinize_isDeterministic, h.valid.determinize_accepts⟩

def commas : Automaton where
  states := .ofList ["", ",", "\\"]
  alphabet := .ofList ["a"]
  transitions := .ofList [⟨⟨"", .letter "a"⟩, ","⟩, ⟨⟨"", .letter "a"⟩, "\\"⟩, ⟨⟨",", .empty⟩, ""⟩]
  rows := .ofList [⟨"", .letter "a"⟩, ⟨",", .empty⟩]
  initial := ""
  finals := .ofList ["\\"]

theorem commas_built : commas.Built := by
  let d : Description := ⟨["", ",", "\\"], ["a"], [⟨"", "a", [",", "\\"]⟩, ⟨",", "ε", [""]⟩], "", ["\\"]⟩
  have h : ofDescription d = .ok commas := by rfl
  exact .ofDescription h

theorem commas_determinize_correct : commas.Built ∧ commas.determinize.isDeterministic = true ∧
    commas.accepts ["a", "a"] = true ∧ commas.determinize.accepts ["a", "a"] = true := by
  have ha : commas.accepts ["a", "a"] = true := by decide +kernel
  obtain ⟨hd, hw⟩ := determinize_correct commas_built
  exact ⟨commas_built, hd, ha, (hw ["a", "a"]).trans ha⟩

end Automaton

end NormalForms
