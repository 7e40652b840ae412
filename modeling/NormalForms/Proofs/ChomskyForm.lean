import NormalForms.Proofs.FreshStart
import NormalForms.Proofs.RenamingFree
import NormalForms.Proofs.Shaping
import NormalForms.Proofs.Useful

namespace NormalForms

namespace Helper

variable {name : Helper → String}

theorem exists_wrapped_eq {s : Symbol} (hs : s ≠ .epsilon) : ∃ a, wrapped name s = .nonTerminal a := by
  cases s with
  | epsilon => exact absurd rfl hs
  | terminal a => exact ⟨name (wrapper a), rfl⟩
  | nonTerminal a => exact ⟨a, rfl⟩

theorem shaped_cases (name : Helper → String) (left : String) (number : Nat) {p : Production} (hp : p ≠ [])
    (he : .epsilon ∈ p → p = [.epsilon]) :
    (∃ s, p = [s] ∧ shaped name left number p = [s]) ∨
      ∃ a b, shaped name left number p = [.nonTerminal a, .nonTerminal b] := by
  have hw : 2 ≤ p.length → ∀ s ∈ p, ∃ a, wrapped name s = .nonTerminal a := by
    rintro hlen s hs
    apply exists_wrapped_eq
    rintro rfl
    rw [he hs] at hlen
    simp at hlen
  cases p using shaped.fun_cases with
  | case1 => exact absurd rfl hp
  | case2 s => exact .inl ⟨s, rfl, rfl⟩
  | case3 x y =>
      obtain ⟨a, ha⟩ := hw (by simp) x (by simp)
      obtain ⟨b, hb⟩ := hw (by simp) y (by simp)
      exact .inr ⟨a, b, by rw [shaped, ha, hb]⟩
  | case4 x y z p =>
      obtain ⟨a, ha⟩ := hw (by simp) x (by simp)
      exact .inr ⟨a, _, by rw [shaped, ha]⟩

end Helper

namespace Grammar

open Helper

variable {g : Grammar}

theorem isChomsky_iff : g.isChomsky = true ↔ ∀ r ∈ g.rules, ∀ p ∈ r.alternatives,
    (∃ a, p = [.terminal a]) ∨ (∃ a b, p = [.nonTerminal a, .nonTerminal b]) ∨
      p = [.epsilon] ∧ r.left = g.start ∧ g.occursOnRight g.start = false := by
  simp only [isChomsky, List.all_eq_true]
  refine forall₄_congr fun r _ p _ => ?_
  split <;> simp_all

theorem isChomsky_cases (hc : g.isChomsky = true) {left : String} {p : Production} (hp : p ∈ g.productions left) :
    (∃ a, p = [.terminal a]) ∨ (∃ a b, p = [.nonTerminal a, .nonTerminal b]) ∨
      p = [.epsilon] ∧ left = g.start ∧ g.occursOnRight g.start = false := by
  obtain ⟨r, hr, rfl, hm⟩ := exists_of_mem_productions hp
  exact isChomsky_iff.1 hc r hr p hm

theorem epsilonAtStart_of_isChomsky (hc : g.isChomsky = true) : g.EpsilonAtStart := by
  intro left hp
  rcases isChomsky_cases hc hp with ⟨a, he⟩ | ⟨a, b, he⟩ | ⟨-, h⟩
  · cases he
  · cases he
  · exact h

theorem renamingFree_of_isChomsky (hc : g.isChomsky = true) : g.RenamingFree := by
  intro left p hp
  rcases isChomsky_cases hc hp with ⟨a, rfl⟩ | ⟨a, b, rfl⟩ | ⟨rfl, -⟩ <;> rfl

theorem shaped_of_isChomsky (hc : g.isChomsky = true) : g.Shaped := by
  intro left p hp
  rcases isChomsky_cases hc hp with ⟨a, rfl⟩ | h | ⟨rfl, -⟩
  · exact .inl ⟨.terminal a, rfl⟩
  · exact .inr h
  · exact .inl ⟨.epsilon, rfl⟩

theorem unfold_shapedRule (hg : g.WellFormed) {r : Rule} (hr : r ∈ g.rules) :
    (shapedRule g.helperName r).alternatives.map (List.flatMap (Symbol.substitute g.unfolded)) = r.alternatives := by
  calc
    _ = r.alternatives.zipIdx.map Prod.fst := by
      rw [shapedRule, List.map_map]
      refine List.map_congr_left fun e he => ?_
      have hm := mem_productions_of_mem_zipIdx hg.nonTerminals_nodup hr he
      exact unfold_shaped (serves_of_mem hr he) (hg.admits hm).nonTerminal_mem
    _ = _ := List.zipIdx_map_fst 0 r.alternatives

theorem WellFormed.shape (hg : g.WellFormed) : g.shape.WellFormed := by
  have hn := hg.nonTerminals_nodup
  apply WellFormed.of_admits
  · exact mem_shape_nonTerminals.2 (.inl hg.start_mem)
  · intro name hname
    rw [shape_terminals, List.mem_append, mem_shape_nonTerminals] at hname
    rcases hname with ht | hn | ⟨h, hh, rfl⟩
    · exact hg.declarable name (List.mem_append_left _ ht)
    · exact hg.declarable name (List.mem_append_right _ hn)
    · exact (helperName_free hh).1
  · intro name ht hname
    rcases mem_shape_nonTerminals.1 hname with hn | ⟨h, hh, rfl⟩
    · exact hg.disjoint name ht hn
    · exact (helperName_free hh).2.1 ht
  · exact hg.terminals_nodup
  · exact shape_nodup hn
  · intro left p hp
    obtain ⟨b, number, q, rfl, hs, hq⟩ := origin_of_mem_shape hn hp
    have hq : g.Admits q := by
      rcases hq with hq | ⟨h, hh, -, rfl⟩
      · exact hg.admits hq
      · exact hg.admits_body hh
    refine ⟨shaped_ne_nil hq.ne_nil, fun he => ?_, fun a ha => ?_, fun a ha => ?_⟩
    · rw [eq_of_epsilon_mem_shaped hq.epsilon_alone he]
      rfl
    · exact hq.terminal_mem a (terminal_mem_of_mem_shaped ha ▸ List.mem_cons_self)
    · refine mem_shape_nonTerminals.2 ((mem_of_mem_shaped ha).imp (hq.nonTerminal_mem a) ?_)
      rintro ⟨h, hh, he⟩
      exact ⟨h, hs h hh, he⟩
  · intro r hr
    rcases mem_shape_rules.1 hr with ⟨s, hs, rfl⟩ | ⟨h, -, rfl⟩
    · apply List.Nodup.of_map (List.flatMap (Symbol.substitute g.unfolded))
      rw [unfold_shapedRule hg hs]
      exact hg.alternatives_nodup s hs
    · cases h <;> exact List.nodup_singleton _

theorem shape_occursOnRight (hg : g.WellFormed) {a : String} (ha : a ∈ g.nonTerminals)
    (h : g.occursOnRight a = false) : g.shape.occursOnRight a = false := by
  have hn := hg.nonTerminals_nodup
  have hright := (occursOnRight_eq_false hn).1 h
  refine (occursOnRight_eq_false (shape_nodup hn)).2 fun left p hp hm => ?_
  obtain ⟨b, number, q, rfl, hs, hq⟩ := origin_of_mem_shape hn hp
  rcases mem_of_mem_shaped hm with hm | ⟨k, hk, rfl⟩
  · rcases hq with hq | ⟨k, hk, -, rfl⟩
    · exact hright left q hq hm
    · obtain ⟨c, r, hr, ⟨t, rfl, -⟩ | ⟨i, rest, rfl, -, hsuf, -⟩⟩ := origin_of_mem_helpers hn hk
      · simp [body] at hm
      · exact hright c r hr (hsuf.subset hm)
  · exact (helperName_free (hs k hk)).2.2 ha

/-- A production of the shaped grammar is a pair of non-terminals, or a single symbol that stood there before or that a
wrapper stands for. -/
theorem shape_cases (hg : g.WellFormed) {a : String} {p : Production} (hp : p ∈ g.shape.productions a) :
    (∃ b c, p = [.nonTerminal b, .nonTerminal c]) ∨ ∃ s, p = [s] ∧ (p ∈ g.productions a ∨ ∃ t, s = .terminal t) := by
  have hn := hg.nonTerminals_nodup
  obtain ⟨left, number, q, rfl, -, hq⟩ := origin_of_mem_shape hn hp
  have hadm : g.Admits q := by
    rcases hq with hq | ⟨h, hh, -, rfl⟩
    · exact hg.admits hq
    · exact hg.admits_body hh
  rcases shaped_cases g.helperName left number hadm.ne_nil hadm.epsilon_alone with ⟨s, rfl, he⟩ | hpair
  · refine .inr ⟨s, he, ?_⟩
    rw [he]
    rcases hq with hq | ⟨h, hh, -, hb⟩
    · exact .inl hq
    · -- the body of a link is longer, so that a single symbol is the terminal of a wrapper
      obtain ⟨_, _, -, ⟨t, rfl, -⟩ | ⟨_, rest, rfl, hlen, -, -⟩⟩ := origin_of_mem_helpers hn hh
      · exact .inr ⟨t, (List.singleton_inj.1 hb).symm⟩
      · rw [show rest = [s] from hb] at hlen
        simp at hlen
  · exact .inl hpair

/-- Shaping completes the form if the renamings and the empty string have been dealt with. -/
theorem shape_isChomsky (hg : g.WellFormed) (hr : g.RenamingFree) (he : g.EpsilonAtStart) :
    g.shape.isChomsky = true := by
  refine isChomsky_iff.2 fun r hm p hp => ?_
  have hp := mem_productions_left (shape_nodup hg.nonTerminals_nodup) hm hp
  rcases shape_cases hg hp with hpair | ⟨s, rfl, hold | ⟨t, rfl⟩⟩
  · exact .inr (.inl hpair)
  · cases s with
    | epsilon =>
        obtain ⟨hl, hs⟩ := he r.left hold
        exact .inr (.inr ⟨rfl, hl, shape_occursOnRight hg hg.start_mem hs⟩)
    | terminal t => exact .inl ⟨t, rfl⟩
    | nonTerminal b => exact absurd (hr r.left _ hold) (by simp [Production.isRenaming])
  · exact .inl ⟨t, rfl⟩

end Grammar

end NormalForms
