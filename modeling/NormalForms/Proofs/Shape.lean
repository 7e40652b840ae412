import NormalForms.Proofs.Guarantees
import NormalForms.Proofs.Naming
import NormalForms.Proofs.Simulation

namespace NormalForms

namespace Helper

def body : Helper → Production
  | wrapper a => [.terminal a]
  | link _ _ rest => rest

theorem wrapper_mem_needed {left : String} {number : Nat} {p : Production} {a : String} :
    wrapper a ∈ needed left number p ↔ 2 ≤ p.length ∧ .terminal a ∈ p := by
  have hl : ∀ p : Production, wrapper a ∉ links left number p := by
    intro p
    induction p using links.induct with
    | case1 x y z p ih => simpa [links] using ih
    | case2 p h => simp [links.eq_2 left number p h]
  unfold needed
  by_cases hp : p.length < 2
  · simp only [hp, if_true, List.not_mem_nil, false_iff, not_and]
    omega
  · simp only [hp, if_false, List.mem_append, hl p, or_false, List.mem_map, wrapper.injEq, exists_eq_right,
      Production.mem_terminals]
    exact ⟨fun h => ⟨by omega, h⟩, fun h => h.2⟩

theorem needed_cons_cons_cons (left : String) (number : Nat) (x y z : Symbol) (p : Production) :
    link left number (y :: z :: p) ∈ needed left number (x :: y :: z :: p) ∧
      ∀ h ∈ needed left number (y :: z :: p), h ∈ needed left number (x :: y :: z :: p) := by
  have hx : ¬ (x :: y :: z :: p).length < 2 := by simp
  have hy : ¬ (y :: z :: p).length < 2 := by simp
  simp only [needed, hx, hy, if_false, links, List.mem_append, List.mem_cons]
  refine ⟨.inr (.inl trivial), ?_⟩
  rintro h (hw | hl)
  · obtain ⟨a, ha, rfl⟩ := List.mem_map.1 hw
    refine .inl (List.mem_map.2 ⟨a, ?_, rfl⟩)
    simp only [Production.mem_terminals] at ha ⊢
    exact List.mem_cons_of_mem x ha
  · exact .inr (.inr hl)

theorem eq_link_of_mem_links {left : String} {number : Nat} {p : Production} {h : Helper}
    (hh : h ∈ links left number p) :
    ∃ rest, h = link left number rest ∧ 2 ≤ rest.length ∧ rest <:+ p ∧
      ∀ k ∈ needed left number rest, k ∈ needed left number p := by
  induction p using links.induct with
  | case1 x y z p ih =>
      obtain ⟨-, hsub⟩ := needed_cons_cons_cons left number x y z p
      rw [links] at hh
      rcases List.mem_cons.1 hh with rfl | hh
      · exact ⟨y :: z :: p, rfl, by simp, List.suffix_cons x _, hsub⟩
      · obtain ⟨rest, rfl, hl, hs, hn⟩ := ih hh
        exact ⟨rest, rfl, hl, hs.trans (List.suffix_cons x _), fun k hk => hsub k (hn k hk)⟩
  | case2 p hp => simp [links.eq_2 left number p hp] at hh

theorem cases_of_mem_needed {left : String} {number : Nat} {p : Production} {h : Helper}
    (hh : h ∈ needed left number p) :
    (∃ a, h = wrapper a ∧ .terminal a ∈ p) ∨ h ∈ links left number p := by
  unfold needed at hh
  split at hh
  · exact absurd hh List.not_mem_nil
  · rcases List.mem_append.1 hh with hw | hl
    · obtain ⟨a, ha, rfl⟩ := List.mem_map.1 hw
      exact .inl ⟨a, rfl, by simpa using ha⟩
    · exact .inr hl

variable {name : Helper → String}

theorem wrapped_eq_epsilon {s : Symbol} : wrapped name s = .epsilon ↔ s = .epsilon := by
  cases s <;> simp [wrapped]

theorem wrapped_ne_terminal (s : Symbol) (a : String) : wrapped name s ≠ .terminal a := by
  cases s <;> simp [wrapped]

theorem wrapped_eq_nonTerminal {s : Symbol} {a : String} :
    wrapped name s = .nonTerminal a ↔ s = .nonTerminal a ∨ ∃ b, s = .terminal b ∧ name (wrapper b) = a := by
  cases s <;> simp [wrapped]

theorem mem_of_mem_shaped {left : String} {number : Nat} {p : Production} {a : String}
    (ha : .nonTerminal a ∈ shaped name left number p) :
    .nonTerminal a ∈ p ∨ ∃ h ∈ needed left number p, name h = a := by
  have hw : ∀ {x : Symbol} {q : Production}, 2 ≤ q.length → x ∈ q → .nonTerminal a = wrapped name x →
      .nonTerminal a ∈ q ∨ ∃ h ∈ needed left number q, name h = a := by
    intro x q hq hx he
    rcases wrapped_eq_nonTerminal.1 he.symm with rfl | ⟨b, rfl, hb⟩
    · exact .inl hx
    · exact .inr ⟨wrapper b, wrapper_mem_needed.2 ⟨hq, hx⟩, hb⟩
  cases p using shaped.fun_cases with
  | case1 => exact absurd ha List.not_mem_nil
  | case2 s => exact .inl ha
  | case3 x y =>
      simp only [shaped, List.mem_cons, List.not_mem_nil, or_false] at ha
      rcases ha with ha | ha
      · exact hw (by simp) (by simp) ha
      · exact hw (by simp) (by simp) ha
  | case4 x y z p =>
      simp only [shaped, List.mem_cons, List.not_mem_nil, or_false] at ha
      rcases ha with ha | ha
      · exact hw (by simp) (by simp) ha
      · exact .inr ⟨_, (needed_cons_cons_cons left number x y z p).1, (Symbol.nonTerminal.inj ha).symm⟩

theorem shaped_ne_nil {left : String} {number : Nat} {p : Production} (hp : p ≠ []) :
    shaped name left number p ≠ [] := by
  cases p using shaped.fun_cases with
  | case1 => exact absurd rfl hp
  | case2 | case3 | case4 => simp [shaped]

theorem eq_of_epsilon_mem_shaped {left : String} {number : Nat} {p : Production}
    (hp : .epsilon ∈ p → p = [.epsilon]) (he : .epsilon ∈ shaped name left number p) : p = [.epsilon] := by
  cases p using shaped.fun_cases with
  | case1 => exact absurd he List.not_mem_nil
  | case2 s => exact hp he
  | case3 x y =>
      simp only [shaped, List.mem_cons, List.not_mem_nil, or_false] at he
      rcases he with he | he
      · exact hp (by simp [wrapped_eq_epsilon.1 he.symm])
      · exact hp (by simp [wrapped_eq_epsilon.1 he.symm])
  | case4 x y z p =>
      simp only [shaped, List.mem_cons, List.not_mem_nil, or_false, reduceCtorEq] at he
      exact hp (by simp [wrapped_eq_epsilon.1 he.symm])

theorem terminal_mem_of_mem_shaped {left : String} {number : Nat} {p : Production} {a : String}
    (ha : .terminal a ∈ shaped name left number p) : p = [.terminal a] := by
  have hw : ∀ x : Symbol, .terminal a ≠ wrapped name x := fun x => (wrapped_ne_terminal x a).symm
  cases p using shaped.fun_cases with
  | case1 => exact absurd ha List.not_mem_nil
  | case2 s => simpa [shaped, eq_comm] using ha
  | case3 x y => simp [shaped, hw] at ha
  | case4 x y z p => simp [shaped, hw] at ha

end Helper

end NormalForms
