import Mathlib.Data.Finset.Powerset
import NormalForms.Automaton.Subset
import NormalForms.Proofs.Productions
import NormalForms.Proofs.Run

namespace NormalForms.Automaton

variable {fa : Automaton} {states : OrderedSet String}

theorem mem_moves {a : String} {next : OrderedSet String} :
    (a, next) ∈ fa.moves states ↔ a ∈ fa.alphabet ∧ next = fa.next states a ∧ next ≠ ∅ := by
  simp only [moves, List.mem_filter, List.mem_map, Prod.mk.injEq, decide_eq_true_eq, OrderedSet.mem_toList]
  constructor
  · rintro ⟨⟨a, ha, rfl, rfl⟩, hne⟩
    exact ⟨ha, rfl, hne⟩
  · rintro ⟨ha, rfl, hne⟩
    exact ⟨⟨a, ha, rfl, rfl⟩, hne⟩

theorem mem_discovered {found : List (OrderedSet String)} {next : OrderedSet String} :
    next ∈ fa.discovered found states ↔ (∃ a, (a, next) ∈ fa.moves states) ∧ next ∉ found := by
  simp [discovered]

theorem nodup_append_discovered {found : List (OrderedSet String)} (h : found.Nodup) (states : OrderedSet String) :
    (found ++ fa.discovered found states).Nodup := by
  refine List.nodup_append.2 ⟨h, (nodup_eraseDups _).filter _, ?_⟩
  rintro s hs _ ht rfl
  exact (mem_discovered.1 ht).2 hs

/-- What the search keeps: nothing is found twice, and only the pending sets may still lead to others. -/
structure Explored (fa : Automaton) (found pending : List (OrderedSet String)) : Prop where
  nodup : found.Nodup
  pending_subset : ∀ s ∈ pending, s ∈ found
  closed : ∀ s ∈ found, s ∉ pending → ∀ m ∈ fa.moves s, m.2 ∈ found

theorem Explored.step {found pending : List (OrderedSet String)} (h : fa.Explored found (states :: pending)) :
    fa.Explored (found ++ fa.discovered found states) ((fa.discovered found states).reverse ++ pending) where
  nodup := nodup_append_discovered h.nodup states
  pending_subset s hs := by
    rw [List.mem_append, List.mem_reverse] at hs
    rw [List.mem_append]
    exact hs.symm.imp (fun hp => h.pending_subset s (List.mem_cons_of_mem _ hp)) id
  closed s hs hp m hm := by
    rw [List.mem_append, List.mem_reverse, not_or] at hp
    rw [List.mem_append]
    by_cases hf : m.2 ∈ found
    · exact .inl hf
    · have hs := (List.mem_append.1 hs).resolve_right hp.1
      by_cases he : s = states
      · subst he
        exact .inr (mem_discovered.2 ⟨⟨m.1, hm⟩, hf⟩)
      · refine absurd (h.closed s hs ?_ m hm) hf
        rw [List.mem_cons, not_or]
        exact ⟨he, hp.2⟩

theorem length_le_of_forall_subset {all : OrderedSet String} {found : List (OrderedSet String)} (hn : found.Nodup)
    (h : ∀ s ∈ found, ∀ q ∈ s, q ∈ all) : found.length ≤ 2 ^ all.toList.length := by
  calc
    found.length = found.toFinset.card := (List.toFinset_card_of_nodup hn).symm
    _ ≤ all.toList.toFinset.powerset.card := by
      refine Finset.card_le_card_of_injOn (fun s => s.toList.toFinset) ?_ ?_
      · intro s hs
        rw [Finset.mem_coe, List.mem_toFinset] at hs
        rw [Finset.mem_coe, Finset.mem_powerset]
        intro q hq
        rw [List.mem_toFinset] at hq ⊢
        exact h s hs q hq
      · intro s _ t _ hst
        refine OrderedSet.ext_mem fun q => ?_
        have hq := congrArg (q ∈ ·) hst
        simpa [OrderedSet.mem_toList] using hq
    _ = 2 ^ all.toList.toFinset.card := Finset.card_powerset _
    _ ≤ 2 ^ all.toList.length := Nat.pow_le_pow_right (by decide) (List.toFinset_card_le _)

theorem discover_forall {P : OrderedSet String → Prop} (hstep : ∀ s, P s → ∀ m ∈ fa.moves s, P m.2) {fuel : Nat}
    {found pending : List (OrderedSet String)} (hf : ∀ s ∈ found, P s) (hp : ∀ s ∈ pending, P s) :
    ∀ s ∈ fa.discover fuel found pending, P s := by
  induction fuel generalizing found pending with
  | zero => exact hf
  | succ fuel ih =>
      cases pending with
      | nil => exact hf
      | cons states pending =>
          have hd : ∀ s ∈ fa.discovered found states, P s := by
            intro s hs
            obtain ⟨⟨a, hm⟩, -⟩ := mem_discovered.1 hs
            exact hstep states (hp states List.mem_cons_self) _ hm
          apply ih
          · intro s hs
            exact (List.mem_append.1 hs).elim (hf s) (hd s)
          · intro s hs
            rcases List.mem_append.1 hs with hs | hs
            · exact hd s (List.mem_reverse.1 hs)
            · exact hp s (List.mem_cons_of_mem _ hs)

theorem prefix_discover (fuel : Nat) (found pending : List (OrderedSet String)) :
    found <+: fa.discover fuel found pending := by
  induction fuel generalizing found pending with
  | zero => exact List.prefix_rfl
  | succ fuel ih =>
      cases pending with
      | nil => exact List.prefix_rfl
      | cons states pending => exact (List.prefix_append _ _).trans (ih _ _)

/-- The fuel lasts until nothing is pending, since every step takes one set away and adds as many as it finds. -/
theorem Valid.explored_discover (hv : fa.Valid) {fuel : Nat} {found pending : List (OrderedSet String)}
    (h : fa.Explored found pending) (hs : ∀ s ∈ found, ∀ q ∈ s, q ∈ fa.states)
    (hf : 2 ^ fa.states.toList.length + pending.length ≤ fuel + found.length) :
    fa.Explored (fa.discover fuel found pending) [] := by
  induction fuel generalizing found pending with
  | zero =>
      -- as many sets are found as there are, so that none can be pending
      have hle := length_le_of_forall_subset h.nodup hs
      have hnil : pending = [] := List.eq_nil_of_length_eq_zero (by omega)
      rwa [hnil] at h
  | succ fuel ih =>
      cases pending with
      | nil => exact h
      | cons states pending =>
          refine ih h.step ?_ ?_
          · intro s hm
            rcases List.mem_append.1 hm with hm | hm
            · exact hs s hm
            · obtain ⟨⟨a, hm⟩, -⟩ := mem_discovered.1 hm
              obtain ⟨-, rfl, -⟩ := mem_moves.1 hm
              exact hv.next_subset a
          · simp only [List.length_append, List.length_reverse, List.length_cons] at hf ⊢
            omega

theorem initialStates_mem_subsets : fa.initialStates ∈ fa.subsets :=
  (prefix_discover _ _ _).subset (List.mem_singleton_self _)

theorem subsets_forall {P : OrderedSet String → Prop} (hi : P fa.initialStates)
    (hstep : ∀ s, P s → ∀ a ∈ fa.alphabet, fa.next s a ≠ ∅ → P (fa.next s a)) : ∀ s ∈ fa.subsets, P s := by
  have hone : ∀ s ∈ [fa.initialStates], P s := by
    intro s hs
    rwa [List.mem_singleton.1 hs]
  refine discover_forall ?_ hone hone
  rintro s hs ⟨a, _⟩ hm
  obtain ⟨ha, rfl, hne⟩ := mem_moves.1 hm
  exact hstep s hs a ha hne

theorem ne_empty_of_mem_subsets : ∀ s ∈ fa.subsets, s ≠ ∅ :=
  subsets_forall initialStates_ne_empty fun _ _ _ _ h => h

theorem explored_initialStates : fa.Explored [fa.initialStates] [fa.initialStates] :=
  ⟨List.nodup_singleton _, fun _ hs => hs, fun _ hs hp => absurd hs hp⟩

theorem Valid.explored_subsets (hv : fa.Valid) : fa.Explored fa.subsets [] := by
  refine hv.explored_discover explored_initialStates ?_ le_rfl
  intro s hs
  rw [List.mem_singleton.1 hs]
  exact hv.initialStates_subset

theorem Valid.next_mem_subsets (hv : fa.Valid) {a : String} (hs : states ∈ fa.subsets) (ha : a ∈ fa.alphabet)
    (hne : fa.next states a ≠ ∅) : fa.next states a ∈ fa.subsets :=
  hv.explored_subsets.closed states hs List.not_mem_nil _ (mem_moves.2 ⟨ha, rfl, hne⟩)

end NormalForms.Automaton
