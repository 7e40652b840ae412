import Mathlib.Data.List.Induction
import Mathlib.Data.List.Nodup
import NormalForms.Grammar.WellFormed

namespace NormalForms

theorem nodup_eraseDups {α : Type} [BEq α] [LawfulBEq α] (l : List α) : l.eraseDups.Nodup := by
  cases l with
  | nil => simp
  | cons a l =>
      rw [List.eraseDups_cons, List.nodup_cons]
      exact ⟨by simp, nodup_eraseDups _⟩
termination_by l.length
decreasing_by
  have h := List.length_filter_le (!· == a) l
  simp only [List.length_cons]
  omega

theorem eraseDups_eq_self {α : Type} [BEq α] [LawfulBEq α] {l : List α} (h : l.Nodup) : l.eraseDups = l := by
  induction l with
  | nil => rfl
  | cons a l ih =>
      obtain ⟨ha, hl⟩ := List.nodup_cons.1 h
      have hf : l.filter (!· == a) = l := by
        apply List.filter_eq_self.2
        intro b hb
        simpa using fun he : b = a => ha (he ▸ hb)
      rw [List.eraseDups_cons, hf, ih hl]

theorem head?_eraseDups {α : Type} [BEq α] (l : List α) : l.eraseDups.head? = l.head? := by
  cases l with
  | nil => rfl
  | cons a l => rw [List.eraseDups_cons, List.head?_cons, List.head?_cons]

theorem eraseDups_filter {α : Type} [BEq α] [LawfulBEq α] (p : α → Bool) (l : List α) :
    (l.filter p).eraseDups = l.eraseDups.filter p := by
  cases l with
  | nil => rfl
  | cons a l =>
      have ih := eraseDups_filter p (l.filter (!· == a))
      rw [List.filter_filter] at ih
      rw [List.eraseDups_cons]
      by_cases hp : p a = true
      · rw [List.filter_cons_of_pos hp, List.filter_cons_of_pos hp, List.eraseDups_cons, ← ih, List.filter_filter]
        simp only [Bool.and_comm]
      · rw [List.filter_cons_of_neg hp, List.filter_cons_of_neg hp, ← ih]
        congr 1
        apply List.filter_congr
        intro b _
        by_cases hb : b = a
        · simp [hb, hp]
        · simp [hb]
termination_by l.length
decreasing_by
  have h := List.length_filter_le (!· == a) l
  simp only [List.length_cons]
  omega

theorem eraseDups_append_eq {α : Type} [BEq α] [LawfulBEq α] (l m : List α) :
    (l ++ m).eraseDups = l.eraseDups ++ m.eraseDups.filter (!l.eraseDups.elem ·) := by
  have hr : m.removeAll l = m.filter (!l.eraseDups.elem ·) := by
    simp [List.removeAll]
  rw [List.eraseDups_append, hr, eraseDups_filter]

theorem eraseDups_append_congr {α : Type} [BEq α] [LawfulBEq α] {l l' m m' : List α} (hl : l.eraseDups = l'.eraseDups)
    (hm : m.eraseDups = m'.eraseDups) : (l ++ m).eraseDups = (l' ++ m').eraseDups := by
  rw [eraseDups_append_eq, eraseDups_append_eq, hl, hm]

theorem eraseDups_append_eq_left {α : Type} [BEq α] [LawfulBEq α] {l m : List α} (h : l.Nodup)
    (hm : ∀ a ∈ m, a ∈ l) : (l ++ m).eraseDups = l := by
  have hr : m.removeAll l = [] := by simpa [List.removeAll] using hm
  rw [List.eraseDups_append, hr, eraseDups_eq_self h, List.eraseDups_nil, List.append_nil]

theorem eraseDups_concat_of_mem {α : Type} [BEq α] [LawfulBEq α] {l : List α} {a : α} (h : a ∈ l) :
    (l ++ [a]).eraseDups = l.eraseDups := by
  simp [List.eraseDups_append, List.removeAll, h]

theorem eraseDups_concat_of_not_mem {α : Type} [BEq α] [LawfulBEq α] {l : List α} {a : α} (h : a ∉ l) :
    (l ++ [a]).eraseDups = l.eraseDups ++ [a] := by
  simp [List.eraseDups_append, List.removeAll, h, List.eraseDups_cons]

/-- Repeated elements are left where they stand first. -/
theorem pairwise_idxOf_eraseDups {α : Type} [BEq α] [LawfulBEq α] (l : List α) :
    l.eraseDups.Pairwise fun a b => l.idxOf a < l.idxOf b := by
  induction l using List.reverseRecOn with
  | nil => exact .nil
  | append_singleton l a ih =>
      have hold : l.eraseDups.Pairwise fun b c => (l ++ [a]).idxOf b < (l ++ [a]).idxOf c := by
        refine ih.imp_of_mem fun {b c} hb hc h => ?_
        rwa [List.idxOf_append_of_mem (List.mem_eraseDups.1 hb), List.idxOf_append_of_mem (List.mem_eraseDups.1 hc)]
      by_cases ha : a ∈ l
      · rwa [eraseDups_concat_of_mem ha]
      · rw [eraseDups_concat_of_not_mem ha, List.pairwise_append]
        refine ⟨hold, List.pairwise_singleton _ _, fun b hb c hc => ?_⟩
        have hb := List.mem_eraseDups.1 hb
        rw [List.mem_singleton.1 hc, List.idxOf_append_of_mem hb, List.idxOf_append_of_notMem ha]
        exact Nat.lt_add_right _ (List.idxOf_lt_length_of_mem hb)

/-- A loop whose state is told by all that it has gone through. -/
theorem foldl_eq_of_step {α β : Type} {f : β → α → β} {state : List α → β}
    (step : ∀ seen a, f (state seen) a = state (seen ++ [a])) (seen l : List α) :
    l.foldl f (state seen) = state (seen ++ l) := by
  induction l generalizing seen with
  | nil => rw [List.foldl_nil, List.append_nil]
  | cons a l ih => rw [List.foldl_cons, step, ih, List.append_assoc, List.singleton_append]

section

variable {α : Type} [DecidableEq α] {found : List α} {a : α}

theorem filter_eraseDups_cons_of_mem (ha : a ∈ found) (l : List α) :
    (a :: l).eraseDups.filter (· ∉ found) = l.eraseDups.filter (· ∉ found) := by
  rw [List.eraseDups_cons, List.filter_cons_of_neg (by simpa using ha), eraseDups_filter, List.filter_filter]
  apply List.filter_congr
  intro b _
  by_cases hb : b = a
  · simp [hb, ha]
  · simp [hb]

theorem filter_eraseDups_cons_of_not_mem (ha : a ∉ found) (l : List α) :
    (a :: l).eraseDups.filter (· ∉ found) = a :: l.eraseDups.filter (· ∉ found ++ [a]) := by
  rw [List.eraseDups_cons, List.filter_cons_of_pos (by simpa using ha), eraseDups_filter, List.filter_filter]
  congr 1
  apply List.filter_congr
  intro b _
  by_cases hb : b = a
  · simp [hb]
  · simp [hb]

end

theorem find?_key_eq_some {α β : Type} [DecidableEq β] {key : α → β} {l : List α} {a : α} (ha : a ∈ l)
    (hinj : ∀ b ∈ l, key b = key a → b = a) : l.find? (key · = key a) = some a := by
  cases hf : l.find? (key · = key a) with
  | none => exact absurd (decide_eq_true rfl) (List.find?_eq_none.1 hf a ha)
  | some b =>
      have hk := List.find?_some hf
      rw [hinj b (List.mem_of_find?_eq_some hf) (of_decide_eq_true hk)]

theorem isDeclarable_iff {name : String} : isDeclarable name = true ↔ name ≠ "" ∧ name ∉ epsilonNames := by
  simp [isDeclarable]

namespace Production

@[simp] theorem mem_nonTerminals {p : Production} {a : String} : a ∈ p.nonTerminals ↔ .nonTerminal a ∈ p := by
  simp [nonTerminals]

@[simp] theorem mem_terminals {p : Production} {a : String} : a ∈ p.terminals ↔ .terminal a ∈ p := by
  simp [terminals]

theorem isRenaming_iff {p : Production} : p.isRenaming = true ↔ ∃ a, p = [.nonTerminal a] := by
  unfold isRenaming
  split <;> simp_all

end Production

namespace Grammar

variable {g : Grammar}

theorem mem_nonTerminals {name : String} : name ∈ g.nonTerminals ↔ ∃ r ∈ g.rules, r.left = name := by
  simp [nonTerminals]

theorem left_mem_nonTerminals {r : Rule} (hr : r ∈ g.rules) : r.left ∈ g.nonTerminals :=
  mem_nonTerminals.2 ⟨r, hr, rfl⟩

theorem exists_of_mem_productions {name : String} {p : Production} (hp : p ∈ g.productions name) :
    ∃ r ∈ g.rules, r.left = name ∧ p ∈ r.alternatives := by
  rw [productions] at hp
  cases hf : g.rules.find? (·.left = name) with
  | none => simp [hf] at hp
  | some r =>
      have hl := List.find?_some hf
      simp only [decide_eq_true_eq] at hl
      rw [hf] at hp
      exact ⟨r, List.mem_of_find?_eq_some hf, hl, hp⟩

theorem mem_nonTerminals_of_mem_productions {name : String} {p : Production} (hp : p ∈ g.productions name) :
    name ∈ g.nonTerminals := by
  obtain ⟨r, hr, rfl, -⟩ := exists_of_mem_productions hp
  exact left_mem_nonTerminals hr

theorem productions_of_not_mem {name : String} (h : name ∉ g.nonTerminals) : g.productions name = [] :=
  List.eq_nil_iff_forall_not_mem.2 fun _ hp => h (mem_nonTerminals_of_mem_productions hp)

theorem productions_left (h : g.nonTerminals.Nodup) {r : Rule} (hr : r ∈ g.rules) :
    g.productions r.left = r.alternatives := by
  have hf : g.rules.find? (·.left = r.left) = some r :=
    find?_key_eq_some hr fun s hs hl => List.inj_on_of_nodup_map h hs hr hl
  simp [productions, hf]

theorem mem_productions_left (h : g.nonTerminals.Nodup) {r : Rule} (hr : r ∈ g.rules) {p : Production}
    (hp : p ∈ r.alternatives) : p ∈ g.productions r.left := by
  rwa [productions_left h hr]

theorem mem_productions (h : g.nonTerminals.Nodup) {name : String} {p : Production} :
    p ∈ g.productions name ↔ ∃ r ∈ g.rules, r.left = name ∧ p ∈ r.alternatives := by
  constructor
  · exact exists_of_mem_productions
  · rintro ⟨r, hr, rfl, hp⟩
    exact mem_productions_left h hr hp

theorem map_rules_eq_self {f : Rule → Rule} (h : ∀ r ∈ g.rules, f r = r) : { g with rules := g.rules.map f } = g := by
  rw [List.map_congr_left h, List.map_id']

theorem occursOnRight_iff {name : String} :
    g.occursOnRight name = true ↔ ∃ r ∈ g.rules, ∃ p ∈ r.alternatives, .nonTerminal name ∈ p := by
  simp [occursOnRight]

theorem forall_declares_iff {p : Production} :
    (∀ s ∈ p, g.declares s = true) ↔
      (∀ a, .terminal a ∈ p → a ∈ g.terminals) ∧ ∀ a, .nonTerminal a ∈ p → a ∈ g.nonTerminals := by
  constructor
  · intro h
    exact ⟨fun a ha => by simpa [declares] using h _ ha, fun a ha => by simpa [declares] using h _ ha⟩
  · rintro ⟨ht, hn⟩ s hs
    cases s with
    | epsilon => rfl
    | terminal a => simpa [declares] using ht a hs
    | nonTerminal a => simpa [declares] using hn a hs

structure Admits (g : Grammar) (p : Production) : Prop where
  ne_nil : p ≠ []
  epsilon_alone : .epsilon ∈ p → p = [.epsilon]
  terminal_mem : ∀ a, .terminal a ∈ p → a ∈ g.terminals
  nonTerminal_mem : ∀ a, .nonTerminal a ∈ p → a ∈ g.nonTerminals

theorem Admits.mono {h : Grammar} {p : Production} (hp : g.Admits p) (ht : ∀ a ∈ g.terminals, a ∈ h.terminals)
    (hn : ∀ a, .nonTerminal a ∈ p → a ∈ g.nonTerminals → a ∈ h.nonTerminals) : h.Admits p where
  ne_nil := hp.ne_nil
  epsilon_alone := hp.epsilon_alone
  terminal_mem a ha := ht a (hp.terminal_mem a ha)
  nonTerminal_mem a ha := hn a ha (hp.nonTerminal_mem a ha)

theorem WellFormed.admits (hg : g.WellFormed) {left : String} {p : Production} (hp : p ∈ g.productions left) :
    g.Admits p := by
  obtain ⟨r, hr, -, hp⟩ := exists_of_mem_productions hp
  obtain ⟨ht, hn⟩ := forall_declares_iff.1 (hg.declared r hr p hp)
  exact ⟨hg.ne_nil r hr p hp, hg.epsilon_alone r hr p hp, ht, hn⟩

theorem WellFormed.of_admits (hs : g.start ∈ g.nonTerminals)
    (hd : ∀ name ∈ g.terminals ++ g.nonTerminals, isDeclarable name = true)
    (ht : ∀ name ∈ g.terminals, name ∉ g.nonTerminals) (htn : g.terminals.Nodup) (hnn : g.nonTerminals.Nodup)
    (hp : ∀ left, ∀ p ∈ g.productions left, g.Admits p) (ha : ∀ r ∈ g.rules, r.alternatives.Nodup) :
    g.WellFormed := by
  have hall : ∀ r ∈ g.rules, ∀ p ∈ r.alternatives, g.Admits p := fun r hr p hp' =>
    hp r.left p (mem_productions_left hnn hr hp')
  refine ⟨hs, hd, ht, htn, hnn, fun r hr p hp => (hall r hr p hp).ne_nil,
    fun r hr p hp => (hall r hr p hp).epsilon_alone, fun r hr p hp => forall_declares_iff.2 ?_, ha⟩
  exact ⟨(hall r hr p hp).terminal_mem, (hall r hr p hp).nonTerminal_mem⟩

/-- A grammar made from the symbols of a well-formed one is well-formed, as long as its productions refer to the names
that it keeps. -/
theorem WellFormed.of_sublist {h : Grammar} (hg : g.WellFormed) (ht : h.terminals = g.terminals)
    (hn : h.nonTerminals.Sublist g.nonTerminals) (hs : h.start ∈ h.nonTerminals)
    (hp : ∀ left, ∀ p ∈ h.productions left, g.Admits p ∧ ∀ a, .nonTerminal a ∈ p → a ∈ h.nonTerminals)
    (ha : ∀ r ∈ h.rules, r.alternatives.Nodup) : h.WellFormed := by
  apply WellFormed.of_admits hs
  · intro name hname
    rw [ht, List.mem_append] at hname
    exact hg.declarable name (List.mem_append.2 (hname.imp id fun hm => hn.subset hm))
  · intro name hname hm
    rw [ht] at hname
    exact hg.disjoint name hname (hn.subset hm)
  · rw [ht]
    exact hg.terminals_nodup
  · exact hg.nonTerminals_nodup.sublist hn
  · intro left p hm
    obtain ⟨hadm, hkept⟩ := hp left p hm
    exact hadm.mono (fun _ ht' => ht ▸ ht') fun a ha' _ => hkept a ha'
  · exact ha

end Grammar

end NormalForms
