import Mathlib.Algebra.GroupWithZero.Nat
import Mathlib.Algebra.Order.BigOperators.Group.List
import Mathlib.Algebra.Order.Group.Nat
import NormalForms.Proofs.Rows

namespace NormalForms

section

variable {α : Type} [DecidableEq α] {part : List α}

def places (part l : List α) : Nat :=
  l.tails.countP (part.isPrefixOf ·)

theorem places_nil (h : part ≠ []) : places part [] = 0 := by
  simpa [places] using h

theorem places_cons (part : List α) (a : α) (l : List α) :
    places part (a :: l) = places part l + if part <+: a :: l then 1 else 0 := by
  rw [places, List.tails_cons, List.countP_cons, places]
  simp only [List.isPrefixOf_iff_prefix]

/-- A list is held at no place within a code word if it neither begins one of its endings nor goes on from one. -/
theorem places_append {code : List α} (h : ∀ t, t ≠ [] → t <:+ code → ¬ part <+: t ∧ ¬ t <+: part) (rest : List α) :
    places part (code ++ rest) = places part rest := by
  induction code with
  | nil => rfl
  | cons a code ih =>
      have hnot : ¬ part <+: a :: (code ++ rest) := by
        intro hp
        obtain ⟨hcode, hpart⟩ := h (a :: code) (List.cons_ne_nil a code) (List.suffix_refl _)
        rcases List.prefix_or_prefix_of_prefix hp (List.prefix_append (a :: code) rest) with hp | hp
        · exact hcode hp
        · exact hpart hp
      rw [List.cons_append, places_cons, if_neg hnot, Nat.add_zero,
        ih fun t hne ht => h t hne (ht.trans (List.suffix_cons a code))]

theorem count_intercalate {a : α} {sep : List α} (h : a ∉ sep) (ls : List (List α)) :
    (sep.intercalate ls).count a = (ls.map (·.count a)).sum := by
  cases ls with
  | nil => rfl
  | cons l ls =>
      rw [intercalate_cons, List.count_append, List.count_flatMap, List.map_cons, List.sum_cons]
      simp only [Function.comp_def, List.count_append, List.count_eq_zero_of_not_mem h, Nat.zero_add]

end

def occurrences (part text : String) : Nat :=
  places part.toList text.toList

def epsilons (name : String) : Nat :=
  name.toList.count 'ε'

namespace Latex

namespace Mark

def epsilon : Mark :=
  char 'ε'

theorem epsilon_chars : epsilon.chars = '\\' :: "epsilon".toList := by
  decide

theorem special_apart : ∀ m ∈ special, m ≠ epsilon →
    ∀ t ∈ m.chars.tails, t ≠ [] → ¬ epsilon.chars <+: t ∧ ¬ t <+: epsilon.chars := by
  decide +kernel

theorem epsilon_tail_apart :
    ∀ t ∈ "epsilon".toList.tails, t ≠ [] → ¬ epsilon.chars <+: t ∧ ¬ t <+: epsilon.chars := by
  decide +kernel

theorem apart {m : Mark} (hm : m ≠ epsilon) {t : List Char} (hne : t ≠ []) (ht : t <:+ m.chars) :
    ¬ epsilon.chars <+: t ∧ ¬ t <+: epsilon.chars := by
  rcases m.special_or_plain with hs | ⟨c, -, hc, hplain⟩
  · exact special_apart m hs hm t ((List.mem_tails t m.chars).2 ht) hne
  · have hslash : c ≠ '\\' := fun he => hplain (he ▸ by decide)
    rw [hc] at ht
    rcases List.suffix_cons_iff.1 ht with rfl | ht
    · simp [epsilon_chars, hslash, Ne.symm hslash]
    · exact absurd (List.suffix_nil.1 ht) hne

/-- Only the mark for the character itself is written with its macro. -/
theorem places_append (m : Mark) (rest : List Char) :
    places epsilon.chars (m.chars ++ rest) = places epsilon.chars rest + if m = epsilon then 1 else 0 := by
  by_cases hm : m = epsilon
  · subst hm
    have htail : places epsilon.chars ("epsilon".toList ++ rest) = places epsilon.chars rest :=
      NormalForms.places_append (fun t hne ht => epsilon_tail_apart t ((List.mem_tails t _).2 ht) hne) rest
    have hhead : epsilon.chars <+: '\\' :: ("epsilon".toList ++ rest) := by
      rw [epsilon_chars]
      exact List.prefix_append ('\\' :: "epsilon".toList) rest
    have hcons : epsilon.chars ++ rest = '\\' :: ("epsilon".toList ++ rest) := by
      rw [epsilon_chars, List.cons_append]
    rw [hcons, places_cons, htail, if_pos hhead, if_pos rfl]
  · rw [NormalForms.places_append (fun t => apart hm) rest, if_neg hm, Nat.add_zero]

end Mark

theorem places_flatMap_chars (marks : List Mark) :
    places Mark.epsilon.chars (marks.flatMap Mark.chars) = marks.count .epsilon := by
  induction marks with
  | nil => exact places_nil (Mark.chars_ne_nil _)
  | cons m marks ih =>
      rw [List.flatMap_cons, Mark.places_append, ih, List.count_cons]
      simp only [beq_iff_eq]

theorem count_nameMarks (cs : List Char) : (nameMarks cs).count .epsilon = cs.count 'ε' := by
  induction cs with
  | nil => rfl
  | cons c cs ih =>
      have hgap : (if c = '-' ∧ cs.head? = some '-' then [Mark.gap] else []).count .epsilon = 0 := by
        split <;> rfl
      rw [nameMarks, List.count_cons, List.count_append, hgap, ih, Nat.zero_add, List.count_cons]
      simp [Mark.epsilon]

theorem count_joined {sign : Mark} (h : sign ≠ .epsilon) (parts : List (List Mark)) :
    (joined sign parts).count .epsilon = (parts.map (·.count .epsilon)).sum := by
  refine count_intercalate (fun hm => ?_) parts
  rcases List.mem_pair.1 hm with he | he
  · exact absurd he (by decide)
  · exact h he.symm

end Latex

def Entry.names (e : Entry) : List String :=
  if e.rights = [] then [] else e.left :: e.rights.flatten

namespace Latex

theorem count_productionMarks (names : List String) :
    (productionMarks names).count .epsilon = (names.map epsilons).sum := by
  rw [productionMarks, count_joined (by decide), List.map_map]
  simp only [Function.comp_def, count_nameMarks]
  rfl

theorem count_rightsMarks (rights : List (List String)) :
    (rightsMarks rights).count .epsilon = (rights.flatten.map epsilons).sum := by
  rw [rightsMarks, count_joined (by decide), List.map_map, List.map_flatten, List.sum_flatten, List.map_map]
  simp only [Function.comp_def, count_productionMarks]

theorem count_entryMarks (e : Entry) : (entryMarks e).count .epsilon = (e.names.map epsilons).sum := by
  unfold entryMarks Entry.names
  split
  · rfl
  · rw [count_joined (by decide), List.map_cons, List.sum_cons, List.map_singleton, List.sum_singleton,
      count_nameMarks, count_rightsMarks, List.map_cons, List.sum_cons]
    rfl

theorem count_tableMarks (l : Listing) :
    (tableMarks l).count .epsilon = ((l.entries.flatMap Entry.names).map epsilons).sum := by
  have hopening : [Mark.opening].count .epsilon = 0 := by decide
  have hclosing : [Mark.closing].count .epsilon = 0 := by decide
  rw [tableMarks, count_intercalate (by decide), List.map_cons, List.map_append, List.map_singleton, List.sum_cons,
    List.sum_append, List.sum_singleton, hopening, hclosing, Nat.zero_add, Nat.add_zero, List.map_map,
    List.map_flatMap, List.flatMap_def, List.sum_flatten, List.map_map]
  simp only [Function.comp_def, count_entryMarks]

/-- A table holds the macro once for each `ε` in the names that it shows. -/
theorem occurrences_table (l : Listing) :
    occurrences "\\epsilon" (table l) = ((l.entries.flatMap Entry.names).map epsilons).sum := by
  have hpart : "\\epsilon".toList = Mark.epsilon.chars := by decide
  rw [occurrences, hpart, toList_table, places_flatMap_chars, count_tableMarks]

end Latex

def Symbol.declared? : Symbol → Option String
  | epsilon => none
  | s => some s.name

namespace Production

def declared (p : Production) : List String :=
  p.filterMap Symbol.declared?

theorem sum_epsilons (p : Production) :
    (p.map fun s => epsilons s.name).sum = p.count .epsilon + (p.declared.map epsilons).sum := by
  induction p with
  | nil => rfl
  | cons s p ih =>
      rw [List.map_cons, List.sum_cons, ih, List.count_cons, declared, declared]
      cases s with
      | epsilon =>
          have hone : epsilons "ε" = 1 := by decide
          simp only [List.filterMap_cons, Symbol.declared?, Symbol.name, hone, beq_self_eq_true, if_true]
          omega
      | terminal a | nonTerminal a =>
          simp only [List.filterMap_cons, Symbol.declared?, Symbol.name, List.map_cons, List.sum_cons]
          simp
          omega

theorem count_epsilon {p : Production} (hp : .epsilon ∈ p → p = [.epsilon]) :
    p.count .epsilon = if p = [.epsilon] then 1 else 0 := by
  by_cases h : .epsilon ∈ p
  · rw [hp h]
    rfl
  · rw [List.count_eq_zero_of_not_mem h, if_neg]
    rintro rfl
    exact h (List.mem_singleton_self _)

theorem sum_count_epsilon {ps : List Production} (hps : ∀ p ∈ ps, .epsilon ∈ p → p = [.epsilon]) :
    (ps.map (·.count .epsilon)).sum = ps.count [.epsilon] := by
  induction ps with
  | nil => rfl
  | cons p ps ih =>
      obtain ⟨hp, hps⟩ := List.forall_mem_cons.1 hps
      rw [List.map_cons, List.sum_cons, ih hps, count_epsilon hp, List.count_cons, Nat.add_comm]
      simp only [beq_iff_eq]

end Production

def Rule.declared (r : Rule) : List String :=
  if r.alternatives = [] then [] else r.left :: r.alternatives.flatMap Production.declared

theorem Rule.sum_epsilons {r : Rule} (hr : ∀ p ∈ r.alternatives, .epsilon ∈ p → p = [.epsilon]) :
    (r.entry.names.map epsilons).sum = r.alternatives.count [.epsilon] + (r.declared.map epsilons).sum := by
  unfold Entry.names declared
  by_cases he : r.alternatives = []
  · simp [entry, he]
  · have hne : r.entry.rights ≠ [] := by simpa [entry] using he
    have hrights : (r.entry.rights.flatten.map epsilons).sum =
        (r.alternatives.map fun p => p.count .epsilon + (p.declared.map epsilons).sum).sum := by
      rw [entry, List.map_flatten, List.sum_flatten, List.map_map, List.map_map]
      simp only [Function.comp_def, List.map_map, ← Production.sum_epsilons]
    rw [if_neg hne, if_neg he, List.map_cons, List.sum_cons, hrights, List.sum_map_add,
      Production.sum_count_epsilon hr, List.map_cons, List.sum_cons, List.map_flatMap, List.flatMap_def,
      List.sum_flatten, List.map_map]
    simp only [Function.comp_def, entry]
    omega

namespace Grammar

variable {g : Grammar}

def allProductions (g : Grammar) : List Production :=
  g.rules.flatMap (·.alternatives)

/-- The declared names that the table of a grammar shows: the left sides that have productions, and the symbols on right
sides, each as often as it is shown. -/
def shownNames (g : Grammar) : List String :=
  g.rules.flatMap Rule.declared

theorem WellFormed.sum_epsilons (hg : g.WellFormed) :
    ((g.listing.entries.flatMap Entry.names).map epsilons).sum =
      g.allProductions.count [.epsilon] + (g.shownNames.map epsilons).sum := by
  have hrules : ((g.rules.map Rule.entry).map fun e => (e.names.map epsilons).sum) =
      g.rules.map fun r => r.alternatives.count [.epsilon] + (r.declared.map epsilons).sum := by
    rw [List.map_map]
    exact List.map_congr_left fun r hr => Rule.sum_epsilons (hg.epsilon_alone r hr)
  have hnames {α : Type} (f : α → List String) (l : List α) :
      ((l.flatMap f).map epsilons).sum = (l.map fun a => ((f a).map epsilons).sum).sum := by
    rw [List.map_flatMap, List.flatMap_def, List.sum_flatten, List.map_map]
    rfl
  rw [hnames, listing, hrules, List.sum_map_add, allProductions, List.count_flatMap, shownNames, hnames]
  rfl

/-- In the table of a grammar the macro stands for each empty production and for each `ε` in a name that is shown. So it
stands for the empty string alone if and only if no such name holds the character. -/
theorem occurrences_epsilon (hg : g.WellFormed) :
    occurrences "\\epsilon" (Latex.table g.listing) =
      g.allProductions.count [.epsilon] + (g.shownNames.map epsilons).sum ∧
    (occurrences "\\epsilon" (Latex.table g.listing) = g.allProductions.count [.epsilon] ↔
      ∀ name ∈ g.shownNames, 'ε' ∉ name.toList) := by
  have hcount := Latex.occurrences_table g.listing
  rw [hg.sum_epsilons] at hcount
  refine ⟨hcount, ?_⟩
  rw [hcount, Nat.add_eq_left, List.sum_eq_zero_iff, List.forall_mem_map]
  simp only [epsilons, List.count_eq_zero]

/-- A grammar with a name that holds the character: in its table the name begins with a macro that does not exist. -/
def greek : Grammar :=
  ⟨"S", ["εA"], [⟨"S", [[.terminal "εA"], [.epsilon]]⟩]⟩

theorem greek_table : greek.WellFormed ∧
    Latex.table greek.listing = "\\[\\begin\x7barray\x7d\x7bcll\x7d\\\\\n" ++
      "S & \\rightarrow &\\epsilonA \\mid \\epsilon\\\\\n\\end\x7barray\x7d\\]" ∧
    greek.allProductions.count [.epsilon] = 1 ∧
    occurrences "\\epsilon" (Latex.table greek.listing) ≠ greek.allProductions.count [.epsilon] :=
  ⟨.of_fault?_eq_none (by decide) (by decide) (by decide) (by decide), by decide +kernel, by decide, by decide +kernel⟩

theorem signed_occurrences : signed.WellFormed ∧ quoting.WellFormed ∧
    signed.allProductions.count [.epsilon] = 1 ∧ occurrences "\\epsilon" (Latex.table signed.listing) = 2 ∧
    occurrences "\\epsilon" (Latex.table quoting.listing) = quoting.allProductions.count [.epsilon] := by
  have hs : signed.WellFormed := .of_fault?_eq_none (by decide) (by decide) (by decide) (by decide)
  refine ⟨hs, quoting_wellFormed, by decide, ?_, (occurrences_epsilon quoting_wellFormed).2.2 (by decide)⟩
  rw [(occurrences_epsilon hs).1]
  decide

end Grammar

end NormalForms
