import NormalForms.Proofs.Table
import NormalForms.Proofs.Updates

namespace NormalForms.Grammar

variable {g : Grammar} {start : String} {lefts : List String} {said : List (String × List String)}

theorem addTerminal_eraseDups (g : Grammar) (seen : List String) (a : String) :
    ({ g with terminals := seen.eraseDups } : Grammar).addTerminal a =
      { g with terminals := (seen ++ [a]).eraseDups } := by
  by_cases ha : a ∈ seen
  · rw [addTerminal, if_pos (List.mem_eraseDups.2 ha), eraseDups_concat_of_mem ha]
  · rw [addTerminal, if_neg (mt List.mem_eraseDups.1 ha), eraseDups_concat_of_not_mem ha]

theorem foldl_addTerminal {seen : List String} (h : g.terminals = seen.eraseDups) (more : List String) :
    more.foldl addTerminal g = { g with terminals := (seen ++ more).eraseDups } := by
  have hrun := foldl_eq_of_step (addTerminal_eraseDups g) seen more
  rwa [← h] at hrun

/-- A right side that is put under one of the left sides comes to what has been said before. -/
theorem table_addWords (hn : lefts.Nodup) {left : String} (hl : left ∈ lefts) {names : List String} (hne : names ≠ []) :
    (table start lefts said).addWords left names = table start lefts (said ++ [(left, names)]) := by
  have hwords : (table start lefts said).addWords left names = ({ table start lefts said with
      terminals := (table start lefts (said ++ [(left, names)])).terminals } : Grammar).addProduction left
        (names.map (symbolOf lefts)) := by
    have hp : names.map (symbolOf lefts) ≠ [] := by simpa using hne
    simp only [addWords, table_nonTerminals, if_neg hp]
    rw [foldl_addTerminal (g := table start lefts said) rfl]
    simp [table]
  generalize hg : ({ table start lefts said with
    terminals := (table start lefts (said ++ [(left, names)])).terminals } : Grammar) = g at hwords
  have hnames : g.nonTerminals = lefts := by
    rw [← hg]
    exact @table_nonTerminals start lefts said
  have hproductions : ∀ a ∈ lefts, g.productions a =
      ((said.filter (·.1 = a)).map fun x => x.2.map (symbolOf lefts)).eraseDups := by
    intro a ha
    rw [← hg]
    exact @table_productions start lefts said a hn ha
  have hleft : left ∈ g.nonTerminals := hnames ▸ hl
  rw [hwords]
  apply eq_of_productions
  · rwa [addProduction_nonTerminals hleft, hnames]
  · rw [addProduction_start, ← hg]
    rfl
  · rw [addProduction_terminals, ← hg]
  · rw [addProduction_nonTerminals hleft, hnames, table_nonTerminals]
  · intro a ha
    rw [addProduction_nonTerminals hleft, hnames] at ha
    rw [table_productions hn ha, List.filter_append, List.map_append]
    by_cases he : a = left
    · subst he
      have hlast : ([(a, names)].filter (·.1 = a)).map (fun x => x.2.map (symbolOf lefts)) =
          [names.map (symbolOf lefts)] := by simp
      rw [hlast]
      by_cases hp : names.map (symbolOf lefts) ∈ g.productions a
      · rw [addProduction_of_mem hleft hp, hproductions a ha, eraseDups_concat_of_mem]
        rwa [hproductions a ha, List.mem_eraseDups] at hp
      · rw [addProduction_productions_self hleft hp, hproductions a ha, eraseDups_concat_of_not_mem]
        rwa [hproductions a ha, List.mem_eraseDups] at hp
    · have hlast : [(left, names)].filter (·.1 = a) = [] := by simpa using fun h : left = a => he h.symm
      rw [addProduction_productions_of_ne he, hproductions a ha, hlast, List.map_nil, List.append_nil]

/-- The run through all that the lines say. -/
theorem foldl_addWords (hn : lefts.Nodup) {more : List (String × List String)} (hl : ∀ x ∈ more, x.1 ∈ lefts) :
    more.foldl (fun g x => g.addWords x.1 x.2) (table start lefts said) =
      table start lefts (said ++ more.filter (·.2 ≠ [])) := by
  induction more generalizing said with
  | nil => simp
  | cons x more ih =>
      obtain ⟨hx, hmore⟩ := List.forall_mem_cons.1 hl
      by_cases hne : x.2 = []
      · have hstep : (table start lefts said).addWords x.1 x.2 = table start lefts said := by
          rw [hne, addWords]
          exact if_pos rfl
        rw [List.foldl_cons, hstep, ih hmore, List.filter_cons_of_neg (by simpa using hne)]
      · rw [List.foldl_cons, table_addWords hn hx hne, ih hmore, List.filter_cons_of_pos (by simpa using hne),
          List.append_assoc, List.singleton_append]

theorem addNonTerminal_table (start : String) (seen : List String) (a : String) :
    (table start seen.eraseDups []).addNonTerminal a = table start (seen ++ [a]).eraseDups [] := by
  by_cases ha : a ∈ seen
  · rw [addNonTerminal, if_pos (by simpa using ha), eraseDups_concat_of_mem ha]
  · rw [addNonTerminal, if_neg (by simpa using ha), eraseDups_concat_of_not_mem ha]
    simp [table]

theorem foldl_addNonTerminal (start : String) (seen names : List String) :
    names.foldl addNonTerminal (table start seen.eraseDups []) = table start (seen ++ names).eraseDups [] :=
  foldl_eq_of_step (addNonTerminal_table start) seen names

/-- Going through the lines twice, with a table that grows, ends with the same grammar. -/
theorem collect_eq (start : String) (written : List (String × List Char)) :
    collect start written = ofAlternatives start (written.map fun x => (x.1, splitAlternatives x.2)) := by
  let pieces : List (String × List String) := written.flatMap fun x => (x.2.splitOn '|').map fun cs => (x.1, words cs)
  let lefts : List String := (written.map (·.1)).eraseDups
  have hopened : written.foldl (fun g x => g.addNonTerminal x.1) (⟨start, [], []⟩ : Grammar) = table start lefts [] := by
    have h := foldl_addNonTerminal start [] (written.map (·.1))
    rwa [List.foldl_map] at h
  have hpieces : pieces.filter (·.2 ≠ []) = saying written := by
    simp only [pieces, saying, splitAlternatives, List.filter_flatMap, List.filter_map, List.map_map]
    rfl
  have hlefts : ∀ x ∈ pieces, x.1 ∈ lefts := by
    intro x hx
    obtain ⟨y, hy, hx⟩ := List.mem_flatMap.1 hx
    obtain ⟨cs, -, rfl⟩ := List.mem_map.1 hx
    exact List.mem_eraseDups.2 (List.mem_map_of_mem hy)
  have hrun : collect start written = pieces.foldl (fun g x => g.addWords x.1 x.2) (table start lefts []) := by
    simp only [collect, hopened, pieces, List.foldl_flatMap, List.foldl_map]
  rw [hrun, foldl_addWords (nodup_eraseDups _) hlefts, List.nil_append, hpieces, ofAlternatives_eq_table]

end NormalForms.Grammar
