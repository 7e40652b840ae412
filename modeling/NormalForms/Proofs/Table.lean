import NormalForms.Proofs.Reading

namespace NormalForms.Grammar

def saying (written : List (String × List Char)) : List (String × List String) :=
  written.flatMap fun x => (splitAlternatives x.2).map (x.1, ·)

/-- The grammar with the given non-terminals in which each right side has been put under its left side, if it was not
there before. -/
def table (start : String) (lefts : List String) (said : List (String × List String)) : Grammar where
  start
  terminals := (said.flatMap fun x => Production.terminals (x.2.map (symbolOf lefts))).eraseDups
  rules := lefts.map fun left =>
    ⟨left, ((said.filter (·.1 = left)).map fun x => x.2.map (symbolOf lefts)).eraseDups⟩

variable {start : String} {lefts : List String} {said : List (String × List String)}

@[simp] theorem table_nonTerminals : (table start lefts said).nonTerminals = lefts := by
  rw [nonTerminals, table, List.map_map]
  exact List.map_id _

theorem table_productions {left : String} (hn : lefts.Nodup) (hl : left ∈ lefts) :
    (table start lefts said).productions left =
      ((said.filter (·.1 = left)).map fun x => x.2.map (symbolOf lefts)).eraseDups :=
  productions_left (g := table start lefts said) (by rwa [table_nonTerminals]) (List.mem_map_of_mem hl)

theorem filter_fst_flatMap {α β : Type} (key : α → String) (parts : α → List β) (l : List α) (left : String) :
    (l.flatMap fun x => (parts x).map (key x, ·)).filter (·.1 = left) =
      ((l.filter (key · = left)).flatMap parts).map (left, ·) := by
  induction l with
  | nil => rfl
  | cons x l ih =>
      rw [List.flatMap_cons, List.filter_append, ih, List.filter_cons]
      by_cases h : key x = left <;> simp [List.filter_map, Function.comp_def, h]

theorem ofAlternatives_terminals (f : List String → Production) (written : List (String × List (List String))) :
    (written.map fun x => (⟨x.1, x.2.map f⟩ : Rule)).flatMap (fun r => r.alternatives.flatMap Production.terminals) =
      (written.flatMap fun x => x.2.map (x.1, ·)).flatMap fun x => Production.terminals (f x.2) := by
  simp [List.flatMap_map, List.flatMap_assoc]

/-- The lines come together in the table of what they say. -/
theorem ofAlternatives_eq_table (start : String) (written : List (String × List Char)) :
    ofAlternatives start (written.map fun x => (x.1, splitAlternatives x.2)) =
      table start (written.map (·.1)).eraseDups (saying written) := by
  have hlefts : leftsOf (written.map fun x => (x.1, splitAlternatives x.2)) = (written.map (·.1)).eraseDups := by
    rw [leftsOf, List.map_map]
    rfl
  have hsaying : (written.map fun x => (x.1, splitAlternatives x.2)).flatMap (fun x => x.2.map (x.1, ·)) =
      saying written := by
    rw [saying, List.flatMap_map]
  rw [ofAlternatives_eq, rulesOf, ofAlternatives_terminals, mergeRules, hlefts, hsaying, table]
  congr 1
  refine List.map_congr_left fun left _ => ?_
  rw [saying, filter_fst_flatMap]
  simp only [List.filter_map, List.flatMap_map, List.map_map, List.map_flatMap, Function.comp_def]

theorem ReadsTo.read_eq {text : String} {x : String × List Char} {written : List (String × List Char)}
    (h : ReadsTo none (NormalForms.lines text.toList) (x :: written)) :
    read text = (table x.1 ((x :: written).map (·.1)).eraseDups (saying (x :: written))).checked := by
  rw [read_eq_checked (h 1), ofAlternatives_eq_table]

def Mixed (names : List String) : Prop :=
  1 < names.length ∧ ∃ name ∈ names, name ∈ epsilonNames

instance (names : List String) : Decidable (Mixed names) :=
  inferInstanceAs (Decidable (_ ∧ _))

theorem symbolOf_eq_epsilon {name : String} : symbolOf lefts name = .epsilon ↔ name ∈ epsilonNames := by
  unfold symbolOf
  split
  · simp_all
  · split <;> simp_all

theorem mem_map_symbolOf_epsilon {names : List String} :
    .epsilon ∈ names.map (symbolOf lefts) ↔ ∃ name ∈ names, name ∈ epsilonNames := by
  simp only [List.mem_map, symbolOf_eq_epsilon]

/-- The words that become terminals are those that are neither left sides nor spellings of the empty string. -/
theorem terminals_map_symbolOf (names : List String) :
    Production.terminals (names.map (symbolOf lefts)) = names.filter fun name => name ∉ lefts ∧ name ∉ epsilonNames := by
  induction names with
  | nil => rfl
  | cons name names ih =>
      have hname : (symbolOf lefts name).terminal? = if name ∉ lefts ∧ name ∉ epsilonNames then some name else none := by
        by_cases he : name ∈ epsilonNames
        · simp [symbolOf, he, Symbol.terminal?]
        · by_cases hl : name ∈ lefts <;> simp [symbolOf, he, hl, Symbol.terminal?]
      rw [Production.terminals] at ih ⊢
      rw [List.map_cons, List.filterMap_cons, hname, List.filter_cons, ih]
      by_cases h : name ∉ lefts ∧ name ∉ epsilonNames <;> simp [h]

theorem table_terminals : (table start lefts said).terminals =
    (said.flatMap fun x => x.2.filter fun name => name ∉ lefts ∧ name ∉ epsilonNames).eraseDups := by
  simp only [table, terminals_map_symbolOf]

theorem mem_table_terminals {name : String} : name ∈ (table start lefts said).terminals ↔
    ∃ x ∈ said, name ∈ x.2 ∧ name ∉ lefts ∧ name ∉ epsilonNames := by
  simp [table_terminals]

theorem findSome?_ite {α β : Type} (p : α → Prop) [DecidablePred p] (f : α → β) (l : List α) :
    l.findSome? (fun a => if p a then some (f a) else none) = (l.find? fun a => p a).map f := by
  induction l with
  | nil => rfl
  | cons a l ih => by_cases h : p a <;> simp [h, ih]

structure Sayable (start : String) (lefts : List String) (said : List (String × List String)) : Prop where
  start_mem : start ∈ lefts
  left : ∀ name ∈ lefts, isDeclarable name = true
  right : ∀ x ∈ said, x.2 ≠ [] ∧ ∀ name ∈ x.2, name ≠ ""

theorem Sayable.alphabetFault?_table (h : Sayable start lefts said) :
    (table start lefts said).alphabetFault? = none := by
  rw [alphabetFault?_eq_none]
  refine ⟨by rw [table_nonTerminals]; exact h.start_mem, fun name hn => ?_, fun name ht => ?_⟩
  · rcases List.mem_append.1 hn with ht | hl
    · obtain ⟨x, hx, hn, -, he⟩ := mem_table_terminals.1 ht
      exact isDeclarable_iff.2 ⟨(h.right x hx).2 name hn, he⟩
    · exact h.left name (by simpa using hl)
  · obtain ⟨x, -, -, hl, -⟩ := mem_table_terminals.1 ht
    simpa using hl

/-- The right sides in the table can only have an empty string in the wrong place. -/
theorem Sayable.productionFault?_table (h : Sayable start lefts said) {x : String × List String} (hx : x ∈ said)
    (left : String) : (table start lefts said).productionFault? left (x.2.map (symbolOf lefts)) =
      if Mixed x.2 then some (.grammar .epsilonInside left) else none := by
  have hne : x.2.map (symbolOf lefts) ≠ [] := by simpa using (h.right x hx).1
  have hdeclared : ∀ s ∈ x.2.map (symbolOf lefts), (table start lefts said).declares s = true := by
    intro s hs
    obtain ⟨name, hn, rfl⟩ := List.mem_map.1 hs
    by_cases he : name ∈ epsilonNames
    · simp [symbolOf, he, declares]
    · by_cases hl : name ∈ lefts
      · simp [symbolOf, he, hl, declares]
      · have ht : name ∈ (table start lefts said).terminals := mem_table_terminals.2 ⟨x, hx, hn, hl, he⟩
        simp [symbolOf, he, hl, declares, ht]
  have hfind : (x.2.map (symbolOf lefts)).find? (!(table start lefts said).declares ·) = none :=
    List.find?_eq_none.2 fun s hs => by simp [hdeclared s hs]
  have hmixed : (x.2.map (symbolOf lefts)).length > 1 ∧ .epsilon ∈ x.2.map (symbolOf lefts) ↔ Mixed x.2 := by
    rw [List.length_map, mem_map_symbolOf_epsilon, Mixed]
  rw [productionFault?, if_neg hne, hfind, Option.map_none]
  exact if_congr hmixed rfl rfl

theorem Sayable.ruleFault?_table (h : Sayable start lefts said) (left : String) :
    ((said.filter (·.1 = left)).map fun x => x.2.map (symbolOf lefts)).eraseDups.findSome?
        ((table start lefts said).productionFault? left) =
      if ∃ x ∈ said, x.1 = left ∧ Mixed x.2 then some (.grammar .epsilonInside left) else none := by
  have hmem (p : Production) : p ∈ ((said.filter (·.1 = left)).map fun x => x.2.map (symbolOf lefts)).eraseDups ↔
      ∃ x ∈ said, x.1 = left ∧ x.2.map (symbolOf lefts) = p := by
    simp [and_assoc]
  cases hf : ((said.filter (·.1 = left)).map fun x => x.2.map (symbolOf lefts)).eraseDups.findSome?
      ((table start lefts said).productionFault? left) with
  | none =>
      refine (if_neg ?_).symm
      rintro ⟨x, hx, hl, hm⟩
      have hnone := List.findSome?_eq_none_iff.1 hf _ ((hmem _).2 ⟨x, hx, hl, rfl⟩)
      rw [h.productionFault?_table hx, if_pos hm] at hnone
      cases hnone
  | some e =>
      obtain ⟨p, hp, he⟩ := List.exists_of_findSome?_eq_some hf
      obtain ⟨x, hx, hl, rfl⟩ := (hmem p).1 hp
      rw [h.productionFault?_table hx] at he
      split at he
      · rename_i hm
        rw [if_pos ⟨x, hx, hl, hm⟩, he]
      · cases he

/-- The only fault that the table can have, and the left side it is found at. -/
theorem Sayable.fault?_table (h : Sayable start lefts said) :
    (table start lefts said).fault? =
      (lefts.find? fun left => ∃ x ∈ said, x.1 = left ∧ Mixed x.2).map (.grammar .epsilonInside ·) := by
  have hrules : (table start lefts said).rules = lefts.map fun left =>
      ⟨left, ((said.filter (·.1 = left)).map fun x => x.2.map (symbolOf lefts)).eraseDups⟩ := rfl
  rw [fault?, h.alphabetFault?_table, Option.none_or, hrules, List.findSome?_map]
  simp only [Function.comp_def, h.ruleFault?_table]
  exact findSome?_ite _ _ _

end NormalForms.Grammar
