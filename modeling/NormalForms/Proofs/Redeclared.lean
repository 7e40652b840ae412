import NormalForms.Proofs.Plaintext

namespace NormalForms

def Production.text (p : Production) : String :=
  " ".intercalate (p.map Symbol.name)

theorem words_text {p : Production} (h : ∀ s ∈ p, IsWord s.name) :
    words p.text.toList = p.map Symbol.name := by
  have hnames : ∀ name ∈ p.map Symbol.name, IsWord name := by simpa using h
  cases p with
  | nil => rfl
  | cons s p =>
      rw [← words_cons_blank isBlank_space, Production.text, ← shown_eq (by simp)]
      exact words_append_names [] hnames

namespace Grammar

variable {g : Grammar}

def bare (g : Grammar) : Grammar :=
  { g with rules := g.nonTerminals.map (⟨·, []⟩) }

@[simp] theorem bare_nonTerminals : g.bare.nonTerminals = g.nonTerminals := by
  rw [nonTerminals, bare, List.map_map]
  exact List.map_id _

theorem bare_productions (name : String) : g.bare.productions name = [] := by
  rw [List.eq_nil_iff_forall_not_mem]
  intro p hp
  obtain ⟨r, hr, -, hp⟩ := exists_of_mem_productions hp
  obtain ⟨left, -, rfl⟩ := List.mem_map.1 hr
  exact List.not_mem_nil hp

theorem WellFormed.bare (hg : g.WellFormed) : g.bare.WellFormed := by
  apply hg.of_sublist (h := g.bare) rfl
  · rw [bare_nonTerminals]
  · rw [bare_nonTerminals]
    exact hg.start_mem
  · simp [bare_productions]
  · intro r hr
    obtain ⟨left, -, rfl⟩ := List.mem_map.1 hr
    exact List.nodup_nil

theorem bare_admits {p : Production} : g.bare.Admits p ↔ g.Admits p := by
  constructor
  · exact fun h => h.mono (fun _ ht => ht) fun a _ hn => by rwa [bare_nonTerminals] at hn
  · exact fun h => h.mono (fun _ ht => ht) fun a _ hn => by rwa [bare_nonTerminals]

theorem WellFormed.symbolNamed?_name (hg : g.WellFormed) {s : Symbol} (hs : g.declares s = true) :
    g.symbolNamed? s.name = some s := by
  cases s with
  | epsilon => rfl
  | terminal a =>
      have ht : a ∈ g.terminals := by simpa [declares] using hs
      have he : a ∉ epsilonNames := (isDeclarable_iff.1 (hg.isDeclarable_of_declares hs (by simp))).2
      simp [symbolNamed?, Symbol.name, he, ht]
  | nonTerminal a =>
      have hn : a ∈ g.nonTerminals := by simpa [declares] using hs
      have he : a ∉ epsilonNames := (isDeclarable_iff.1 (hg.isDeclarable_of_declares hs (by simp))).2
      have ht : a ∉ g.terminals := fun ht => hg.disjoint a ht hn
      simp [symbolNamed?, Symbol.name, he, ht, hn]

/-- A declared name is a symbol as a whole, even where each of its characters is a symbol as well. -/
theorem WellFormed.readWord_name (hg : g.WellFormed) {s : Symbol} (hs : g.declares s = true) :
    g.readWord s.name = .ok [s] := by
  rw [readWord, hg.symbolNamed?_name hs]

theorem WellFormed.readProduction_text (hg : g.WellFormed) {p : Production} (hp : g.Admits p)
    (hb : ∀ s ∈ p, BlankFree s.name.toList) : g.readProduction p.text = .ok p := by
  have hd : ∀ s ∈ p, g.declares s = true := forall_declares_iff.2 ⟨hp.terminal_mem, hp.nonTerminal_mem⟩
  have hwords : words p.text.toList = p.map Symbol.name :=
    words_text fun s hs => ⟨hg.name_ne_empty (hd s hs), hb s hs⟩
  have hread : (p.map Symbol.name).mapM g.readWord = .ok (p.map fun s => [s]) := by
    rw [mapM_eq_ok, List.forall₂_map_left_iff, List.forall₂_map_right_iff, List.forall₂_same]
    exact fun s hs => hg.readWord_name (hd s hs)
  have hflatten : (p.map fun s => [s]).flatten = p := by
    rw [← List.flatMap_def, List.flatMap_singleton']
  have hin : ¬ (p.length > 1 ∧ Symbol.epsilon ∈ p) := (epsilon_alone_iff hp.ne_nil).1 hp.epsilon_alone
  rw [readProduction, hwords, hread]
  change (if (p.map fun s => [s]).flatten = [] then _ else _) = _
  rw [hflatten, if_neg hp.ne_nil]
  exact if_neg hin

theorem WellFormed.readRule_texts (hg : g.WellFormed) {r : Rule} (hr : r ∈ g.rules)
    (hb : ∀ p ∈ r.alternatives, ∀ s ∈ p, BlankFree s.name.toList) :
    g.bare.readRule r.left (r.alternatives.map Production.text) = .ok r := by
  have hleft : r.left ∈ g.bare.nonTerminals := by
    rw [bare_nonTerminals]
    exact left_mem_nonTerminals hr
  have hread : (r.alternatives.map Production.text).mapM g.bare.readProduction = .ok r.alternatives := by
    rw [mapM_eq_ok, List.forall₂_map_left_iff, List.forall₂_same]
    intro p hp
    have hadm := hg.admits (mem_productions_left hg.nonTerminals_nodup hr hp)
    exact hg.bare.readProduction_text (bare_admits.2 hadm) (hb p hp)
  rw [readRule, if_neg (not_not.2 hleft), hread]
  rfl

/-- A grammar is declared once more from its own parts: each production can be written with spaces between the names of
its symbols, whatever names there are. -/
theorem declare_parts (hg : g.WellFormed)
    (hb : ∀ r ∈ g.rules, ∀ p ∈ r.alternatives, ∀ s ∈ p, BlankFree s.name.toList) :
    declare g.nonTerminals g.terminals (g.rules.map fun r => (r.left, r.alternatives.map Production.text))
      (some g.start) = .ok g ∧
    ∀ p, g.Admits p → (∀ s ∈ p, BlankFree s.name.toList) → g.readProduction p.text = .ok p := by
  refine ⟨?_, fun p hp hs => hg.readProduction_text hp hs⟩
  have hread : (g.rules.map fun r => (r.left, r.alternatives.map Production.text)).mapM
      (fun x => g.bare.readRule x.1 x.2) = .ok g.rules := by
    rw [mapM_eq_ok, List.forall₂_map_left_iff, List.forall₂_same]
    exact fun r hr => hg.readRule_texts hr (hb r hr)
  have hmerged : mergeRules g.nonTerminals g.rules = g.rules := by
    have h : mergeRules g.nonTerminals (g.rules.flatMap fun r => [r]) = g.rules :=
      mergeRules_flatMap hg.nonTerminals_nodup (by simp) (by simp) hg.alternatives_nodup
    rwa [List.flatMap_singleton'] at h
  have halphabets : (⟨g.start, g.terminals.eraseDups, g.nonTerminals.eraseDups.map (⟨·, []⟩)⟩ : Grammar) = g.bare := by
    rw [eraseDups_eq_self hg.terminals_nodup, eraseDups_eq_self hg.nonTerminals_nodup]
    rfl
  have hfault : g.bare.alphabetFault? = none := alphabetFault?_eq_none.2 (fault?_eq_none.1 hg.bare.faultless).1
  simp only [declare, Option.some_or, halphabets, hfault]
  rw [hread]
  change Except.ok (⟨g.start, g.terminals.eraseDups, mergeRules g.nonTerminals.eraseDups g.rules⟩ : Grammar) = .ok g
  rw [eraseDups_eq_self hg.terminals_nodup, eraseDups_eq_self hg.nonTerminals_nodup, hmerged]

/-- A grammar with names that are other names one after the other, and with the names that shaping adds to them. -/
def compound : Grammar :=
  ⟨"S", ["a", "Aa", "->"],
    [⟨"S", [[.nonTerminal "A", .terminal "a", .terminal "Aa"], [.nonTerminal "SA", .terminal "->"], [.epsilon]]⟩,
      ⟨"A", [[.terminal "a"]]⟩, ⟨"SA", [[.nonTerminal "S", .nonTerminal "A"]]⟩]⟩

theorem compound_built : compound.shape.Built := by
  have h : declare ["S", "A", "SA"] ["a", "Aa", "->"] [("S", ["A a Aa", "SA ->", "ε"]), ("A", ["a"]), ("SA", ["S A"])]
      none = .ok compound := by rfl
  exact .shape (.declare h)

theorem compound_declare_parts : compound.shape.WellFormed ∧
    compound.shape.nonTerminals = ["S", "A", "SA", "T_a", "T_Aa", "S_1", "T_->"] ∧
    declare compound.shape.nonTerminals compound.shape.terminals
      (compound.shape.rules.map fun r => (r.left, r.alternatives.map Production.text)) (some "S") = .ok compound.shape ∧
    Production.text [.nonTerminal "S", .nonTerminal "A", .nonTerminal "SA", .terminal "Aa"] = "S A SA Aa" ∧
    compound.shape.readProduction "S A SA Aa" =
      .ok [.nonTerminal "S", .nonTerminal "A", .nonTerminal "SA", .terminal "Aa"] := by
  have hg := compound_built.wellFormed
  have hb : ∀ r ∈ compound.shape.rules, ∀ p ∈ r.alternatives, ∀ s ∈ p, BlankFree s.name.toList := by
    decide +kernel
  obtain ⟨hdeclare, hread⟩ := declare_parts hg hb
  have hp : compound.shape.Admits [.nonTerminal "S", .nonTerminal "A", .nonTerminal "SA", .terminal "Aa"] :=
    (productionFault?_eq_none "S").1 (by decide +kernel)
  have htext : Production.text [.nonTerminal "S", .nonTerminal "A", .nonTerminal "SA", .terminal "Aa"] = "S A SA Aa" := by
    decide
  have hproduction := hread _ hp (by decide)
  rw [htext] at hproduction
  exact ⟨hg, by decide +kernel, hdeclare, htext, hproduction⟩

end Grammar

end NormalForms
