import NormalForms.Grammar.Declared
import NormalForms.Grammar.Lines
import NormalForms.Proofs.ChomskyForm
import NormalForms.Proofs.Description
import NormalForms.Proofs.Determinize
import NormalForms.Proofs.RightLinear
import NormalForms.Proofs.StateGrammar

namespace NormalForms

mutual

/-- The grammars that can be obtained: declared, read or taken from an automaton, and then brought through any of the
transformations in any order. -/
inductive Grammar.Built : Grammar → Prop
  | declare {nonTerminals terminals : List String} {rules : List (String × List String)} {start? : Option String}
      {g : Grammar} : Grammar.declare nonTerminals terminals rules start? = .ok g → Grammar.Built g
  | read {text : String} {g : Grammar} : Grammar.read text = .ok g → Grammar.Built g
  | ofAutomaton {fa : Automaton} {g : Grammar} : Automaton.Built fa → fa.toGrammar = .ok g → Grammar.Built g
  | eliminateEpsilon {g : Grammar} : Grammar.Built g → Grammar.Built g.eliminateEpsilon
  | eliminateRenaming {g : Grammar} : Grammar.Built g → Grammar.Built g.eliminateRenaming
  | eliminateInaccessible {g : Grammar} : Grammar.Built g → Grammar.Built g.eliminateInaccessible
  | eliminateNonProductive {g : Grammar} : Grammar.Built g → Grammar.Built g.eliminateNonProductive
  | shape {g : Grammar} : Grammar.Built g → Grammar.Built g.shape
  | toChomsky {g : Grammar} : Grammar.Built g → Grammar.Built g.toChomsky

/-- The automata that can be obtained: described, made deterministic or taken from a grammar. -/
inductive Automaton.Built : Automaton → Prop
  | ofDescription {d : Description} {fa : Automaton} : Automaton.ofDescription d = .ok fa → Automaton.Built fa
  | determinize {fa : Automaton} : Automaton.Built fa → Automaton.Built fa.determinize
  | ofGrammar {g : Grammar} {fa : Automaton} : Grammar.Built g → g.toAutomaton = .ok fa → Automaton.Built fa

end

namespace Grammar

variable {g : Grammar}

theorem symbolNamed?_declared {name : String} {s : Symbol} (h : g.symbolNamed? name = some s) :
    g.declares s = true := by
  unfold symbolNamed? at h
  split at h
  · cases h
    rfl
  · split at h
    · rename_i ht
      cases h
      simpa [declares] using ht
    · split at h
      · rename_i hn
        cases h
        simpa [declares] using hn
      · cases h

theorem readWord_declared {word : String} {p : Production} (h : g.readWord word = .ok p) :
    ∀ s ∈ p, g.declares s = true := by
  intro s hs
  unfold readWord at h
  split at h
  · rename_i t ht
    cases h
    rw [List.mem_singleton.1 hs]
    exact symbolNamed?_declared ht
  · obtain ⟨c, -, hc⟩ := exists_of_mem_mapM h hs
    split at hc
    · rename_i t ht
      cases hc
      exact symbolNamed?_declared ht
    · cases hc

theorem readProduction_eq_ok {text : String} {p : Production} (h : g.readProduction text = .ok p) :
    p ≠ [] ∧ ¬ (p.length > 1 ∧ .epsilon ∈ p) ∧ ∀ s ∈ p, g.declares s = true := by
  obtain ⟨q, hq, h⟩ := bind_eq_ok.1 h
  dsimp only at h
  split at h
  · cases h
  · rename_i hne
    split at h
    · cases h
    · rename_i hin
      cases h
      refine ⟨hne, hin, fun s hs => ?_⟩
      obtain ⟨r, hr, hs⟩ := List.mem_flatten.1 hs
      obtain ⟨word, -, hw⟩ := exists_of_mem_mapM hq hr
      exact readWord_declared hw s hs

theorem readProduction_admits {text : String} {p : Production} (h : g.readProduction text = .ok p) : g.Admits p := by
  obtain ⟨hne, hin, hd⟩ := readProduction_eq_ok h
  rw [← productionFault?_eq_none ""]
  rw [productionFault?, if_neg hne, if_neg hin, Option.map_eq_none_iff, List.find?_eq_none]
  simpa using hd

theorem readRule_eq_ok {left : String} {texts : List String} {r : Rule} (h : g.readRule left texts = .ok r) :
    ∀ p ∈ r.alternatives, g.Admits p := by
  unfold readRule at h
  split at h
  · cases h
  · obtain ⟨read, hr, h⟩ := bind_eq_ok.1 h
    cases h
    intro p hp
    obtain ⟨text, -, ht⟩ := exists_of_mem_mapM hr hp
    exact readProduction_admits ht

theorem declare_wellFormed {nonTerminals terminals : List String} {rules : List (String × List String)}
    {start? : Option String} (h : declare nonTerminals terminals rules start? = .ok g) : g.WellFormed := by
  unfold declare at h
  split at h
  · dsimp only at h
    split at h
    · cases h
    · rename_i start _ _ hf
      obtain ⟨read, hr, h⟩ := bind_eq_ok.1 h
      cases h
      generalize halph : (⟨start, terminals.eraseDups, nonTerminals.eraseDups.map (⟨·, []⟩)⟩ : Grammar) = alphabets
        at hf hr
      have hn : alphabets.nonTerminals = nonTerminals.eraseDups := by
        rw [← halph, Grammar.nonTerminals, List.map_map]
        exact List.map_id _
      have hnone : alphabets.alphabetFault? = none := Option.eq_none_iff_forall_ne_some.2 hf
      have hread : ∀ r ∈ read, ∀ p ∈ r.alternatives, alphabets.Admits p := by
        intro r hm p hp
        obtain ⟨x, -, hx⟩ := exists_of_mem_mapM hr hm
        exact readRule_eq_ok hx p hp
      have hw := (alphabetFault?_eq_none.1 hnone).wellFormed_mergeRules
        (by rw [← halph]; exact nodup_eraseDups _) (by rw [hn]; exact nodup_eraseDups _) read hread
      rw [hn, ← halph] at hw
      exact hw
  · cases h

theorem read_wellFormed {text : String} (h : Grammar.read text = .ok g) : g.WellFormed := by
  unfold Grammar.read at h
  obtain ⟨written, -, h⟩ := bind_eq_ok.1 h
  split at h
  · cases h
  · obtain ⟨hf, rfl⟩ := checked_eq_ok.1 h
    refine .of_fault?_eq_none hf (nodup_eraseDups _) ?_ fun r hr => nodup_of_mem_mergeRules hr
    rw [Grammar.nonTerminals, ofAlternatives, map_left_mergeRules]
    exact nodup_eraseDups _

theorem WellFormed.toChomsky (hg : g.WellFormed) : g.toChomsky.WellFormed :=
  hg.eliminateEpsilon.eliminateRenaming.eliminateInaccessible.eliminateNonProductive.eliminateInaccessible.shape

theorem Built.wellFormed : ∀ {g : Grammar}, g.Built → g.WellFormed
  | _, .declare h => declare_wellFormed h
  | _, .read h => read_wellFormed h
  | _, .ofAutomaton _ h => toGrammar_wellFormed h
  | _, .eliminateEpsilon h => h.wellFormed.eliminateEpsilon
  | _, .eliminateRenaming h => h.wellFormed.eliminateRenaming
  | _, .eliminateInaccessible h => h.wellFormed.eliminateInaccessible
  | _, .eliminateNonProductive h => h.wellFormed.eliminateNonProductive
  | _, .shape h => h.wellFormed.shape
  | _, .toChomsky h => h.wellFormed.toChomsky

/-- However a grammar is obtained, it is well-formed, and the checks of its alphabets and of its productions find no
fault. -/
theorem built_faultless (h : g.Built) : g.WellFormed ∧ g.alphabetFault? = none ∧
    ∀ r ∈ g.rules, ∀ p ∈ r.alternatives, g.productionFault? r.left p = none := by
  have hg := h.wellFormed
  obtain ⟨ha, hp⟩ := fault?_eq_none.1 hg.faultless
  refine ⟨hg, alphabetFault?_eq_none.2 ha, fun r hr p hm => ?_⟩
  exact (productionFault?_eq_none r.left).2 (hp r hr p hm)

/-- A grammar in which the first names that are tried for new symbols are taken by terminals. -/
def clashing : Grammar :=
  ⟨"S", ["a", "S'", "T_a"], [⟨"S", [[.terminal "a", .nonTerminal "S", .terminal "S'", .terminal "T_a"], [.epsilon]]⟩]⟩

theorem clashing_faultless : clashing.shape.eliminateEpsilon.toChomsky.Built ∧
    clashing.shape.nonTerminals = ["S", "T_a'", "T_S'", "T_T_a", "S_1", "S_2"] ∧
    clashing.shape.eliminateEpsilon.start = "S''" ∧ clashing.shape.eliminateEpsilon.toChomsky.WellFormed := by
  have h : declare ["S"] ["a", "S'", "T_a"] [("S", ["a S S' T_a", "ε"])] none = .ok clashing := by rfl
  have hb : clashing.shape.eliminateEpsilon.toChomsky.Built := .toChomsky (.eliminateEpsilon (.shape (.declare h)))
  exact ⟨hb, by decide +kernel, by decide +kernel, (built_faultless hb).1⟩

end Grammar

theorem Automaton.Built.valid : ∀ {fa : Automaton}, fa.Built → fa.Valid
  | _, .ofDescription h => ofDescription_valid h
  | _, .determinize h => h.valid.determinize
  | _, .ofGrammar h hfa => h.wellFormed.toAutomaton_valid hfa

end NormalForms
