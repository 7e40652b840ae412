import NormalForms.Proofs.Built
import NormalForms.Proofs.Lines

namespace NormalForms

theorem eraseDups_flatMap_left {β : Type} {rules : List Rule} (hn : (rules.map (·.left)).Nodup) {parts : Rule → List β}
    (hne : ∀ r ∈ rules, parts r ≠ []) :
    (rules.flatMap fun r => (parts r).map fun _ => r.left).eraseDups = rules.map (·.left) := by
  induction rules with
  | nil => rfl
  | cons r rules ih =>
      obtain ⟨hr, hrules⟩ := List.nodup_cons.1 hn
      obtain ⟨hfirst, hmore⟩ := List.forall_mem_cons.1 hne
      obtain ⟨part, more, hparts⟩ := List.exists_cons_of_ne_nil hfirst
      have hsame : (more.map fun _ => r.left).filter (!· == r.left) = [] := by simp
      have hother : (rules.flatMap fun s => (parts s).map fun _ => s.left).filter (!· == r.left) =
          rules.flatMap fun s => (parts s).map fun _ => s.left := by
        rw [List.filter_eq_self]
        intro left hl
        obtain ⟨s, hs, hl⟩ := List.mem_flatMap.1 hl
        obtain ⟨-, -, rfl⟩ := List.mem_map.1 hl
        simpa using fun he : s.left = r.left => hr (List.mem_map.2 ⟨s, hs, he⟩)
      rw [List.flatMap_cons, hparts, List.map_cons, List.cons_append, List.eraseDups_cons, List.filter_append, hsame,
        hother, List.nil_append, ih hrules hmore, List.map_cons]

theorem filter_left_flatMap {rules : List Rule} {pieces : Rule → List Rule} (hn : (rules.map (·.left)).Nodup)
    (hleft : ∀ r ∈ rules, ∀ s ∈ pieces r, s.left = r.left) {r : Rule} (hr : r ∈ rules) :
    (rules.flatMap pieces).filter (·.left = r.left) = pieces r := by
  have hself : (pieces r).filter (·.left = r.left) = pieces r := by
    rw [List.filter_eq_self]
    intro s hs
    simpa using hleft r hr s hs
  have hother (part : List Rule) (hpart : ∀ s ∈ part, s ∈ rules ∧ s.left ≠ r.left) :
      (part.flatMap pieces).filter (·.left = r.left) = [] := by
    rw [List.filter_eq_nil_iff]
    intro t ht
    obtain ⟨s, hs, ht⟩ := List.mem_flatMap.1 ht
    simpa [hleft s (hpart s hs).1 t ht] using (hpart s hs).2
  obtain ⟨before, after, rfl⟩ := List.append_of_mem hr
  simp only [List.map_append, List.map_cons, List.nodup_middle, List.nodup_cons, List.mem_append, List.mem_map,
    not_or, not_exists, not_and] at hn
  rw [List.flatMap_append, List.flatMap_cons, List.filter_append, List.filter_append, hself,
    hother before fun s hs => ⟨by simp [hs], hn.1.1 s hs⟩, hother after fun s hs => ⟨by simp [hs], hn.1.2 s hs⟩,
    List.nil_append, List.append_nil]

/-- Rules that are given piece by piece are put together again. -/
theorem mergeRules_flatMap {rules : List Rule} {pieces : Rule → List Rule} (hn : (rules.map (·.left)).Nodup)
    (hleft : ∀ r ∈ rules, ∀ s ∈ pieces r, s.left = r.left)
    (hpieces : ∀ r ∈ rules, (pieces r).flatMap (·.alternatives) = r.alternatives)
    (hnodup : ∀ r ∈ rules, r.alternatives.Nodup) :
    mergeRules (rules.map (·.left)) (rules.flatMap pieces) = rules := by
  have hrule : ∀ r ∈ rules, (⟨r.left, (((rules.flatMap pieces).filter (·.left = r.left)).flatMap
      (·.alternatives)).eraseDups⟩ : Rule) = r := by
    intro r hr
    rw [filter_left_flatMap hn hleft hr, hpieces r hr, eraseDups_eq_self (hnodup r hr)]
  rw [mergeRules, List.map_map]
  exact (List.map_congr_left hrule).trans (List.map_id' rules)

namespace Grammar

variable {g : Grammar}

def usedTerminals (g : Grammar) : List String :=
  (g.rules.flatMap fun r => r.alternatives.flatMap Production.terminals).eraseDups

theorem mem_usedTerminals {a : String} :
    a ∈ g.usedTerminals ↔ ∃ r ∈ g.rules, ∃ p ∈ r.alternatives, .terminal a ∈ p := by
  simp [usedTerminals]

theorem WellFormed.withUsedTerminals (hg : g.WellFormed) : WellFormed { g with terminals := g.usedTerminals } := by
  have hused : ∀ a ∈ g.usedTerminals, a ∈ g.terminals := by
    intro a ha
    obtain ⟨r, hr, p, hp, ha⟩ := mem_usedTerminals.1 ha
    exact (hg.admits (mem_productions_left hg.nonTerminals_nodup hr hp)).terminal_mem a ha
  apply WellFormed.of_admits
  · exact hg.start_mem
  · intro name hname
    exact hg.declarable name (List.mem_append.2 ((List.mem_append.1 hname).imp (hused name) id))
  · exact fun a ha => hg.disjoint a (hused a ha)
  · exact nodup_eraseDups _
  · exact hg.nonTerminals_nodup
  · intro left p hp
    have hadm := hg.admits hp
    obtain ⟨r, hr, -, hp⟩ := exists_of_mem_productions hp
    exact ⟨hadm.ne_nil, hadm.epsilon_alone, fun a ha => mem_usedTerminals.2 ⟨r, hr, p, hp, ha⟩, hadm.nonTerminal_mem⟩
  · exact hg.alternatives_nodup

theorem WellFormed.isDeclarable_of_declares (hg : g.WellFormed) {s : Symbol} (hs : g.declares s = true)
    (hne : s ≠ .epsilon) : isDeclarable s.name = true := by
  cases s with
  | epsilon => exact absurd rfl hne
  | terminal a => exact hg.declarable a (List.mem_append_left _ (by simpa [declares] using hs))
  | nonTerminal a => exact hg.declarable a (List.mem_append_right _ (by simpa [declares] using hs))

/-- The name of a symbol is enough to tell which symbol it is. -/
theorem WellFormed.symbolOf_name (hg : g.WellFormed) {s : Symbol} (hs : g.declares s = true) :
    symbolOf g.nonTerminals s.name = s := by
  cases s with
  | epsilon => rfl
  | terminal a =>
      have ht : a ∈ g.terminals := by simpa [declares] using hs
      have he : a ∉ epsilonNames := (isDeclarable_iff.1 (hg.isDeclarable_of_declares hs (by simp))).2
      change symbolOf g.nonTerminals a = .terminal a
      rw [symbolOf, if_neg he, if_neg (hg.disjoint a ht)]
  | nonTerminal a =>
      have hn : a ∈ g.nonTerminals := by simpa [declares] using hs
      have he : a ∉ epsilonNames := (isDeclarable_iff.1 (hg.isDeclarable_of_declares hs (by simp))).2
      change symbolOf g.nonTerminals a = .nonTerminal a
      rw [symbolOf, if_neg he, if_pos hn]

theorem WellFormed.map_symbolOf_entry (hg : g.WellFormed) {r : Rule} (hr : r ∈ g.rules) :
    r.entry.rights.map (·.map (symbolOf g.nonTerminals)) = r.alternatives := by
  rw [Rule.entry, List.map_map]
  refine (List.map_congr_left fun p hp => ?_).trans (List.map_id' _)
  rw [Function.comp_apply, List.map_map]
  exact (List.map_congr_left fun s hs => hg.symbolOf_name (hg.declared r hr p hp s hs)).trans (List.map_id' _)

def leftsOf (written : List (String × List (List String))) : List String :=
  (written.map (·.1)).eraseDups

def rulesOf (written : List (String × List (List String))) : List Rule :=
  written.map fun x => ⟨x.1, x.2.map (·.map (symbolOf (leftsOf written)))⟩

theorem ofAlternatives_eq (start : String) (written : List (String × List (List String))) :
    ofAlternatives start written =
      { start
        terminals := ((rulesOf written).flatMap fun r => r.alternatives.flatMap Production.terminals).eraseDups
        rules := mergeRules (leftsOf written) (rulesOf written) } :=
  rfl

/-- If the lines give the right sides of each rule, all rules come out as they are, whatever the lines they stand in. -/
theorem WellFormed.ofAlternatives_parts (hg : g.WellFormed) {parts : Rule → List (List (List String))}
    (hne : ∀ r ∈ g.rules, parts r ≠ []) (hparts : ∀ r ∈ g.rules, (parts r).flatten = r.entry.rights) :
    ofAlternatives g.start (g.rules.flatMap fun r => (parts r).map (r.left, ·)) =
      { g with terminals := g.usedTerminals } := by
  let pieces (r : Rule) : List Rule :=
    (parts r).map fun rights => ⟨r.left, rights.map (·.map (symbolOf g.nonTerminals))⟩
  have hlefts : leftsOf (g.rules.flatMap fun r => (parts r).map (r.left, ·)) = g.nonTerminals := by
    rw [leftsOf, List.map_flatMap]
    simp only [List.map_map, Function.comp_def]
    exact eraseDups_flatMap_left hg.nonTerminals_nodup hne
  have hrules : rulesOf (g.rules.flatMap fun r => (parts r).map (r.left, ·)) = g.rules.flatMap pieces := by
    rw [rulesOf, hlefts, List.map_flatMap]
    simp only [List.map_map, Function.comp_def, pieces]
  have hpieces : ∀ r ∈ g.rules, (pieces r).flatMap (·.alternatives) = r.alternatives := by
    intro r hr
    rw [List.flatMap_map, ← hg.map_symbolOf_entry hr, ← hparts r hr, List.map_flatten, List.flatMap_def]
  have hmerged : mergeRules g.nonTerminals (g.rules.flatMap pieces) = g.rules := by
    refine mergeRules_flatMap hg.nonTerminals_nodup (fun r _ s hs => ?_) hpieces hg.alternatives_nodup
    obtain ⟨-, -, rfl⟩ := List.mem_map.1 hs
    rfl
  have hterminals : ((g.rules.flatMap pieces).flatMap fun r => r.alternatives.flatMap Production.terminals) =
      g.rules.flatMap fun r => r.alternatives.flatMap Production.terminals := by
    rw [List.flatMap_assoc]
    refine List.flatMap_congr fun r hr => ?_
    rw [← List.flatMap_assoc, hpieces r hr]
  rw [ofAlternatives_eq, hlefts, hrules, hmerged, hterminals]
  rfl

end Grammar

end NormalForms
