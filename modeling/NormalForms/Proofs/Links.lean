import Mathlib.Data.List.Sigma
import NormalForms.Proofs.ShapedForm

namespace NormalForms

namespace Helper

def nextLinks (left : String) (number : Nat) : Production → List Helper
  | _ :: y :: z :: p => [link left number (y :: z :: p)]
  | _ => []

def next : Helper → List Helper
  | wrapper _ => []
  | link left number rest => nextLinks left number rest

/-- The links of a production make a chain, which begins at the production and goes on from each link to the next. -/
theorem links_eq_append (left : String) (number : Nat) (p : Production) :
    links left number p = nextLinks left number p ++ (links left number p).flatMap next := by
  induction p using links.induct with
  | case1 x y z p ih =>
      rw [links, nextLinks, List.flatMap_cons, next, ← ih]
      rfl
  | case2 p hp => rw [links.eq_2 left number p hp, nextLinks.eq_2 left number p hp, List.flatMap_nil, List.append_nil]

theorem length_lt_of_mem_links {left : String} {number : Nat} {p : Production} {h : Helper}
    (hh : h ∈ links left number p) : h.body.length < p.length := by
  induction p using links.induct with
  | case1 x y z p ih =>
      rw [links] at hh
      rcases List.mem_cons.1 hh with rfl | hh
      · simp [body]
      · exact (ih hh).trans (by simp)
  | case2 p hp =>
      rw [links.eq_2 left number p hp] at hh
      exact absurd hh List.not_mem_nil

theorem links_nodup (left : String) (number : Nat) (p : Production) : (links left number p).Nodup := by
  induction p using links.induct with
  | case1 x y z p ih =>
      rw [links, List.nodup_cons]
      exact ⟨fun hm => Nat.lt_irrefl _ (length_lt_of_mem_links hm), ih⟩
  | case2 p hp =>
      rw [links.eq_2 left number p hp]
      exact List.nodup_nil

theorem flatMap_filter_isLink (helpers : List Helper) : (helpers.filter isLink).flatMap next = helpers.flatMap next := by
  induction helpers with
  | nil => rfl
  | cons h helpers ih =>
      cases h with
      | wrapper a => exact ih
      | link left number rest => rw [List.filter_cons_of_pos rfl, List.flatMap_cons, List.flatMap_cons, ih]

theorem filter_isLink_needed (left : String) (number : Nat) (p : Production) :
    (needed left number p).filter isLink = links left number p := by
  have hlinks : ∀ p : Production, (links left number p).filter isLink = links left number p := by
    intro p
    apply List.filter_eq_self.2
    intro h hh
    obtain ⟨rest, rfl, -⟩ := eq_link_of_mem_links hh
    rfl
  have hwrappers : ((Production.terminals p).map wrapper).filter isLink = [] := by
    simp [List.filter_eq_nil_iff, isLink]
  unfold needed
  split
  · rename_i hp
    have hshort : ∀ x y z q, p = x :: y :: z :: q → False := by
      rintro x y z q rfl
      simp only [List.length_cons] at hp
      omega
    rw [links.eq_2 left number p hshort, List.filter_nil]
  · rw [List.filter_append, hwrappers, hlinks, List.nil_append]

end Helper

namespace Grammar

open Helper

variable {g : Grammar}

def requests (g : Grammar) : List Helper :=
  g.rules.flatMap ofRule

def links (g : Grammar) : List Helper :=
  g.rules.flatMap fun r => r.alternatives.zipIdx.flatMap fun e => Helper.links r.left e.2 e.1

def rightSymbols (g : Grammar) : List Symbol :=
  g.rules.flatMap fun r => r.alternatives.flatten

theorem eq_link_of_mem_ruleLinks {r : Rule} {h : Helper}
    (hh : h ∈ r.alternatives.zipIdx.flatMap fun e => Helper.links r.left e.2 e.1) :
    ∃ number rest, h = link r.left number rest := by
  obtain ⟨e, -, hm⟩ := List.mem_flatMap.1 hh
  obtain ⟨rest, rfl, -⟩ := eq_link_of_mem_links hm
  exact ⟨e.2, rest, rfl⟩

/-- No two productions share a link, since it tells the rule, the number of the alternative and what is left of it. -/
theorem links_nodup (hn : g.nonTerminals.Nodup) : g.links.Nodup := by
  refine List.nodup_flatMap.2 ⟨fun r _ => List.nodup_flatMap.2 ⟨fun e _ => Helper.links_nodup _ _ _, ?_⟩, ?_⟩
  · refine (List.pairwise_map.1 (List.nodup_zipIdx_map_snd r.alternatives)).imp fun {d e} hne => ?_
    intro h hd he
    obtain ⟨_, rfl, -⟩ := eq_link_of_mem_links hd
    obtain ⟨_, heq, -⟩ := eq_link_of_mem_links he
    exact hne (Helper.link.inj heq).2.1
  · refine (List.pairwise_map.1 hn).imp fun {r s} hne => ?_
    intro h hr hs
    obtain ⟨_, _, rfl⟩ := eq_link_of_mem_ruleLinks hr
    obtain ⟨_, _, heq⟩ := eq_link_of_mem_ruleLinks hs
    exact hne (Helper.link.inj heq).1

theorem filter_isLink_requests (g : Grammar) : g.requests.filter isLink = g.links := by
  simp only [requests, ofRule, List.filter_flatMap, filter_isLink_needed]
  rfl

theorem filter_isLink_helpers (hn : g.nonTerminals.Nodup) : g.helpers.filter isLink = g.links := by
  rw [helpers, ← requests, ← eraseDups_filter, filter_isLink_requests, eraseDups_eq_self (links_nodup hn)]

/-- Each link is referred to from one place: from a production or from the link before it. -/
theorem links_perm (g : Grammar) : g.links.Perm
    ((g.rules.flatMap fun r => r.alternatives.zipIdx.flatMap fun e => nextLinks r.left e.2 e.1) ++
      g.links.flatMap next) := by
  have hchain : g.links = g.rules.flatMap fun r => r.alternatives.zipIdx.flatMap fun e =>
      nextLinks r.left e.2 e.1 ++ (Helper.links r.left e.2 e.1).flatMap next := by
    simp only [← links_eq_append]
    rfl
  have hnext : g.links.flatMap next = g.rules.flatMap fun r => r.alternatives.zipIdx.flatMap fun e =>
      (Helper.links r.left e.2 e.1).flatMap next := by
    simp only [links, List.flatMap_assoc]
  rw [hnext, hchain]
  refine (List.Perm.flatMap_left _ fun r _ => ?_).trans (List.flatMap_append_perm _ _ _).symm
  exact (List.flatMap_append_perm _ _ _).symm

/-- The short form of a production refers to a link as often as the production has it for its next one. -/
theorem count_shaped {left : String} {number : Nat} {p : Production} {k : Helper} (hk : k ∈ g.helpers)
    (hl : k.isLink = true) (hs : g.Serves left number p) (hp : ∀ a, .nonTerminal a ∈ p → a ∈ g.nonTerminals) :
    (shaped g.helperName left number p).count (.nonTerminal (g.helperName k)) = (nextLinks left number p).count k := by
  have hold : ∀ a ∈ g.nonTerminals, a ≠ g.helperName k := by
    rintro a ha rfl
    exact (helperName_free hk).2.2 ha
  have hw : ∀ x ∈ p, 2 ≤ p.length → wrapped g.helperName x ≠ .nonTerminal (g.helperName k) := by
    intro x hx hlen he
    rcases wrapped_eq_nonTerminal.1 he with rfl | ⟨t, rfl, ht⟩
    · exact hold _ (hp _ hx) rfl
    · have hm : wrapper t ∈ g.helpers := hs _ (wrapper_mem_needed.2 ⟨hlen, hx⟩)
      rw [← helperName_inj hm hk ht] at hl
      cases hl
  cases p using shaped.fun_cases with
  | case1 => rfl
  | case2 s =>
      refine List.count_eq_zero.2 fun hm => ?_
      have hs := (List.mem_singleton.1 hm).symm
      exact hold _ (hp _ (by simp [hs])) rfl
  | case3 x y =>
      refine List.count_eq_zero.2 fun hm => ?_
      simp only [shaped, List.mem_cons, List.not_mem_nil, or_false] at hm
      rcases hm with hm | hm
      · exact hw x (by simp) (by simp) hm.symm
      · exact hw y (by simp) (by simp) hm.symm
  | case4 x y z p =>
      have hm : link left number (y :: z :: p) ∈ g.helpers := hs _ (needed_cons_cons_cons left number x y z p).1
      rw [shaped, List.count_cons_of_ne (hw x (by simp) (by simp)), nextLinks]
      by_cases he : link left number (y :: z :: p) = k
      · simp [he]
      · have hne : g.helperName (link left number (y :: z :: p)) ≠ g.helperName k := fun h => he (helperName_inj hm hk h)
        rw [List.count_eq_zero.2 (by simpa using hne.symm), List.count_eq_zero.2 (by simpa using Ne.symm he)]

theorem shape_rightSymbols (g : Grammar) : g.shape.rightSymbols =
    (g.rules.flatMap fun r => r.alternatives.zipIdx.flatMap fun e => shaped g.helperName r.left e.2 e.1) ++
      g.helpers.flatMap fun h => (rule g.helperName h).alternatives.flatten := by
  rw [rightSymbols, shape_eq, List.flatMap_append, List.flatMap_map, List.flatMap_map]
  rfl

theorem count_rule (hg : g.WellFormed) {h k : Helper} (hh : h ∈ g.helpers) (hk : k ∈ g.helpers)
    (hl : k.isLink = true) :
    (rule g.helperName h).alternatives.flatten.count (.nonTerminal (g.helperName k)) = (next h).count k := by
  obtain ⟨left, p, -, ⟨t, rfl, -⟩ | ⟨number, rest, rfl, -, -, hs⟩⟩ := origin_of_mem_helpers hg.nonTerminals_nodup hh
  · simp [rule, next]
  · rw [rule, List.flatten_singleton, next]
    exact count_shaped hk hl hs (hg.admits_body hh).nonTerminal_mem

theorem count_flatMap_congr {α β γ : Type} [BEq β] [BEq γ] {l : List α} {f : α → List β} {f' : α → List γ} {b : β}
    {c : γ} (h : ∀ a ∈ l, (f a).count b = (f' a).count c) : (l.flatMap f).count b = (l.flatMap f').count c := by
  rw [List.count_flatMap, List.count_flatMap]
  exact congrArg List.sum (List.map_congr_left h)

/-- The name of a link stands on the right sides of the shaped grammar exactly once. -/
theorem count_helperName (hg : g.WellFormed) {k : Helper} (hk : k ∈ g.helpers) (hl : k.isLink = true) :
    g.shape.rightSymbols.count (.nonTerminal (g.helperName k)) = 1 := by
  have hn := hg.nonTerminals_nodup
  have hm : k ∈ g.links := by
    rw [← filter_isLink_helpers hn]
    exact List.mem_filter.2 ⟨hk, hl⟩
  have hrules : (g.rules.flatMap fun r => r.alternatives.zipIdx.flatMap fun e =>
        shaped g.helperName r.left e.2 e.1).count (.nonTerminal (g.helperName k)) =
      (g.rules.flatMap fun r => r.alternatives.zipIdx.flatMap fun e => nextLinks r.left e.2 e.1).count k := by
    refine count_flatMap_congr fun r hr => count_flatMap_congr fun e he => ?_
    have hadm := hg.admits (mem_productions_of_mem_zipIdx hn hr he)
    exact count_shaped hk hl (serves_of_mem hr he) hadm.nonTerminal_mem
  have hhelpers : (g.helpers.flatMap fun h => (rule g.helperName h).alternatives.flatten).count
        (.nonTerminal (g.helperName k)) = (g.links.flatMap next).count k := by
    rw [← filter_isLink_helpers hn, flatMap_filter_isLink]
    exact count_flatMap_congr fun h hh => count_rule hg hh hk hl
  calc
    _ = (g.rules.flatMap fun r => r.alternatives.zipIdx.flatMap fun e => nextLinks r.left e.2 e.1).count k +
        (g.links.flatMap next).count k := by
      rw [shape_rightSymbols, List.count_append, hrules, hhelpers]
    _ = g.links.count k := by
      rw [← List.count_append, (links_perm g).count_eq]
    _ = 1 := List.count_eq_one_of_mem (links_nodup hn) hm

end Grammar

end NormalForms
