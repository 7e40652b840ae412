import Mathlib.Data.List.Perm.Subperm
import Mathlib.Logic.Function.Iterate
import NormalForms.Proofs.DerivationLength
import NormalForms.Proofs.SameAs
import NormalForms.Proofs.WordsKept

namespace NormalForms

section

variable {α : Type} [DecidableEq α]

def unseen (found l : List α) : List α :=
  l.eraseDups.filter (· ∉ found)

theorem unseen_cons_of_mem {found : List α} {a : α} (h : a ∈ found) (l : List α) :
    unseen found (a :: l) = unseen found l :=
  filter_eraseDups_cons_of_mem h l

theorem unseen_cons_of_not_mem {found : List α} {a : α} (h : a ∉ found) (l : List α) :
    unseen found (a :: l) = a :: unseen (found ++ [a]) l :=
  filter_eraseDups_cons_of_not_mem h l

theorem mem_unseen {found l : List α} {a : α} : a ∈ unseen found l ↔ a ∈ l ∧ a ∉ found := by
  simp [unseen]

theorem unseen_append (found l m : List α) :
    unseen found (l ++ m) = unseen found l ++ unseen (found ++ unseen found l) m := by
  rw [unseen, eraseDups_append_eq, List.filter_append, List.filter_filter, ← unseen]
  refine congrArg _ (List.filter_congr fun a _ => ?_)
  by_cases ha : a ∈ found
  · simp [ha]
  · simp [ha, mem_unseen]

theorem search_nodup {edges : List (α × α)} {seen pending : List α} (h : seen.Nodup) :
    (search edges seen pending).Nodup := by
  induction edges, seen, pending using search.induct with
  | case1 => simpa [search] using h
  | case2 edges seen a pending ha ih =>
      rw [search, if_pos ha]
      exact ih h
  | case3 edges seen a pending ha ih =>
      rw [search, if_neg ha]
      exact ih (List.concat_eq_append ▸ h.concat ha)

theorem prefix_search (edges : List (α × α)) (seen pending : List α) : seen <+: search edges seen pending := by
  induction edges, seen, pending using search.induct with
  | case1 => simp [search]
  | case2 edges seen a pending ha ih => rwa [search, if_pos ha]
  | case3 edges seen a pending ha ih =>
      rw [search, if_neg ha]
      exact (List.prefix_append seen [a]).trans ih

/-- The targets of a left side come from its own rule. -/
theorem targetsOf_edges (chosen : Rule → List Production) {rules : List Rule} (hn : (rules.map (·.left)).Nodup)
    {r : Rule} (hr : r ∈ rules) :
    targetsOf r.left (rules.flatMap (Rule.edges chosen)) = (chosen r).flatMap Production.nonTerminals := by
  have hp := List.perm_cons_erase hr
  have hn' := (hp.map (·.left)).nodup_iff.1 hn
  have hself : targetsOf r.left (r.edges chosen) = (chosen r).flatMap Production.nonTerminals := by
    rw [targetsOf, List.filter_eq_self.2, Rule.edges, List.map_flatMap]
    · simp
    · intro e he
      obtain ⟨p, -, hp⟩ := List.mem_flatMap.1 he
      obtain ⟨a, -, rfl⟩ := List.mem_map.1 hp
      exact decide_eq_true rfl
  have hothers : targetsOf r.left ((rules.erase r).flatMap (Rule.edges chosen)) = [] := by
    rw [List.eq_nil_iff_forall_not_mem]
    intro b hb
    obtain ⟨s, hs, hb⟩ := List.mem_flatMap.1 (mem_targetsOf.1 hb)
    have hne : s.left ≠ r.left := fun he => (List.nodup_cons.1 hn').1 (List.mem_map.2 ⟨s, hs, he⟩)
    rw [← mem_targetsOf, Rule.targetsOf_edges_of_ne hne] at hb
    exact List.not_mem_nil hb
  rw [targetsOf_edges_perm chosen hp hn, List.flatMap_cons, targetsOf_append, hself, hothers, List.append_nil]

end

def renamedTo (ps : List Production) : List String :=
  (ps.filter Production.isRenaming).flatMap Production.nonTerminals

theorem renamedTo_cons_renaming (a : String) (ps : List Production) :
    renamedTo ([.nonTerminal a] :: ps) = a :: renamedTo ps :=
  rfl

theorem renamedTo_cons_of_not {p : Production} (hp : p.isRenaming = false) (ps : List Production) :
    renamedTo (p :: ps) = renamedTo ps := by
  rw [renamedTo, List.filter_cons_of_neg (by simp [hp]), renamedTo]

namespace RenamingSearch

theorem visit_of_not_renaming {p : Production} (hp : p.isRenaming = false) (s : RenamingSearch) : s.visit p = s := by
  unfold visit
  split
  · cases hp
  · rfl

theorem foldl_visit (ps : List Production) (visited queue : List String) :
    ps.foldl visit ⟨visited, queue⟩ =
      ⟨visited ++ unseen visited (renamedTo ps), queue ++ unseen visited (renamedTo ps)⟩ := by
  induction ps generalizing visited queue with
  | nil => simp [renamedTo, unseen]
  | cons p ps ih =>
      rw [List.foldl_cons]
      cases hp : p.isRenaming with
      | false => rw [visit_of_not_renaming hp, renamedTo_cons_of_not hp, ih]
      | true =>
          obtain ⟨a, rfl⟩ := Production.isRenaming_iff.1 hp
          rw [renamedTo_cons_renaming]
          by_cases ha : a ∈ visited
          · have hsame : visit ⟨visited, queue⟩ [.nonTerminal a] = ⟨visited, queue⟩ := if_pos ha
            rw [hsame, unseen_cons_of_mem ha, ih]
          · have hnew : visit ⟨visited, queue⟩ [.nonTerminal a] = ⟨visited ++ [a], queue ++ [a]⟩ := if_neg ha
            rw [hnew, unseen_cons_of_not_mem ha, ih]
            simp

end RenamingSearch

namespace Grammar

variable {g : Grammar}

theorem follow_cons (name : String) (visited queue : List String) :
    g.follow ⟨visited, name :: queue⟩ = ⟨visited ++ unseen visited (renamedTo (g.productions name)),
      queue ++ unseen visited (renamedTo (g.productions name))⟩ :=
  RenamingSearch.foldl_visit (g.productions name) visited queue

theorem targetsOf_renamings (hn : g.nonTerminals.Nodup) (name : String) :
    targetsOf name g.renamings = renamedTo (g.productions name) := by
  by_cases hname : name ∈ g.nonTerminals
  · obtain ⟨r, hr, rfl⟩ := mem_nonTerminals.1 hname
    rw [productions_left hn hr]
    exact targetsOf_edges (fun r => r.alternatives.filter Production.isRenaming) hn hr
  · rw [productions_of_not_mem hname]
    refine List.eq_nil_iff_forall_not_mem.2 fun b hb => hname ?_
    exact mem_nonTerminals_of_mem_productions ((mem_renamings hn).1 (mem_targetsOf.1 hb))

/-- Every turn takes the first name from the queue, which holds what a search along the edges has still to find. -/
theorem iterate_follow (edges : List (String × String)) (seen pending : List String)
    (h : ∀ a, a ∉ seen → targetsOf a edges = renamedTo (g.productions a)) :
    ∃ n, n + seen.length = (search edges seen pending).length ∧
      g.follow^[n] ⟨seen ++ unseen seen pending, unseen seen pending⟩ = ⟨search edges seen pending, []⟩ := by
  induction edges, seen, pending using search.induct with
  | case1 => exact ⟨0, by simp [search], by simp [search, unseen]⟩
  | case2 edges seen a pending ha ih =>
      rw [search, if_pos ha, unseen_cons_of_mem ha]
      exact ih h
  | case3 edges seen a pending ha ih =>
      obtain ⟨n, hlength, hiterate⟩ := ih fun b hb => by
        rw [List.mem_append, List.mem_singleton, not_or] at hb
        rw [targetsOf_withoutSource, if_neg hb.2, h b hb.1]
      rw [search, if_neg ha]
      refine ⟨n + 1, ?_, ?_⟩
      · rw [← hlength, List.length_append, List.length_singleton]
        omega
      · rw [Function.iterate_succ_apply, unseen_cons_of_not_mem ha, follow_cons, ← h a ha]
        rw [unseen_append] at hiterate
        simpa only [List.append_assoc, List.cons_append, List.singleton_append, List.nil_append] using hiterate

theorem iterate_follow_opening (hn : g.nonTerminals.Nodup) (name : String) :
    g.follow^[(g.unitClosure name).length] (.opening name) = ⟨g.unitClosure name, []⟩ := by
  have hedges : ∀ a, a ∉ [] → targetsOf a g.renamings = renamedTo (g.productions a) :=
    fun a _ => targetsOf_renamings hn a
  obtain ⟨n, hlength, hiterate⟩ := iterate_follow g.renamings [] [name] hedges
  have hfirst : unseen [] [name] = [name] := unseen_cons_of_not_mem List.not_mem_nil []
  rw [List.length_nil, Nat.add_zero] at hlength
  rwa [hfirst, hlength] at hiterate

theorem unitClosure_nodup (g : Grammar) (name : String) : (g.unitClosure name).Nodup :=
  search_nodup List.nodup_nil

theorem head?_unitClosure (g : Grammar) (name : String) : (g.unitClosure name).head? = some name := by
  rw [unitClosure, reach, search, if_neg List.not_mem_nil]
  obtain ⟨rest, he⟩ := prefix_search (withoutSource name g.renamings) ([] ++ [name]) ([] ++ targetsOf name g.renamings)
  rw [← he]
  rfl

theorem leads_renamings_iff (hn : g.nonTerminals.Nodup) {a b : String} :
    Leads g.renamings a b ↔ Relation.ReflTransGen (fun a b => [.nonTerminal b] ∈ g.productions a) a b := by
  simp only [Leads, mem_renamings hn]

theorem WellFormed.length_unitClosure_le (hg : g.WellFormed) (name : String) :
    (g.unitClosure name).length ≤ g.nonTerminals.length + 1 := by
  have hsub : g.unitClosure name ⊆ name :: g.nonTerminals := by
    intro b hb
    rcases Relation.ReflTransGen.cases_tail (mem_unitClosure.1 hb) with rfl | ⟨a, -, he⟩
    · exact List.mem_cons_self
    · have hp := (mem_renamings hg.nonTerminals_nodup).1 he
      exact List.mem_cons_of_mem name ((hg.admits hp).nonTerminal_mem b (List.mem_singleton_self _))
  exact (List.subperm_of_subset (g.unitClosure_nodup name) hsub).length_le

def NonContracting (g : Grammar) : Prop :=
  ∀ left, ∀ p ∈ g.productions left, p ≠ [] ∧ .epsilon ∉ p

theorem WellFormed.nonContracting (hg : g.WellFormed) (he : ∀ r ∈ g.rules, [.epsilon] ∉ r.alternatives) :
    g.NonContracting := by
  intro left p hp
  have hadm := hg.admits hp
  obtain ⟨r, hr, -, hp⟩ := exists_of_mem_productions hp
  exact ⟨hadm.ne_nil, fun hm => he r hr (hadm.epsilon_alone hm ▸ hp)⟩

theorem DerivesIn.length_le (hc : g.NonContracting) {n : Nat} {u v : List Symbol} (hd : g.DerivesIn n u v) :
    u.length ≤ v.length := by
  induction hd with
  | refl => exact Nat.le_refl _
  | step hs _ ih =>
      cases hs with
      | @replace x y left p hp =>
          obtain ⟨hne, he⟩ := hc left p hp
          have hpos := List.length_pos_iff.2 hne
          rw [yield_eq_self he] at ih
          simp only [List.length_append, List.length_cons] at ih ⊢
          omega

/-- A derivation of a single name from another one passes through single names only, since no form gets shorter. -/
theorem DerivesIn.leads (hc : g.NonContracting) {n : Nat} {a b : String}
    (hd : g.DerivesIn n [.nonTerminal a] [.nonTerminal b]) :
    Relation.ReflTransGen (fun a b => [.nonTerminal b] ∈ g.productions a) a b := by
  induction n generalizing a with
  | zero =>
      cases hd
      exact .refl
  | succ n ih =>
      cases hd with
      | step hs hd =>
          obtain ⟨p, hp, rfl⟩ := exists_yield_of_step hs
          obtain ⟨hne, he⟩ := hc a p hp
          rw [yield_eq_self he] at hd
          obtain ⟨s, rfl⟩ : ∃ s, p = [s] :=
            List.length_eq_one_iff.1 (Nat.le_antisymm (hd.length_le hc) (List.length_pos_iff.2 hne))
          cases s with
          | epsilon => exact absurd (List.mem_singleton_self _) he
          | terminal c =>
              have hsame := Derives.forall_mem (P := (· = .terminal c)) (by simp) ⟨n, hd⟩ (by simp)
              simp at hsame
          | nonTerminal c => exact .head hp (ih hd)

theorem derives_of_leads {a b : String}
    (hl : Relation.ReflTransGen (fun a b => [.nonTerminal b] ∈ g.productions a) a b) :
    g.Derives [.nonTerminal a] [.nonTerminal b] := by
  induction hl with
  | refl => exact .refl _
  | tail _ hp ih => exact ih.trans (.of_mem_productions hp)

/-- The search along the renamings takes each name that it finds from the queue once, and then it is over. It finds the
name it begins with first, and all names at the ends of chains of renamings. Without empty productions these are the
names that can be derived by themselves in any way. -/
theorem unitClosure_exact (hg : g.WellFormed) (name : String) :
    g.follow^[(g.unitClosure name).length] (.opening name) = ⟨g.unitClosure name, []⟩ ∧
    (g.unitClosure name).length ≤ g.nonTerminals.length + 1 ∧
    (g.unitClosure name).Nodup ∧ (g.unitClosure name).head? = some name ∧
    (∀ b, b ∈ g.unitClosure name ↔
      Relation.ReflTransGen (fun a b => [.nonTerminal b] ∈ g.productions a) name b) ∧
    ((∀ r ∈ g.rules, [.epsilon] ∉ r.alternatives) →
      ∀ b, b ∈ g.unitClosure name ↔ g.Derives [.nonTerminal name] [.nonTerminal b]) := by
  have hn := hg.nonTerminals_nodup
  have hmem : ∀ b, b ∈ g.unitClosure name ↔
      Relation.ReflTransGen (fun a b => [.nonTerminal b] ∈ g.productions a) name b :=
    fun b => mem_unitClosure.trans (leads_renamings_iff hn)
  refine ⟨iterate_follow_opening hn name, hg.length_unitClosure_le name, g.unitClosure_nodup name,
    g.head?_unitClosure name, hmem, fun he b => (hmem b).trans ⟨derives_of_leads, ?_⟩⟩
  rintro ⟨n, hd⟩
  exact hd.leads (hg.nonContracting he)

def wheeling : Grammar where
  start := "S"
  terminals := ["a"]
  rules := [
    ⟨"S", [[.nonTerminal "B"], [.nonTerminal "A"], [.nonTerminal "S", .nonTerminal "D"]]⟩,
    ⟨"A", [[.nonTerminal "A"], [.terminal "a"], [.nonTerminal "S"]]⟩,
    ⟨"B", [[.nonTerminal "C"], [.nonTerminal "A"]]⟩,
    ⟨"C", [[.terminal "a"]]⟩,
    ⟨"D", [[.nonTerminal "C"]]⟩]

theorem wheeling_wellFormed : wheeling.WellFormed :=
  .of_fault?_eq_none (by decide) (by decide) (by decide) (by decide)

theorem wheeling_unitClosure_exact : wheeling.WellFormed ∧
    wheeling.follow^[2] (.opening "S") = ⟨["S", "B", "A", "C"], ["A", "C"]⟩ ∧
    wheeling.follow^[4] (.opening "S") = ⟨["S", "B", "A", "C"], []⟩ ∧
    wheeling.follow^[1] (.opening "x") = ⟨["x"], []⟩ ∧
    (∀ r ∈ wheeling.rules, [.epsilon] ∉ r.alternatives) ∧
    wheeling.Derives [.nonTerminal "S"] [.nonTerminal "C"] ∧
    ¬ wheeling.Derives [.nonTerminal "S"] [.nonTerminal "D"] := by
  have he : ∀ r ∈ wheeling.rules, [.epsilon] ∉ r.alternatives := by decide
  obtain ⟨hsearch, -, -, -, -, hderives⟩ := unitClosure_exact wheeling_wellFormed "S"
  obtain ⟨hunknown, -, -, -, -, -⟩ := unitClosure_exact wheeling_wellFormed "x"
  have hS : wheeling.unitClosure "S" = ["S", "B", "A", "C"] := by with_unfolding_all decide
  have hx : wheeling.unitClosure "x" = ["x"] := by with_unfolding_all decide
  rw [hS] at hsearch
  rw [hx] at hunknown
  exact ⟨wheeling_wellFormed, by decide, hsearch, hunknown, he, (hderives he "C").1 (by simp [hS]),
    fun h => absurd ((hderives he "D").2 h) (by simp [hS])⟩

end Grammar

end NormalForms
