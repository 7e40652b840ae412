import Mathlib.Data.Finset.Image
import Mathlib.Data.Finset.Powerset
import NormalForms.Proofs.Checks
import NormalForms.Proofs.Expansion

namespace NormalForms

namespace Production

variable {nullable : List String} {s : Symbol}

def positions (nullable : List String) (p : Production) : Finset Nat :=
  {i ∈ Finset.range p.length | ∃ a ∈ nullable, p[i]? = some (.nonTerminal a)}

def without (p : Production) (omitted : Finset Nat) : Production :=
  (p.zipIdx.filter (·.2 ∉ omitted)).map (·.1)

theorem without_cons (s : Symbol) (p : Production) (omitted : Finset Nat) :
    without (s :: p) (omitted.image (· + 1)) = s :: without p omitted := by
  simp [without, List.zipIdx_succ, List.filter_map, Function.comp_def]

theorem without_cons_insert (s : Symbol) (p : Production) (omitted : Finset Nat) :
    without (s :: p) (insert 0 (omitted.image (· + 1))) = without p omitted := by
  simp [without, List.zipIdx_succ, List.filter_map, Function.comp_def]

theorem mem_positions {p : Production} {i : Nat} :
    i ∈ positions nullable p ↔ ∃ a ∈ nullable, p[i]? = some (.nonTerminal a) := by
  rw [positions, Finset.mem_filter, Finset.mem_range, and_iff_right_iff_imp]
  rintro ⟨a, -, ha⟩
  exact (List.getElem?_eq_some_iff.1 ha).1

theorem positions_nil : positions nullable [] = ∅ :=
  rfl

theorem zero_mem_positions {p : Production} :
    0 ∈ positions nullable (s :: p) ↔ s.nonTerminal?.any (· ∈ nullable) = true := by
  simp [mem_positions, Option.any_eq_true, and_comm]

theorem succ_mem_positions {p : Production} {i : Nat} :
    i + 1 ∈ positions nullable (s :: p) ↔ i ∈ positions nullable p := by
  rw [mem_positions, mem_positions, List.getElem?_cons_succ]

theorem positions_cons_of_mem (h : s.nonTerminal?.any (· ∈ nullable) = true) (p : Production) :
    positions nullable (s :: p) = insert 0 ((positions nullable p).image (· + 1)) := by
  ext i
  cases i with
  | zero => simp [zero_mem_positions.2 h]
  | succ i => simp [succ_mem_positions]

theorem positions_cons_of_not_mem (h : ¬ s.nonTerminal?.any (· ∈ nullable) = true) (p : Production) :
    positions nullable (s :: p) = (positions nullable p).image (· + 1) := by
  ext i
  cases i with
  | zero => simp [mt zero_mem_positions.1 h]
  | succ i => simp [succ_mem_positions]

def omissions (nullable : List String) : Production → List (Finset Nat)
  | [] => [∅]
  | s :: p =>
    let later := (omissions nullable p).map (·.image (· + 1))
    if s.nonTerminal?.any (· ∈ nullable) then later.flatMap fun omitted => [omitted, insert 0 omitted] else later

theorem deletions_eq_map (nullable : List String) (p : Production) :
    deletions nullable p = (omissions nullable p).map p.without := by
  induction p with
  | nil => rfl
  | cons s p ih =>
      by_cases h : s.nonTerminal?.any (· ∈ nullable) = true
      · rw [deletions_cons_of_mem h, omissions, if_pos h, ih, List.map_flatMap, List.flatMap_map, List.flatMap_map]
        simp only [List.map_cons, List.map_nil, without_cons, without_cons_insert]
      · rw [deletions_cons_of_not_mem h, omissions, if_neg h, ih, List.map_map, List.map_map]
        simp only [Function.comp_def, without_cons]

theorem length_deletions (nullable : List String) (p : Production) :
    (deletions nullable p).length = 2 ^ (positions nullable p).card := by
  have hinj : Function.Injective fun i : Nat => i + 1 := fun _ _ => Nat.succ.inj
  induction p with
  | nil => rfl
  | cons s p ih =>
      by_cases h : s.nonTerminal?.any (· ∈ nullable) = true
      · have hzero : 0 ∉ (positions nullable p).image (· + 1) := by simp
        rw [deletions_cons_of_mem h, positions_cons_of_mem h, Finset.card_insert_of_notMem hzero,
          Finset.card_image_of_injective _ hinj, Nat.pow_succ, ← ih]
        simp [List.length_flatMap]
      · rw [deletions_cons_of_not_mem h, positions_cons_of_not_mem h, Finset.card_image_of_injective _ hinj, ← ih,
          List.length_map]

theorem head?_deletions (nullable : List String) (p : Production) : (deletions nullable p).head? = some p := by
  induction p with
  | nil => rfl
  | cons s p ih =>
      obtain ⟨rest, hrest⟩ := List.head?_eq_some_iff.1 ih
      by_cases h : s.nonTerminal?.any (· ∈ nullable) = true
      · rw [deletions_cons_of_mem h, hrest]
        rfl
      · rw [deletions_cons_of_not_mem h, hrest]
        rfl

/-- A set of positions is left out exactly if one of the names stands at each of them. -/
theorem mem_omissions {p : Production} {omitted : Finset Nat} :
    omitted ∈ omissions nullable p ↔ omitted ⊆ positions nullable p := by
  induction p generalizing omitted with
  | nil => simp [omissions, positions_nil]
  | cons s p ih =>
      have hlater : ∀ omitted, omitted ∈ (omissions nullable p).map (·.image (· + 1)) ↔
          omitted ⊆ (positions nullable p).image (· + 1) := by
        intro omitted
        rw [List.mem_map, Finset.subset_image_iff]
        simp only [ih]
      by_cases h : s.nonTerminal?.any (· ∈ nullable) = true
      · rw [omissions, if_pos h, positions_cons_of_mem h, ← Finset.mem_powerset, Finset.powerset_insert,
          Finset.mem_union, Finset.mem_image, List.mem_flatMap]
        simp only [hlater, Finset.mem_powerset, List.mem_cons, List.not_mem_nil, or_false]
        constructor
        · rintro ⟨later, hl, rfl | rfl⟩
          · exact .inl hl
          · exact .inr ⟨later, hl, rfl⟩
        · rintro (hl | ⟨later, hl, rfl⟩)
          · exact ⟨omitted, hl, .inl rfl⟩
          · exact ⟨later, hl, .inr rfl⟩
      · rw [omissions, if_neg h, positions_cons_of_not_mem h, hlater]

theorem nodup_omissions (nullable : List String) (p : Production) : (omissions nullable p).Nodup := by
  have hall : (omissions nullable p).toFinset = (positions nullable p).powerset := by
    ext omitted
    rw [List.mem_toFinset, mem_omissions, Finset.mem_powerset]
  have hlength := length_deletions nullable p
  rw [deletions_eq_map, List.length_map, ← Finset.card_powerset, ← hall] at hlength
  exact Multiset.coe_nodup.1 (Multiset.toFinset_card_eq_card_iff_nodup.1 hlength.symm)

end Production

theorem Production.filter_remains {nullable : List String} {p : Production} (keeps : Bool)
    (hp : .epsilon ∈ p → p = [.epsilon]) : (remains nullable keeps p).filter (· ≠ [.epsilon]) =
      if p = [.epsilon] then [] else (deletions nullable p).filter (· ≠ []) := by
  unfold remains
  split
  · cases keeps with
    | false => rfl
    | true => rename_i he; simp [he]
  · rename_i hne
    apply List.filter_eq_self.2
    intro q hq
    have hsub := (sublist_of_mem_deletions (List.mem_filter.1 hq).1).subset
    have hq : q ≠ [.epsilon] := by
      rintro rfl
      exact hne (hp (hsub (List.mem_singleton_self _)))
    exact decide_eq_true hq

theorem Production.filter_flatMap_remains {nullable : List String} (keeps : Bool) {ps : List Production}
    (hps : ∀ p ∈ ps, .epsilon ∈ p → p = [.epsilon]) :
    (ps.flatMap (remains nullable keeps)).filter (· ≠ [.epsilon]) =
      ((ps.filter (· ≠ [.epsilon])).flatMap (deletions nullable)).filter (· ≠ []) := by
  induction ps with
  | nil => rfl
  | cons p ps ih =>
      obtain ⟨hp, hps⟩ := List.forall_mem_cons.1 hps
      rw [List.flatMap_cons, List.filter_append, filter_remains keeps hp, ih hps]
      by_cases he : p = [.epsilon]
      · rw [if_pos he, List.nil_append, List.filter_cons_of_neg (by simpa using he)]
      · rw [if_neg he, List.filter_cons_of_pos (by simpa using he), List.flatMap_cons, List.filter_append]

namespace Grammar

variable {g : Grammar} {left : String}

def generated (g : Grammar) (left : String) : List Production :=
  ((g.productions left).filter (· ≠ [.epsilon])).flatMap (Production.versions g.nullable)

theorem mem_generated {q : Production} : q ∈ g.generated left ↔
    ∃ p ∈ g.productions left, p ≠ [.epsilon] ∧
      ∃ omitted ⊆ Production.positions g.nullable p, q = Production.without p omitted := by
  simp only [generated, Production.versions_eq, Production.deletions_eq_map, List.mem_flatMap, List.mem_filter,
    List.mem_map, Production.mem_omissions, decide_eq_true_eq, and_assoc, eq_comm (a := q)]

theorem WellFormed.productions_eliminateEpsilon (hg : g.WellFormed) {r : Rule} (hr : r ∈ g.rules) :
    g.eliminateEpsilon.productions r.left =
      (r.withoutEpsilon g.nullable (g.KeepsEpsilon ∧ r.left = g.start)).alternatives := by
  have hexpanded : r.withoutEpsilon g.nullable (g.KeepsEpsilon ∧ r.left = g.start) ∈ g.expanded.rules :=
    List.mem_map.2 ⟨r, hr, rfl⟩
  have hrule : r.withoutEpsilon g.nullable (g.KeepsEpsilon ∧ r.left = g.start) ∈ g.eliminateEpsilon.rules := by
    rcases eliminateEpsilon_cases hg.nonTerminals_nodup with ⟨-, -, he⟩ | ⟨-, he⟩
    · rw [he]
      exact List.mem_cons_of_mem _ hexpanded
    · rwa [he]
  exact productions_left hg.eliminateEpsilon.nonTerminals_nodup hrule

theorem WellFormed.filter_eliminateEpsilon (hg : g.WellFormed) (hl : left ∈ g.nonTerminals) :
    (g.eliminateEpsilon.productions left).filter (· ≠ [.epsilon]) = (g.generated left).eraseDups.filter (· ≠ []) := by
  obtain ⟨r, hr, rfl⟩ := mem_nonTerminals.1 hl
  have hlast (keeps : Bool) : (if keeps then [[Symbol.epsilon]] else []).filter (· ≠ [Symbol.epsilon]) = [] := by
    cases keeps <;> rfl
  have hversions : Production.versions g.nullable = Production.deletions g.nullable :=
    funext (Production.versions_eq g.nullable)
  rw [hg.productions_eliminateEpsilon hr, Rule.withoutEpsilon_eq, ← eraseDups_filter, List.filter_append, hlast,
    List.append_nil, Production.filter_flatMap_remains _ (hg.epsilon_alone r hr), generated,
    productions_left hg.nonTerminals_nodup hr, hversions, eraseDups_filter]

/-- The versions of a production are the ways to leave out some of its positions at which a given name stands: one for
each set of these positions, and the production itself first. With the nullable names given, the versions of all the
productions of a name, each listed where it is made first, become its productions. -/
theorem deletions_exact :
    (∀ nullable p, Production.versions nullable p = Production.deletions nullable p ∧
      (Production.deletions nullable p).length = 2 ^ (Production.positions nullable p).card ∧
      (Production.deletions nullable p).head? = some p ∧
      ∃ omissions : List (Finset Nat), omissions.Nodup ∧
        (∀ omitted, omitted ∈ omissions ↔ omitted ⊆ Production.positions nullable p) ∧
        Production.deletions nullable p = omissions.map (Production.without p)) ∧
    ∀ g : Grammar, g.WellFormed → g.refill = g.eliminateEpsilon ∧ ∀ left ∈ g.nonTerminals,
      (∀ q, q ∈ g.eliminateEpsilon.productions left ∧ q ≠ [.epsilon] ↔ q ≠ [] ∧
        ∃ p ∈ g.productions left, p ≠ [.epsilon] ∧
          ∃ omitted ⊆ Production.positions g.nullable p, q = Production.without p omitted) ∧
      (g.eliminateEpsilon.productions left).Nodup ∧
      ((g.eliminateEpsilon.productions left).filter (· ≠ [.epsilon])).Pairwise fun q r =>
        (g.generated left).idxOf q < (g.generated left).idxOf r := by
  refine ⟨fun nullable p => ⟨Production.versions_eq nullable p, Production.length_deletions nullable p,
    Production.head?_deletions nullable p, Production.omissions nullable p, Production.nodup_omissions nullable p,
    fun omitted => Production.mem_omissions, Production.deletions_eq_map nullable p⟩, fun g hg =>
    ⟨refill_eq hg.start_mem, fun left hl => ?_⟩⟩
  have hproductions := hg.filter_eliminateEpsilon hl
  refine ⟨fun q => ?_, ?_, ?_⟩
  · have hq : q ∈ (g.eliminateEpsilon.productions left).filter (· ≠ [.epsilon]) ↔
        q ∈ (g.generated left).eraseDups.filter (· ≠ []) := by rw [hproductions]
    simpa only [List.mem_filter, List.mem_eraseDups, decide_eq_true_eq, mem_generated, and_comm (b := q ≠ [])] using hq
  · obtain ⟨r, hr, rfl⟩ := mem_nonTerminals.1 hl
    rw [hg.productions_eliminateEpsilon hr]
    exact nodup_eraseDups _
  · rw [hproductions]
    exact (pairwise_idxOf_eraseDups _).filter _

def doubling : Grammar where
  start := "S"
  terminals := ["a", "b"]
  rules := [
    ⟨"S", [[.nonTerminal "A", .nonTerminal "A", .nonTerminal "S"], [.epsilon], [.nonTerminal "A", .terminal "b"]]⟩,
    ⟨"A", [[.epsilon], [.terminal "a"]]⟩]

theorem doubling_deletions : doubling.WellFormed ∧ "S" ∈ doubling.nonTerminals ∧
    (Production.deletions ["A"] [.nonTerminal "A", .terminal "b", .nonTerminal "A"]).length = 2 ^ 2 ∧
    doubling.refill = doubling.eliminateEpsilon ∧
    doubling.eliminateEpsilon.productions "S" =
      [[.nonTerminal "A", .nonTerminal "A", .nonTerminal "S"], [.nonTerminal "A", .nonTerminal "S"],
        [.nonTerminal "S"], [.nonTerminal "A", .nonTerminal "A"], [.nonTerminal "A"],
        [.nonTerminal "A", .terminal "b"], [.terminal "b"]] ∧
    (∃ p ∈ doubling.productions "S", p ≠ [.epsilon] ∧
      ∃ omitted ⊆ Production.positions doubling.nullable p, [.nonTerminal "A"] = Production.without p omitted) := by
  have hg : doubling.WellFormed := .of_fault?_eq_none (by decide) (by decide) (by decide) (by decide)
  have hl : "S" ∈ doubling.nonTerminals := by decide
  obtain ⟨hversions, heliminate⟩ := deletions_exact
  obtain ⟨hrefill, hleft⟩ := heliminate doubling hg
  obtain ⟨hmem, -, -⟩ := hleft "S" hl
  have hproductions : doubling.eliminateEpsilon.productions "S" =
      [[.nonTerminal "A", .nonTerminal "A", .nonTerminal "S"], [.nonTerminal "A", .nonTerminal "S"],
        [.nonTerminal "S"], [.nonTerminal "A", .nonTerminal "A"], [.nonTerminal "A"],
        [.nonTerminal "A", .terminal "b"], [.terminal "b"]] := by with_unfolding_all decide
  refine ⟨hg, hl, (hversions _ _).2.1, hrefill, hproductions, ?_⟩
  exact ((hmem [.nonTerminal "A"]).1 (by rw [hproductions]; decide)).2

end Grammar

end NormalForms
