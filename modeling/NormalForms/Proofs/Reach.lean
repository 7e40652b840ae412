import Mathlib.Logic.Relation
import NormalForms.Reach

namespace NormalForms

variable {α : Type}

def Leads (edges : List (α × α)) : α → α → Prop :=
  Relation.ReflTransGen fun a b => (a, b) ∈ edges

theorem Leads.mono {edges more : List (α × α)} (h : ∀ e ∈ edges, e ∈ more) {a b : α} (hl : Leads edges a b) :
    Leads more a b :=
  Relation.ReflTransGen.mono (fun _ _ he => h _ he) a b hl

theorem Leads.eq_of_no_edge {edges : List (α × α)} {a b : α} (h : ∀ e ∈ edges, e.1 ≠ a) (hl : Leads edges a b) :
    b = a := by
  rcases Relation.ReflTransGen.cases_head hl with he | ⟨c, he, -⟩
  · exact he.symm
  · exact absurd rfl (h _ he)

variable [DecidableEq α]

theorem mem_targetsOf {a b : α} {edges : List (α × α)} : b ∈ targetsOf a edges ↔ (a, b) ∈ edges := by
  simp [targetsOf]

theorem mem_withoutSource {a : α} {e : α × α} {edges : List (α × α)} :
    e ∈ withoutSource a edges ↔ e ∈ edges ∧ e.1 ≠ a := by
  simp [withoutSource]

theorem targetsOf_append (a : α) (edges more : List (α × α)) :
    targetsOf a (edges ++ more) = targetsOf a edges ++ targetsOf a more := by
  simp [targetsOf]

theorem targetsOf_withoutSource (a b : α) (edges : List (α × α)) :
    targetsOf b (withoutSource a edges) = if b = a then [] else targetsOf b edges := by
  simp only [targetsOf, withoutSource, List.filter_filter]
  split
  · rename_i hb
    simp [hb]
  · rename_i hb
    congr 1
    apply List.filter_congr
    intro e _
    by_cases he : e.1 = b
    · simp [he, hb]
    · simp [he]

/-- The search does not depend on the order of the edges, as long as the targets of each member come in one order. -/
theorem search_congr {edges more : List (α × α)} (h : ∀ a, targetsOf a edges = targetsOf a more)
    (seen pending : List α) : search edges seen pending = search more seen pending := by
  induction edges, seen, pending using search.induct generalizing more with
  | case1 => simp [search]
  | case2 edges seen a pending ha ih => rw [search, if_pos ha, search, if_pos ha, ih h]
  | case3 edges seen a pending ha ih =>
      rw [search, if_neg ha, search, if_neg ha, ← h a]
      apply ih
      intro b
      rw [targetsOf_withoutSource, targetsOf_withoutSource, h b]

/-- A path either avoids the edges of a member, or goes on from the last time it comes there. -/
theorem Leads.avoid {edges : List (α × α)} {b c : α} (a : α) (hl : Leads edges b c) :
    Leads (withoutSource a edges) b c ∨ c = a ∨ ∃ t ∈ targetsOf a edges, Leads (withoutSource a edges) t c := by
  induction hl using Relation.ReflTransGen.head_induction_on with
  | refl => exact .inl .refl
  | @head b d he _ ih =>
      rcases ih with hd | hc
      · by_cases hb : b = a
        · subst hb
          exact .inr (.inr ⟨d, mem_targetsOf.2 he, hd⟩)
        · exact .inl (.head (mem_withoutSource.2 ⟨he, hb⟩) hd)
      · exact .inr hc

/-- What a member and others lead to, said without the edges of the member. -/
theorem exists_leads_cons {edges : List (α × α)} {pending : List α} {a b : α} :
    (∃ c ∈ a :: pending, Leads edges c b) ↔
      b = a ∨ ∃ c ∈ pending ++ targetsOf a edges, Leads (withoutSource a edges) c b := by
  have hsub : ∀ e ∈ withoutSource a edges, e ∈ edges := fun e he => (mem_withoutSource.1 he).1
  constructor
  · rintro ⟨c, hc, hl⟩
    rcases hl.avoid a with hl | rfl | ⟨t, ht, hl⟩
    · rcases List.mem_cons.1 hc with rfl | hc
      · exact .inl (hl.eq_of_no_edge fun e he => (mem_withoutSource.1 he).2)
      · exact .inr ⟨c, List.mem_append_left _ hc, hl⟩
    · exact .inl rfl
    · exact .inr ⟨t, List.mem_append_right _ ht, hl⟩
  · rintro (rfl | ⟨c, hc, hl⟩)
    · exact ⟨b, List.mem_cons_self, .refl⟩
    · rcases List.mem_append.1 hc with hc | hc
      · exact ⟨c, List.mem_cons_of_mem a hc, hl.mono hsub⟩
      · exact ⟨a, List.mem_cons_self, .head (mem_targetsOf.1 hc) (hl.mono hsub)⟩

theorem mem_search {edges : List (α × α)} {seen pending : List α} (h : ∀ e ∈ edges, e.1 ∉ seen) {b : α} :
    b ∈ search edges seen pending ↔ b ∈ seen ∨ ∃ a ∈ pending, Leads edges a b := by
  induction edges, seen, pending using search.induct with
  | case1 => simp [search]
  | case2 edges seen a pending ha ih =>
      rw [search, if_pos ha, ih h]
      constructor
      · rintro (hb | ⟨c, hc, hl⟩)
        · exact .inl hb
        · exact .inr ⟨c, List.mem_cons_of_mem a hc, hl⟩
      · rintro (hb | ⟨c, hc, hl⟩)
        · exact .inl hb
        · rcases List.mem_cons.1 hc with rfl | hc
          · rw [hl.eq_of_no_edge fun e he heq => h e he (heq ▸ ha)]
            exact .inl ha
          · exact .inr ⟨c, hc, hl⟩
  | case3 edges seen a pending ha ih =>
      have hnew : ∀ e ∈ withoutSource a edges, e.1 ∉ seen ++ [a] := by
        intro e he
        obtain ⟨he, hne⟩ := mem_withoutSource.1 he
        simp [h e he, hne]
      rw [search, if_neg ha, ih hnew, exists_leads_cons, List.mem_append, List.mem_singleton, or_assoc]

/-- The search finds exactly the members at the ends of paths that begin at a source. -/
theorem mem_reach {edges : List (α × α)} {sources : List α} {b : α} :
    b ∈ reach edges sources ↔ ∃ a ∈ sources, Leads edges a b := by
  simp [reach, mem_search]

end NormalForms
