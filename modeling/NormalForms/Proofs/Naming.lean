import NormalForms.Grammar.Chomsky
import NormalForms.Proofs.Fresh
import NormalForms.Proofs.Productions

namespace NormalForms

namespace Helper

def isLink : Helper → Bool
  | wrapper _ => false
  | link .. => true

def base (count : Nat) : Helper → String
  | wrapper a => "T_" ++ a
  | link left _ _ => left ++ "_" ++ toString (count + 1)

theorem base_ne_empty (count : Nat) (h : Helper) : h.base count ≠ "" := by
  cases h <;> simp [base]

/-- A helper gets the first free name for its text, which is then taken for those that follow. -/
theorem naming_cons (taken : List String) (count : Nat) (h : Helper) (helpers : List Helper) :
    naming taken count (h :: helpers) = (h, primed taken (h.base count)) ::
      naming (primed taken (h.base count) :: taken) (count + [h].countP isLink) helpers := by
  cases h <;> rfl

theorem naming_append (taken : List String) (count : Nat) (hs ks : List Helper) :
    naming taken count (hs ++ ks) = naming taken count hs ++
      naming (((naming taken count hs).map Prod.snd).reverse ++ taken) (count + hs.countP isLink) ks := by
  induction hs generalizing taken count with
  | nil => rfl
  | cons h hs ih =>
      have hcount : count + (h :: hs).countP isLink = count + [h].countP isLink + hs.countP isLink := by
        rw [← List.singleton_append, List.countP_append, Nat.add_assoc]
      rw [List.cons_append, naming_cons, ih, naming_cons taken count h hs, hcount, List.map_cons, List.reverse_cons,
        List.append_assoc, List.singleton_append]
      rfl

theorem map_fst_naming (taken : List String) (count : Nat) (helpers : List Helper) :
    (naming taken count helpers).map Prod.fst = helpers := by
  induction helpers generalizing taken count with
  | nil => rfl
  | cons h helpers ih =>
      rw [naming_cons, List.map_cons, ih]

theorem free_of_mem_naming {taken : List String} {count : Nat} {helpers : List Helper} {e : Helper × String}
    (he : e ∈ naming taken count helpers) : e.2 ∉ taken ∧ e.2 ≠ "" := by
  induction helpers generalizing taken count with
  | nil => exact absurd he List.not_mem_nil
  | cons h helpers ih =>
      rw [naming_cons] at he
      rcases List.mem_cons.1 he with rfl | he
      · exact ⟨primed_not_mem taken _, primed_ne_empty taken (base_ne_empty count h)⟩
      · obtain ⟨ht, hne⟩ := ih he
        exact ⟨fun hm => ht (List.mem_cons_of_mem _ hm), hne⟩

theorem nodup_map_snd_naming (taken : List String) (count : Nat) (helpers : List Helper) :
    ((naming taken count helpers).map Prod.snd).Nodup := by
  induction helpers generalizing taken count with
  | nil => exact List.nodup_nil
  | cons h helpers ih =>
      rw [naming_cons, List.map_cons, List.nodup_cons]
      refine ⟨fun hm => ?_, ih _ _⟩
      obtain ⟨e, hm, hs⟩ := List.mem_map.1 hm
      exact (free_of_mem_naming hm).1 (hs ▸ List.mem_cons_self)

end Helper

namespace Grammar

variable {g : Grammar}

def helperName (g : Grammar) (h : Helper) : String :=
  (g.helperNames.lookup h).getD ""

theorem mem_helperNames {h : Helper} (hh : h ∈ g.helpers) : (h, g.helperName h) ∈ g.helperNames := by
  have hm : h ∈ g.helperNames.map Prod.fst := by rwa [helperNames, Helper.map_fst_naming]
  obtain ⟨e, he, rfl⟩ := List.mem_map.1 hm
  rw [helperName]
  cases hl : g.helperNames.lookup e.1 with
  | none => simpa using List.lookup_eq_none_iff.1 hl e he
  | some name =>
      obtain ⟨l, m, hlm, -⟩ := List.lookup_eq_some_iff.1 hl
      rw [hlm]
      exact List.mem_append_right l List.mem_cons_self

theorem helperName_free {h : Helper} (hh : h ∈ g.helpers) :
    isDeclarable (g.helperName h) = true ∧ g.helperName h ∉ g.terminals ∧ g.helperName h ∉ g.nonTerminals := by
  obtain ⟨ht, hne⟩ := Helper.free_of_mem_naming (mem_helperNames hh)
  simp only [takenNames, List.mem_append, not_or] at ht
  exact ⟨isDeclarable_iff.2 ⟨hne, ht.1.1⟩, ht.1.2, ht.2⟩

theorem helperName_inj {h k : Helper} (hh : h ∈ g.helpers) (hk : k ∈ g.helpers)
    (he : g.helperName h = g.helperName k) : h = k := by
  have hinj := List.inj_on_of_nodup_map (Helper.nodup_map_snd_naming g.takenNames 0 g.helpers)
    (mem_helperNames hh) (mem_helperNames hk) he
  exact congrArg Prod.fst hinj

theorem helpers_nodup (g : Grammar) : g.helpers.Nodup :=
  nodup_eraseDups _

theorem helperNames_eq (g : Grammar) : g.helperNames = g.helpers.map fun h => (h, g.helperName h) := by
  have hkeys : g.helperNames.map Prod.fst = g.helpers := Helper.map_fst_naming _ _ _
  have hpairs : ∀ e ∈ g.helperNames, e = (e.1, g.helperName e.1) := by
    intro e he
    have hm : e.1 ∈ g.helpers := hkeys ▸ List.mem_map_of_mem he
    have hn : (g.helperNames.map Prod.fst).Nodup := hkeys ▸ g.helpers_nodup
    exact List.inj_on_of_nodup_map hn he (mem_helperNames hm) rfl
  conv_rhs => rw [← hkeys, List.map_map]
  exact (List.map_id' _).symm.trans (List.map_congr_left hpairs)

/-- The name of a helper depends on the helpers before it only. -/
theorem helperName_eq {before after : List Helper} {h : Helper} (he : g.helpers = before ++ h :: after) :
    g.helperName h =
      primed ((before.map g.helperName).reverse ++ g.takenNames) (h.base (before.countP Helper.isLink)) := by
  have hnames := g.helperNames_eq
  rw [helperNames, he, Helper.naming_append, List.map_append] at hnames
  obtain ⟨hbefore, hafter⟩ := List.append_inj hnames (by
    rw [List.length_map, ← List.length_map (f := Prod.fst), Helper.map_fst_naming])
  rw [Helper.naming_cons, List.map_cons, hbefore, List.map_map, Nat.zero_add] at hafter
  exact (congrArg Prod.snd (List.cons.inj hafter).1).symm

end Grammar

end NormalForms
