import NormalForms.Automaton.Subset

namespace NormalForms

def escaped (name : List Char) : List Char :=
  name.flatMap fun c => if c = '\\' ∨ c = ',' then ['\\', c] else [c]

theorem toList_escapeState (name : String) : (escapeState name).toList = escaped name.toList :=
  String.toList_ofList

theorem escaped_cons (c : Char) (name : List Char) :
    escaped (c :: name) = (if c = '\\' ∨ c = ',' then ['\\', c] else [c]) ++ escaped name :=
  List.flatMap_cons

def Ends (rest : List Char) : Prop :=
  ∀ c ∈ rest.head?, c = ','

theorem Ends.ne_escaped_cons {rest v : List Char} (h : Ends rest) (c : Char) (name : List Char) :
    rest ≠ escaped (c :: name) ++ v := by
  rintro rfl
  rw [escaped_cons] at h
  split at h
  · exact absurd (h '\\' rfl) (by decide)
  · rename_i hc
    exact hc (.inr (h c rfl))

/-- An escaped name shows where it ends, and from which name it comes. -/
theorem escaped_append_inj {x y u v : List Char} (hu : Ends u) (hv : Ends v)
    (h : escaped x ++ u = escaped y ++ v) : x = y ∧ u = v := by
  induction x generalizing y with
  | nil =>
      cases y with
      | nil => exact ⟨rfl, h⟩
      | cons d y => exact absurd h (hu.ne_escaped_cons d y)
  | cons c x ih =>
      cases y with
      | nil => exact absurd h.symm (hv.ne_escaped_cons c x)
      | cons d y =>
          rw [escaped_cons, escaped_cons, List.append_assoc, List.append_assoc] at h
          have hcd : c = d ∧ escaped x ++ u = escaped y ++ v := by
            by_cases hc : c = '\\' ∨ c = ',' <;> by_cases hd : d = '\\' ∨ d = ','
            · simpa [hc, hd] using h
            · rw [if_pos hc, if_neg hd] at h
              exact absurd (.inl (List.cons.inj h).1.symm) hd
            · rw [if_neg hc, if_pos hd] at h
              exact absurd (.inl (List.cons.inj h).1) hc
            · simpa [hc, hd] using h
          obtain ⟨rfl, hxy⟩ := hcd
          obtain ⟨rfl, huv⟩ := ih hxy
          exact ⟨rfl, huv⟩

def joined (names : List String) : List Char :=
  names.flatMap fun name => ',' :: escaped name.toList

theorem ends_joined (names : List String) : Ends (joined names) := by
  cases names with
  | nil => simp [Ends, joined]
  | cons name names => simp [Ends, joined]

theorem joined_inj {l m : List String} (h : joined l = joined m) : l = m := by
  induction l generalizing m with
  | nil =>
      cases m with
      | nil => rfl
      | cons y m => cases h
  | cons x l ih =>
      cases m with
      | nil => cases h
      | cons y m =>
          obtain ⟨hxy, hlm⟩ := escaped_append_inj (ends_joined l) (ends_joined m) (List.cons.inj h).2
          rw [String.toList_inj.1 hxy, ih hlm]

theorem toList_intercalate_escapeState (name : String) (names : List String) :
    (",".intercalate ((name :: names).map escapeState)).toList = escaped name.toList ++ joined names := by
  induction names generalizing name with
  | nil => simp [toList_escapeState, joined]
  | cons next names ih =>
      rw [List.map_cons, List.map_cons, String.intercalate_cons_cons, ← List.map_cons, String.toList_append, ih]
      simp [toList_escapeState, joined]

theorem stateKey_inj {s t : OrderedSet String} (hs : s ≠ ∅) (ht : t ≠ ∅) (h : stateKey s = stateKey t) : s = t := by
  obtain ⟨l, hl⟩ := s
  obtain ⟨m, hm⟩ := t
  cases l with
  | nil => exact absurd rfl hs
  | cons x l =>
      cases m with
      | nil => exact absurd rfl ht
      | cons y m =>
          have hk := congrArg String.toList h
          rw [stateKey, stateKey, toList_intercalate_escapeState, toList_intercalate_escapeState] at hk
          obtain ⟨hxy, hlm⟩ := escaped_append_inj (ends_joined l) (ends_joined m) hk
          obtain rfl := String.toList_inj.1 hxy
          obtain rfl := joined_inj hlm
          rfl

theorem stateKey_singleton (q : String) : stateKey (.ofList [q]) = escapeState q :=
  rfl

theorem escapeState_injective : Function.Injective escapeState := by
  intro p q h
  have hk := congrArg String.toList h
  rw [toList_escapeState, toList_escapeState] at hk
  have hnil : Ends [] := by simp [Ends]
  have hpq : escaped p.toList ++ [] = escaped q.toList ++ [] := by rw [hk]
  exact String.toList_inj.1 (escaped_append_inj hnil hnil hpq).1

theorem escaped_eq_self {name : List Char} (hc : ',' ∉ name) (hb : '\\' ∉ name) : escaped name = name := by
  induction name with
  | nil => rfl
  | cons c name ih =>
      rw [List.mem_cons, not_or] at hc hb
      have hplain : ¬ (c = '\\' ∨ c = ',') := not_or.2 ⟨Ne.symm hb.1, Ne.symm hc.1⟩
      rw [escaped_cons, if_neg hplain, ih hc.2 hb.2, List.singleton_append]

theorem escapeState_eq_self {q : String} (hc : ',' ∉ q.toList) (hb : '\\' ∉ q.toList) : escapeState q = q := by
  rw [← String.toList_inj, toList_escapeState, escaped_eq_self hc hb]

end NormalForms
