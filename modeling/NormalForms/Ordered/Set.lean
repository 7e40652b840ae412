namespace NormalForms

open Std

/-- A finite set, kept as its members in increasing order, so that sets with the same members are equal. -/
structure OrderedSet (α : Type) [Ord α] where
  toList : List α
  increasing : toList.Pairwise (fun a b => compare a b = .lt)
deriving DecidableEq

namespace OrderedSet

variable {α β : Type} [Ord α]

def insertSorted (a : α) : List α → List α
  | [] => [a]
  | b :: l =>
    match compare a b with
    | .lt => a :: b :: l
    | .eq => b :: l
    | .gt => b :: insertSorted a l

theorem mem_insertSorted_of_eq_or_mem {a b : α} {l : List α} (h : b ∈ insertSorted a l) : b = a ∨ b ∈ l := by
  induction l with
  | nil => simpa [insertSorted] using h
  | cons c l ih =>
    rw [insertSorted] at h
    split at h <;> grind

theorem mem_insertSorted [LawfulEqOrd α] {a b : α} {l : List α} : b ∈ insertSorted a l ↔ b = a ∨ b ∈ l := by
  induction l with
  | nil => simp [insertSorted]
  | cons c l ih =>
    rw [insertSorted]
    split
    · simp
    · rename_i h
      simp [LawfulEqOrd.eq_of_compare h]
    · simp only [List.mem_cons, ih]
      grind

theorem insertSorted_increasing [TransOrd α] (a : α) {l : List α}
    (h : l.Pairwise (fun a b => compare a b = .lt)) : (insertSorted a l).Pairwise (fun a b => compare a b = .lt) := by
  induction l with
  | nil => simp [insertSorted]
  | cons b l ih =>
    obtain ⟨hb, hl⟩ := List.pairwise_cons.1 h
    rw [insertSorted]
    split
    · rename_i hab
      refine List.pairwise_cons.2 ⟨fun c hc => ?_, h⟩
      rcases List.mem_cons.1 hc with rfl | hc
      · exact hab
      · exact TransCmp.lt_trans hab (hb c hc)
    · exact h
    · rename_i hab
      refine List.pairwise_cons.2 ⟨fun c hc => ?_, ih hl⟩
      rcases mem_insertSorted_of_eq_or_mem hc with rfl | hc
      · exact OrientedCmp.lt_of_gt hab
      · exact hb c hc

theorem not_lt_of_lt [TransOrd α] {a b : α} (h : compare a b = .lt) : compare b a ≠ .lt := by
  rw [OrientedCmp.gt_of_lt h]
  decide

theorem eq_of_increasing [TransOrd α] {l m : List α} (hl : l.Pairwise (fun a b => compare a b = .lt))
    (hm : m.Pairwise (fun a b => compare a b = .lt)) (h : ∀ a, a ∈ l ↔ a ∈ m) : l = m := by
  induction l generalizing m with
  | nil => exact (List.eq_nil_iff_forall_not_mem.2 fun a ha => List.not_mem_nil ((h a).2 ha)).symm
  | cons a l ih =>
    cases m with
    | nil => exact absurd ((h a).1 List.mem_cons_self) List.not_mem_nil
    | cons b m =>
      obtain ⟨ha, hl'⟩ := List.pairwise_cons.1 hl
      obtain ⟨hb, hm'⟩ := List.pairwise_cons.1 hm
      have hab : a = b := by
        rcases List.mem_cons.1 ((h a).1 List.mem_cons_self) with h₁ | h₁
        · exact h₁
        · rcases List.mem_cons.1 ((h b).2 List.mem_cons_self) with h₂ | h₂
          · exact h₂.symm
          · exact absurd (ha b h₂) (not_lt_of_lt (hb a h₁))
      subst hab
      refine congrArg (a :: ·) (ih hl' hm' fun c => ⟨fun hc => ?_, fun hc => ?_⟩)
      · rcases List.mem_cons.1 ((h c).1 (List.mem_cons_of_mem a hc)) with rfl | h₁
        · exact absurd (ha c hc) (by simp)
        · exact h₁
      · rcases List.mem_cons.1 ((h c).2 (List.mem_cons_of_mem a hc)) with rfl | h₁
        · exact absurd (hb c hc) (by simp)
        · exact h₁

theorem toList_nodup [ReflOrd α] (s : OrderedSet α) : s.toList.Nodup := by
  refine s.increasing.imp fun {a b} h => ?_
  rintro rfl
  rw [ReflOrd.compare_self] at h
  cases h

instance : Membership α (OrderedSet α) where
  mem s a := a ∈ s.toList

instance [DecidableEq α] (a : α) (s : OrderedSet α) : Decidable (a ∈ s) :=
  inferInstanceAs (Decidable (a ∈ s.toList))

instance : EmptyCollection (OrderedSet α) where
  emptyCollection := ⟨[], .nil⟩

instance : Inhabited (OrderedSet α) where
  default := ∅

theorem mem_toList {a : α} {s : OrderedSet α} : a ∈ s.toList ↔ a ∈ s :=
  Iff.rfl

theorem ext_mem [TransOrd α] {s t : OrderedSet α} (h : ∀ a, a ∈ s ↔ a ∈ t) : s = t := by
  obtain ⟨l, hl⟩ := s
  obtain ⟨m, hm⟩ := t
  obtain rfl : l = m := eq_of_increasing hl hm h
  rfl

@[simp] theorem not_mem_empty (a : α) : a ∉ (∅ : OrderedSet α) :=
  List.not_mem_nil

theorem ne_empty_of_mem {a : α} {s : OrderedSet α} (h : a ∈ s) : s ≠ ∅ := by
  rintro rfl
  exact not_mem_empty a h

def filter (p : α → Bool) (s : OrderedSet α) : OrderedSet α where
  toList := s.toList.filter p
  increasing := s.increasing.filter p

@[simp] theorem mem_filter {p : α → Bool} {a : α} {s : OrderedSet α} : a ∈ s.filter p ↔ a ∈ s ∧ p a = true :=
  List.mem_filter

theorem filter_eq_self {p : α → Bool} {s : OrderedSet α} (h : ∀ a ∈ s, p a = true) : s.filter p = s := by
  obtain ⟨l, hl⟩ := s
  simp only [filter, mk.injEq]
  exact List.filter_eq_self.2 h

variable [TransOrd α]

def insert (a : α) (s : OrderedSet α) : OrderedSet α where
  toList := insertSorted a s.toList
  increasing := insertSorted_increasing a s.increasing

def ofList (l : List α) : OrderedSet α :=
  l.foldr insert ∅

@[simp] theorem mem_insert [LawfulEqOrd α] {a b : α} {s : OrderedSet α} : b ∈ s.insert a ↔ b = a ∨ b ∈ s :=
  mem_insertSorted

@[simp] theorem mem_ofList [LawfulEqOrd α] {a : α} {l : List α} : a ∈ ofList l ↔ a ∈ l := by
  induction l with
  | nil => simp [ofList]
  | cons b l ih => simp_all [ofList]

theorem ofList_congr [LawfulEqOrd α] {l m : List α} (h : ∀ a, a ∈ l ↔ a ∈ m) : ofList l = ofList m :=
  ext_mem fun a => by rw [mem_ofList, mem_ofList, h]

@[simp] theorem ofList_toList [LawfulEqOrd α] (s : OrderedSet α) : ofList s.toList = s :=
  ext_mem fun _ => mem_ofList

theorem eq_empty_or_eq_singleton {s : OrderedSet α} (h : s.toList.length ≤ 1) : s = ∅ ∨ ∃ a, s = ofList [a] := by
  obtain ⟨l, hl⟩ := s
  cases l with
  | nil => exact .inl rfl
  | cons a l =>
    cases l with
    | nil => exact .inr ⟨a, rfl⟩
    | cons b l => simp at h

theorem eq_singleton_of_mem [LawfulEqOrd α] {s : OrderedSet α} (h : s.toList.length ≤ 1) {a : α} (ha : a ∈ s) :
    s = ofList [a] := by
  rcases eq_empty_or_eq_singleton h with rfl | ⟨b, rfl⟩
  · exact absurd ha (not_mem_empty a)
  · rw [List.mem_singleton.1 (mem_ofList.1 ha)]

theorem singleton_ne_empty [LawfulEqOrd α] (a : α) : ofList [a] ≠ ∅ :=
  ne_empty_of_mem (mem_ofList.2 (List.mem_singleton_self a))

def map [Ord β] (f : β → α) (s : OrderedSet β) : OrderedSet α :=
  ofList (s.toList.map f)

@[simp] theorem mem_map [LawfulEqOrd α] [Ord β] {f : β → α} {b : α} {s : OrderedSet β} :
    b ∈ s.map f ↔ ∃ a ∈ s, f a = b :=
  mem_ofList.trans List.mem_map

theorem map_eq_self [LawfulEqOrd α] {f : α → α} {s : OrderedSet α} (h : ∀ a ∈ s, f a = a) : s.map f = s := by
  rw [map, List.map_congr_left h, List.map_id', ofList_toList]

instance : Union (OrderedSet α) where
  union s t := ofList (s.toList ++ t.toList)

@[simp] theorem mem_union [LawfulEqOrd α] {a : α} {s t : OrderedSet α} : a ∈ s ∪ t ↔ a ∈ s ∨ a ∈ t :=
  mem_ofList.trans List.mem_append

end OrderedSet

end NormalForms
