import Mathlib.Data.Set.Function
import NormalForms.Proofs.Deterministic
import NormalForms.Proofs.Worklist

namespace NormalForms

def replaced (c : Char) (text name : List Char) : List Char :=
  name.flatMap fun d => if d = c then text else [d]

/-- The commas come second, so that the backslashes put before them are not doubled. -/
theorem escaped_eq_replaced (name : List Char) :
    escaped name = replaced ',' ['\\', ','] (replaced '\\' ['\\', '\\'] name) := by
  simp only [escaped, replaced, List.flatMap_assoc]
  congr 1
  funext c
  by_cases hb : c = '\\'
  · subst hb
    rfl
  · by_cases hc : c = ','
    · subst hc
      rfl
    · simp [hb, hc]

theorem escapeState_eq_replaced (name : String) :
    escapeState name = .ofList (replaced ',' ['\\', ','] (replaced '\\' ['\\', '\\'] name.toList)) := by
  rw [← String.toList_inj, toList_escapeState, String.toList_ofList, escaped_eq_replaced]

theorem stateKey_empty : stateKey ∅ = "" :=
  rfl

theorem stateKey_nameless : stateKey (.ofList [""]) = "" := by
  decide

theorem eq_nameless_of_stateKey_eq {s : OrderedSet String} (hs : s ≠ ∅) (h : stateKey s = "") :
    s = .ofList [""] :=
  stateKey_inj hs (OrderedSet.singleton_ne_empty "") (h.trans stateKey_nameless.symm)

/-- The set that holds no state shares its name with the set that holds only the state without a name. -/
theorem stateKey_eq_iff {s t : OrderedSet String} :
    stateKey s = stateKey t ↔ s = t ∨ (s = ∅ ∧ t = .ofList [""]) ∨ (s = .ofList [""] ∧ t = ∅) := by
  constructor
  · intro h
    by_cases hs : s = ∅
    · by_cases ht : t = ∅
      · exact .inl (hs.trans ht.symm)
      · rw [hs, stateKey_empty] at h
        exact .inr (.inl ⟨hs, eq_nameless_of_stateKey_eq ht h.symm⟩)
    · by_cases ht : t = ∅
      · rw [ht, stateKey_empty] at h
        exact .inr (.inr ⟨eq_nameless_of_stateKey_eq hs h, ht⟩)
      · exact .inl (stateKey_inj hs ht h)
  · rintro (rfl | ⟨rfl, rfl⟩ | ⟨rfl, rfl⟩)
    · rfl
    · rw [stateKey_empty, stateKey_nameless]
    · rw [stateKey_empty, stateKey_nameless]

namespace Automaton

variable {fa : Automaton} {w : Worklist} {states : OrderedSet String}

def Worklist.Recorded (w : Worklist) : Prop :=
  ∀ e ∈ w.registry, e.1 = stateKey e.2 ∧ e.2 ≠ ∅

theorem recorded_opening (fa : Automaton) : fa.opening.Recorded := by
  intro e he
  rw [List.mem_singleton.1 he]
  exact ⟨rfl, initialStates_ne_empty⟩

theorem Worklist.Recorded.register (h : w.Recorded) (hs : states ≠ ∅) : (w.register states).Recorded := by
  unfold Worklist.register
  split
  · exact h
  · intro e he
    rcases List.mem_append.1 he with he | he
    · exact h e he
    · rw [List.mem_singleton.1 he]
      exact ⟨rfl, hs⟩

theorem Worklist.Recorded.foldl_follow {ms : List (String × OrderedSet String)} (h : w.Recorded)
    (hm : ∀ m ∈ ms, m.2 ≠ ∅) (source : String) : (ms.foldl (Worklist.follow source) w).Recorded := by
  induction ms generalizing w with
  | nil => exact h
  | cons m ms ih =>
      obtain ⟨hs, hms⟩ := List.forall_mem_cons.1 hm
      exact ih (h.register hs) hms

theorem Worklist.Recorded.turn (h : w.Recorded) : (fa.turn w).Recorded := by
  obtain ⟨registry, pending, transitions⟩ := w
  cases pending with
  | nil => exact h
  | cons states pending =>
      have hm : ∀ m ∈ fa.moves states, m.2 ≠ ∅ := fun ⟨_, _⟩ hm => (mem_moves.1 hm).2.2
      have hw : Worklist.Recorded ⟨registry, pending, transitions⟩ := h
      exact hw.foldl_follow hm _

theorem Worklist.Recorded.iterate (h : w.Recorded) (n : Nat) : (fa.turn^[n] w).Recorded := by
  induction n with
  | zero => exact h
  | succ n ih =>
      rw [Function.iterate_succ_apply']
      exact ih.turn

end Automaton

/-- The name of a set, made by two replacements and a join, belongs to no other set, but for the one name that two sets
share. The search never comes to the empty one of these two. -/
theorem stateKey_separates :
    (∀ s : OrderedSet String, stateKey s = ",".intercalate (s.toList.map fun name =>
      .ofList (replaced ',' ['\\', ','] (replaced '\\' ['\\', '\\'] name.toList)))) ∧
    (∀ s t : OrderedSet String,
      stateKey s = stateKey t ↔ s = t ∨ (s = ∅ ∧ t = .ofList [""]) ∨ (s = .ofList [""] ∧ t = ∅)) ∧
    Set.InjOn stateKey {s | s ≠ ∅} ∧
    ∀ (fa : Automaton) (n : Nat), ∀ e ∈ (fa.turn^[n] fa.opening).registry, e.1 = stateKey e.2 ∧ e.2 ≠ ∅ := by
  refine ⟨fun s => ?_, fun s t => stateKey_eq_iff, fun s hs t ht => stateKey_inj hs ht, fun fa n => ?_⟩
  · rw [stateKey, funext escapeState_eq_replaced]
  · exact fa.recorded_opening.iterate n

/-- The first two sets would share their name if only commas were escaped. -/
theorem commas_separates : stateKey (.ofList ["a\\", "b"]) ≠ stateKey (.ofList ["a,b"]) ∧
    stateKey ∅ = stateKey (.ofList [""]) ∧
    (",\\,,\\\\", .ofList ["", ",", "\\"]) ∈ (Automaton.commas.turn^[1] Automaton.commas.opening).registry ∧
    OrderedSet.ofList ["", ",", "\\"] ≠ ∅ := by
  obtain ⟨-, hiff, hinj, hregistry⟩ := stateKey_separates
  have hfound : (",\\,,\\\\", .ofList ["", ",", "\\"]) ∈
      (Automaton.commas.turn^[1] Automaton.commas.opening).registry := by with_unfolding_all decide
  have hsets : OrderedSet.ofList ["a\\", "b"] ≠ .ofList ["a,b"] := by decide
  exact ⟨hinj.ne (by decide : _ ≠ ∅) (by decide : _ ≠ ∅) hsets, (hiff _ _).2 (.inr (.inl ⟨rfl, rfl⟩)), hfound,
    (hregistry Automaton.commas 1 _ hfound).2⟩

end NormalForms
