import NormalForms.Proofs.Description

namespace NormalForms

def unlessFault {ε α : Type} (fault? : Option ε) (a : α) : Except ε α :=
  match fault? with
  | some e => .error e
  | none => .ok a

theorem unlessFault_bind {ε α β : Type} (fault? : Option ε) (a : α) (f : α → Except ε β) :
    unlessFault fault? a >>= f = unlessFault fault? () >>= fun _ => f a := by
  cases fault? <;> rfl

theorem unlessFault_pure {ε α : Type} (fault? : Option ε) (a : α) :
    (unlessFault fault? () >>= fun _ => pure a) = unlessFault fault? a := by
  cases fault? <;> rfl

theorem unlessFault_bind_unlessFault {ε α : Type} (fault? more? : Option ε) (a : α) :
    (unlessFault fault? () >>= fun _ => unlessFault more? a) = unlessFault (fault?.or more?) a := by
  cases fault? <;> rfl

theorem unlessFault_findSome?_cons {ε α β : Type} (fault? : α → Option ε) (a : α) (l : List α) (b : β) :
    unlessFault ((a :: l).findSome? fault?) b =
      unlessFault (fault? a) () >>= fun _ => unlessFault (l.findSome? fault?) b := by
  rw [List.findSome?_cons]
  cases fault? a <;> rfl

/-- A loop whose steps check one item each and go on with all that has been seen. -/
theorem foldlM_eq_unlessFault {ε α β : Type} {f : β → α → Except ε β} {fault? : α → Option ε} {state : List α → β}
    (step : ∀ seen a, f (state seen) a = unlessFault (fault? a) (state (seen ++ [a]))) (seen l : List α) :
    l.foldlM f (state seen) = unlessFault (l.findSome? fault?) (state (seen ++ l)) := by
  induction l generalizing seen with
  | nil => simp [unlessFault, pure, Except.pure]
  | cons a l ih =>
      rw [List.foldlM_cons, step, unlessFault_bind, ih, unlessFault_findSome?_cons, List.append_assoc,
        List.singleton_append]

theorem forM_eq_unlessFault {ε α : Type} {f : α → Except ε Unit} {fault? : α → Option ε}
    (step : ∀ a, f a = unlessFault (fault? a) ()) (l : List α) : l.forM f = unlessFault (l.findSome? fault?) () := by
  rw [List.forM_eq_forM]
  induction l with
  | nil => rfl
  | cons a l ih => rw [List.forM_cons, step, ih, unlessFault_findSome?_cons]

namespace Description

variable {d e : Description}

theorem checkState_automaton (d : Description) (q : String) :
    d.automaton.checkState q = unlessFault (d.stateFault? q) () := by
  by_cases h : q ∈ d.states <;> simp [Automaton.checkState, stateFault?, unlessFault, automaton, h]

theorem readLabel_automaton (d : Description) (text : String) :
    d.automaton.readLabel text = unlessFault (d.labelFault? text) (.ofText text) := by
  unfold Automaton.readLabel labelFault?
  cases Label.ofText text with
  | empty => rfl
  | letter a => by_cases h : a ∈ d.alphabet <;> simp [unlessFault, automaton, h]

def withFinals (d : Description) (finals : List String) : Description :=
  { d with finals }

def withRows (d : Description) (transitions : List Row) : Description :=
  { d with transitions }

@[simp] theorem withFinals_stateFault? (finals : List String) (q : String) :
    (d.withFinals finals).stateFault? q = d.stateFault? q :=
  rfl

theorem withFinal_automaton (d : Description) (seen : List String) (q : String) :
    (d.withFinals seen).automaton.withFinal q = (d.withFinals (seen ++ [q])).automaton := by
  apply Automaton.eq_of_mem_iff
  case finals => simp [automaton, Automaton.withFinal, withFinals, or_comm]
  all_goals intros; rfl

theorem withRow_automaton (d : Description) (seen : List Row) (r : Row) :
    (d.withRows seen).automaton.withRow r.departure r.targets = (d.withRows (seen ++ [r])).automaton := by
  apply Automaton.eq_of_mem_iff
  case transitions => simp [automaton, Automaton.withRow, withRows]
  case rows => simp [automaton, Automaton.withRow, withRows, or_comm]
  all_goals intros; rfl

/-- After some final states the automaton is that of the description with these alone. -/
theorem addFinal_automaton (d : Description) (seen : List String) (q : String) :
    (d.withFinals seen).automaton.addFinal q =
      unlessFault (d.stateFault? q) (d.withFinals (seen ++ [q])).automaton := by
  rw [Automaton.addFinal, checkState_automaton, withFinal_automaton, unlessFault_pure, withFinals_stateFault?]

/-- After some rows the automaton is that of the description with these alone. -/
theorem addRow_automaton (d : Description) (seen : List Row) (r : Row) :
    (d.withRows seen).automaton.addRow r = unlessFault (d.rowFault? r) (d.withRows (seen ++ [r])).automaton := by
  have htargets : r.targets.forM (d.withRows seen).automaton.checkState =
      unlessFault (r.targets.findSome? d.stateFault?) () :=
    forM_eq_unlessFault (checkState_automaton (d.withRows seen)) r.targets
  have hrow := withRow_automaton d seen r
  rw [Row.departure] at hrow
  rw [Automaton.addRow, checkState_automaton, readLabel_automaton, unlessFault_bind (labelFault? _ _), htargets,
    hrow, unlessFault_pure, unlessFault_bind_unlessFault, unlessFault_bind_unlessFault, rowFault?]
  rfl

/-- The automaton that grows with each final state and each row is the one that is made from all of them at once, and
the first fault on the way is the first one of the description. -/
theorem assemble_eq (d : Description) : Automaton.assemble d = Automaton.ofDescription d := by
  have hd : Automaton.ofDescription d = unlessFault d.fault? d.automaton := by
    rw [Automaton.ofDescription]
    cases d.fault? <;> rfl
  have hletters : (OrderedSet.ofList d.alphabet).toList.findSome? letterFault? =
      ((OrderedSet.ofList d.alphabet).toList.find? (Label.ofText · = .empty)).map (.automaton .epsilonLetter) := by
    rw [List.find?_eq_findSome?_guard, List.map_findSome?]
    congr 1
    funext a
    by_cases h : Label.ofText a = .empty <;> simp [letterFault?, Option.guard, h]
  have hfinals := foldlM_eq_unlessFault (addFinal_automaton (d.withRows [])) [] d.finals
  have hrows := foldlM_eq_unlessFault (addRow_automaton d) [] d.transitions
  have hloops : (d.finals.foldlM Automaton.addFinal ((d.withRows []).withFinals []).automaton >>=
      fun opened => d.transitions.foldlM Automaton.addRow opened) =
      unlessFault ((d.finals.findSome? d.stateFault?).or (d.transitions.findSome? d.rowFault?)) d.automaton := by
    rw [hfinals, unlessFault_bind, ← unlessFault_bind_unlessFault]
    exact congrArg _ (funext fun _ => hrows)
  rw [hd, fault?, hletters, Automaton.assemble]
  dsimp only
  cases (OrderedSet.ofList d.alphabet).toList.find? (Label.ofText · = .empty) with
  | some a => rfl
  | none =>
      by_cases hi : d.initial ∈ d.states
      · have hm : d.initial ∈ OrderedSet.ofList d.states := OrderedSet.mem_ofList.2 hi
        simp only [initialFault?, if_pos hi, hm, not_true_eq_false, if_false, Option.map_none, Option.none_or]
        exact hloops
      · have hm : d.initial ∉ OrderedSet.ofList d.states := mt OrderedSet.mem_ofList.1 hi
        simp only [initialFault?, if_neg hi, hm, not_false_eq_true, if_true]
        rfl

end Description

end NormalForms
