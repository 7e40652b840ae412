import NormalForms.Proofs.Conversions
import NormalForms.Proofs.Path
import NormalForms.Proofs.Worklist

namespace NormalForms.Automaton

variable {fa : Automaton} {states : OrderedSet String}

theorem accepts_append (fa : Automaton) (seen rest : List String) :
    fa.accepts (seen ++ rest) = (seen.all (· ∈ fa.alphabet) && fa.acceptsFrom (fa.statesAfter seen) rest) :=
  fa.acceptsFrom_append _ seen rest

theorem accepts_eq_false_of_not_mem {a : String} {word : List String} (hm : a ∈ word) (ha : a ∉ fa.alphabet) :
    fa.accepts word = false := by
  have hall : word.all (· ∈ fa.alphabet) = false := List.all_eq_false.2 ⟨a, hm, by simpa using ha⟩
  have happ := fa.accepts_append word []
  rwa [List.append_nil, hall, Bool.false_and] at happ

theorem Valid.next_eq_empty (hv : fa.Valid) {a : String} (ha : a ∉ fa.alphabet) : fa.next states a = ∅ := by
  refine OrderedSet.ext_mem fun q => ?_
  simp only [mem_next, OrderedSet.not_mem_empty, iff_false]
  rintro ⟨p, -, r, ht, -⟩
  exact ha (hv.label_mem _ (hv.departure_mem _ ht) a rfl)

/-- Where reading may stop, the rest of the word is rejected in any case: no transition reads the letter, or no state is
left to read on from. -/
theorem Valid.readFrom_eq (hv : fa.Valid) {stops : String → OrderedSet String → Bool}
    (hs : ∀ a states, stops a states = true → fa.givesUp a states = true) (states : OrderedSet String)
    (word : List String) : fa.readFrom stops states word = fa.acceptsFrom states word := by
  induction word generalizing states with
  | nil => rfl
  | cons a word ih =>
      rw [readFrom, acceptsFrom, ih]
      by_cases ha : a ∈ fa.alphabet
      · by_cases hstop : stops a (fa.next states a) = true
        · have hnext : fa.next states a = ∅ := by simpa [givesUp, ha] using hs _ _ hstop
          rw [hnext, acceptsFrom_empty, Bool.and_false, Bool.and_false]
        · rw [Bool.not_eq_true] at hstop
          rw [hstop, decide_eq_true ha, Bool.not_false]
      · rw [hv.next_eq_empty ha, acceptsFrom_empty, Bool.and_false, Bool.and_false]

/-- An automaton accepts the words that the paths from its initial state to a final one read, and it makes no difference
which of the occasions are used on which reading may be given up. -/
theorem accepts_correct (h : fa.Built) (word : List String) :
    (fa.accepts word = true ↔ ∃ q ∈ fa.finals, fa.Path fa.initial word q) ∧
    (∀ a ∈ word, a ∉ fa.alphabet → fa.accepts word = false) ∧
    ∀ stops : String → OrderedSet String → Bool, (∀ a states, stops a states = true → fa.givesUp a states = true) →
      fa.readFrom stops fa.initialStates word = fa.accepts word :=
  ⟨h.valid.accepts_iff, fun _ => accepts_eq_false_of_not_mem, fun _ hs => h.valid.readFrom_eq hs _ word⟩

theorem circling_accepts_correct : circling.Built ∧ (∃ q ∈ circling.finals, circling.Path "p" ["a"] q) ∧
    ¬ (∃ q ∈ circling.finals, circling.Path "p" ["a", "b"] q) ∧ "c" ∉ circling.alphabet ∧
    circling.accepts ["a", "c", "a"] = false ∧
    circling.readFrom circling.givesUp circling.initialStates ["a"] = true := by
  obtain ⟨hpath, -, hread⟩ := accepts_correct circling_built ["a"]
  have ha : circling.accepts ["a"] = true := by decide +kernel
  have hn : ¬ circling.accepts ["a", "b"] = true := by decide +kernel
  have hc : "c" ∉ circling.alphabet := by decide +kernel
  refine ⟨circling_built, hpath.1 ha, mt (accepts_correct circling_built ["a", "b"]).1.2 hn, hc, ?_, ?_⟩
  · exact (accepts_correct circling_built ["a", "c", "a"]).2.1 "c" (by simp) hc
  · exact (hread circling.givesUp fun _ _ h => h).trans ha

theorem isDeterministic_iff : fa.isDeterministic = true ↔
    (∀ t ∈ fa.transitions, t.label ≠ .empty) ∧ ∀ d, (fa.targets d).toList.length ≤ 1 := by
  simp only [isDeterministic, List.all_eq_true, Bool.and_eq_true, decide_eq_true_eq, OrderedSet.mem_toList]
  constructor
  · refine fun h => ⟨fun t ht => (h t ht).1, fun d => ?_⟩
    cases hd : (fa.targets d).toList with
    | nil => exact Nat.zero_le 1
    | cons q qs =>
        have hq : q ∈ fa.targets d := by simp [← OrderedSet.mem_toList, hd]
        rw [← hd]
        exact (h _ (mem_targets.1 hq)).2
  · exact fun h t ht => ⟨h.1 t ht, h.2 t.toDeparture⟩

theorem next_singleton (h : ∀ t ∈ fa.transitions, t.label ≠ .empty) (q a : String) :
    fa.next (.ofList [q]) a = fa.targets ⟨q, .letter a⟩ := by
  rw [next, closure_eq_self h]
  refine OrderedSet.ext_mem fun p => ?_
  simp [mem_move, mem_targets]

theorem initialStates_eq (h : ∀ t ∈ fa.transitions, t.label ≠ .empty) : fa.initialStates = .ofList [fa.initial] :=
  closure_eq_self h

theorem length_next_le_one (h : fa.isDeterministic = true) (hs : states.toList.length ≤ 1) (a : String) :
    (fa.next states a).toList.length ≤ 1 := by
  obtain ⟨hempty, htargets⟩ := isDeterministic_iff.1 h
  rcases OrderedSet.eq_empty_or_eq_singleton hs with rfl | ⟨q, rfl⟩
  · rw [next_empty]
    exact Nat.zero_le 1
  · rw [next_singleton hempty]
    exact htargets _

theorem length_foldl_next_le_one (h : fa.isDeterministic = true) (hs : states.toList.length ≤ 1) (word : List String) :
    (word.foldl fa.next states).toList.length ≤ 1 := by
  induction word generalizing states with
  | nil => exact hs
  | cons a word ih => exact ih (length_next_le_one h hs a)

theorem length_statesAfter_le_one (h : fa.isDeterministic = true) (word : List String) :
    (fa.statesAfter word).toList.length ≤ 1 := by
  refine length_foldl_next_le_one h ?_ word
  rw [initialStates_eq (isDeterministic_iff.1 h).1]
  exact le_rfl

theorem acceptsFrom_singleton (h : fa.isDeterministic = true) (q : String) (word : List String) :
    fa.acceptsFrom (.ofList [q]) word = fa.walkFrom q word := by
  obtain ⟨hempty, htargets⟩ := isDeterministic_iff.1 h
  induction word generalizing q with
  | nil => exact Bool.or_false _
  | cons a word ih =>
      rw [acceptsFrom, walkFrom, next_singleton hempty]
      rcases OrderedSet.eq_empty_or_eq_singleton (htargets ⟨q, .letter a⟩) with hnone | ⟨p, hone⟩
      · rw [hnone, acceptsFrom_empty]
        rfl
      · rw [hone, ih p]
        rfl

/-- A deterministic automaton is never in two states at once, whatever part of a word it has read, and so it accepts a
word if and only if the walk of a single state does. -/
theorem deterministic_walk (h : fa.isDeterministic = true) (word : List String) :
    (∀ seen rest, word = seen ++ rest → (fa.statesAfter seen).toList.length ≤ 1 ∧
      fa.accepts word = (seen.all (· ∈ fa.alphabet) && fa.acceptsFrom (fa.statesAfter seen) rest)) ∧
    fa.accepts word = fa.walk word := by
  constructor
  · rintro seen rest rfl
    exact ⟨length_statesAfter_le_one h seen, fa.accepts_append seen rest⟩
  · rw [accepts, initialStates_eq (isDeterministic_iff.1 h).1]
    exact acceptsFrom_singleton h fa.initial word

def stalling : Automaton where
  states := .ofList ["p", "q"]
  alphabet := .ofList ["a", "b"]
  transitions := .ofList [⟨⟨"p", .letter "a"⟩, "q"⟩, ⟨⟨"q", .letter "a"⟩, "q"⟩]
  rows := .ofList [⟨"p", .empty⟩, ⟨"p", .letter "a"⟩, ⟨"q", .letter "a"⟩, ⟨"q", .letter "b"⟩]
  initial := "p"
  finals := .ofList ["q"]

theorem stalling_built : stalling.Built := by
  let d : Description :=
    ⟨["q", "p"], ["a", "b"], [⟨"p", "epsilon", []⟩, ⟨"p", "a", ["q"]⟩, ⟨"q", "a", ["q"]⟩, ⟨"q", "b", []⟩], "p", ["q"]⟩
  have h : ofDescription d = .ok stalling := by rfl
  exact .ofDescription h

theorem stalling_walk : stalling.Built ∧ stalling.isDeterministic = true ∧ ⟨"p", .empty⟩ ∈ stalling.rows ∧
    (stalling.statesAfter ["a"]).toList.length ≤ 1 ∧ stalling.walk ["a", "a"] = true ∧
    stalling.walk ["a", "b"] = false := by
  have hd : stalling.isDeterministic = true := by decide +kernel
  have ha : stalling.accepts ["a", "a"] = true := by decide +kernel
  have hb : stalling.accepts ["a", "b"] = false := by decide +kernel
  obtain ⟨hparts, haa⟩ := deterministic_walk hd ["a", "a"]
  exact ⟨stalling_built, hd, by decide +kernel, (hparts ["a"] ["a"] rfl).1, haa.symm.trans ha,
    (deterministic_walk hd ["a", "b"]).2.symm.trans hb⟩

end NormalForms.Automaton
