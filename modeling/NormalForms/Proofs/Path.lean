import NormalForms.Proofs.Run

namespace NormalForms

theorem Label.mem_word {l : Label} {a : String} : a ∈ l.word ↔ l = .letter a := by
  cases l <;> simp [word, eq_comm]

namespace Automaton

variable {fa : Automaton} {states : OrderedSet String}

theorem Path.of_leads {p q r : String} {word : List String} (hl : Leads fa.emptyMoves p q) (h : fa.Path q word r) :
    fa.Path p word r := by
  induction hl using Relation.ReflTransGen.head_induction_on with
  | refl => exact h
  | head he _ ih => exact .step (mem_emptyMoves.1 he) ih

theorem path_nil_iff {p q : String} : fa.Path p [] q ↔ Leads fa.emptyMoves p q := by
  constructor
  · intro h
    generalize hw : [] = word at h
    induction h with
    | refl => exact .refl
    | @step t word q ht _ ih =>
        obtain ⟨⟨source, label⟩, target⟩ := t
        cases label with
        | empty => exact .head (mem_emptyMoves.2 ht) (ih hw)
        | letter a => cases hw
  · intro hl
    exact .of_leads hl (.refl q)

/-- A path that reads a word makes empty moves up to the transition with the first letter. -/
theorem path_cons_iff {p q a : String} {word : List String} :
    fa.Path p (a :: word) q ↔
      ∃ r s, Leads fa.emptyMoves p r ∧ ⟨⟨r, .letter a⟩, s⟩ ∈ fa.transitions ∧ fa.Path s word q := by
  constructor
  · intro h
    generalize hw : a :: word = read at h
    induction h with
    | refl => cases hw
    | @step t _ q ht hp ih =>
        obtain ⟨⟨source, label⟩, target⟩ := t
        cases label with
        | empty =>
            obtain ⟨r, s, hl, hr, hs⟩ := ih hw
            exact ⟨r, s, .head (mem_emptyMoves.2 ht) hl, hr, hs⟩
        | letter b =>
            obtain ⟨rfl, rfl⟩ := List.cons.inj hw
            exact ⟨source, target, .refl, ht, hp⟩
  · rintro ⟨r, s, hl, hr, hs⟩
    exact .of_leads hl (.step hr hs)

def Closed (fa : Automaton) (states : OrderedSet String) : Prop :=
  ∀ p ∈ states, ∀ q, Leads fa.emptyMoves p q → q ∈ states

theorem closed_closure (fa : Automaton) (states : OrderedSet String) : fa.Closed (fa.closure states) := by
  intro p hp q hl
  obtain ⟨r, hr, hp⟩ := mem_closure.1 hp
  exact mem_closure.2 ⟨r, hr, hp.trans hl⟩

/-- Reading a letter in all states at once keeps track of all paths. -/
theorem exists_path_from_next {a q : String} {word : List String} (hc : fa.Closed states) :
    (∃ p ∈ fa.next states a, fa.Path p word q) ↔ ∃ p ∈ states, fa.Path p (a :: word) q := by
  constructor
  · rintro ⟨s, hs, hq⟩
    obtain ⟨p, hp, r, ht, hl⟩ := mem_next.1 hs
    exact ⟨p, hp, path_cons_iff.2 ⟨p, r, .refl, ht, .of_leads hl hq⟩⟩
  · rintro ⟨p, hp, hq⟩
    obtain ⟨r, s, hl, ht, hq⟩ := path_cons_iff.1 hq
    exact ⟨s, mem_next.2 ⟨r, hc p hp r hl, s, ht, .refl⟩, hq⟩

theorem Valid.mem_alphabet_of_path (hv : fa.Valid) {p q : String} {word : List String} (h : fa.Path p word q) :
    ∀ a ∈ word, a ∈ fa.alphabet := by
  induction h with
  | refl => simp
  | step ht _ ih =>
      intro a ha
      rcases List.mem_append.1 ha with ha | ha
      · exact hv.label_mem _ (hv.departure_mem _ ht) a (Label.mem_word.1 ha)
      · exact ih a ha

/-- From a set that is closed under empty moves, a word leads to the ends of the paths that read it. -/
theorem mem_foldl_next (hc : fa.Closed states) {q : String} {word : List String} :
    q ∈ word.foldl fa.next states ↔ ∃ p ∈ states, fa.Path p word q := by
  induction word generalizing states with
  | nil =>
      simp only [List.foldl_nil, path_nil_iff]
      constructor
      · exact fun hq => ⟨q, hq, .refl⟩
      · rintro ⟨p, hp, hl⟩
        exact hc p hp q hl
  | cons a word ih =>
      have hnext : fa.Closed (fa.next states a) := fa.closed_closure _
      rw [List.foldl_cons, ih hnext, exists_path_from_next hc]

theorem Valid.acceptsFrom_iff (hv : fa.Valid) (hc : fa.Closed states) {word : List String} :
    fa.acceptsFrom states word = true ↔ ∃ q ∈ fa.finals, ∃ p ∈ states, fa.Path p word q := by
  have happ := fa.acceptsFrom_append states word []
  rw [List.append_nil] at happ
  simp only [happ, acceptsFrom, Bool.and_eq_true, List.all_eq_true, List.any_eq_true, decide_eq_true_eq,
    OrderedSet.mem_toList, mem_foldl_next hc]
  constructor
  · rintro ⟨-, q, hq, hf⟩
    exact ⟨q, hf, hq⟩
  · rintro ⟨q, hf, p, hp, hq⟩
    exact ⟨hv.mem_alphabet_of_path hq, q, ⟨p, hp, hq⟩, hf⟩

theorem exists_path_from_initialStates {q : String} {word : List String} :
    (∃ p ∈ fa.initialStates, fa.Path p word q) ↔ fa.Path fa.initial word q := by
  constructor
  · rintro ⟨p, hp, hq⟩
    exact .of_leads (mem_initialStates.1 hp) hq
  · exact fun hq => ⟨fa.initial, mem_initialStates.2 .refl, hq⟩

/-- The accepted words are those that the paths from the initial state to the final ones read. -/
theorem Valid.accepts_iff (hv : fa.Valid) {word : List String} :
    fa.accepts word = true ↔ ∃ q ∈ fa.finals, fa.Path fa.initial word q := by
  have hc : fa.Closed fa.initialStates := fa.closed_closure _
  rw [accepts, hv.acceptsFrom_iff hc]
  simp only [exists_path_from_initialStates]

end Automaton

end NormalForms
