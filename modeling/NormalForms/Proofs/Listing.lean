import NormalForms.Grammar.Lines
import NormalForms.Grammar.Listing
import NormalForms.Proofs.Pieces

namespace NormalForms

open Grammar (Line)

def shown (names : List String) : List Char :=
  names.flatMap fun name => ' ' :: name.toList

def barred : List (List String) → List Char
  | [] => []
  | names :: rights => shown names ++ rights.flatMap fun names => ' ' :: '|' :: shown names

theorem shown_eq {names : List String} (h : names ≠ []) : shown names = ' ' :: (" ".intercalate names).toList := by
  obtain ⟨name, names, rfl⟩ := List.exists_cons_of_ne_nil h
  rw [String.toList_intercalate, List.map_cons, intercalate_cons, List.flatMap_map]
  rfl

theorem toList_padLeft (width : Nat) (s : String) :
    (padLeft width s).toList = List.replicate (width - s.toList.length) ' ' ++ s.toList :=
  String.toList_ofList

def Grammar.Line.chars (width : Nat) : Line → List Char
  | opening left rights => (padLeft width left).toList ++ ' ' :: '-' :: '>' :: rights
  | continuation rights => List.replicate width ' ' ++ ' ' :: ' ' :: '|' :: rights

def Entry.lines (e : Entry) : Layout → List Line
  | .oneLine => [.opening e.left (barred e.rights)]
  | .stacked =>
    match e.rights with
    | [] => [.opening e.left []]
    | names :: rights => .opening e.left (shown names) :: rights.map fun names => .continuation (shown names)

theorem Entry.lines_ne_nil (e : Entry) (layout : Layout) : e.lines layout ≠ [] := by
  cases layout with
  | oneLine => simp [lines]
  | stacked => rw [lines]; split <;> simp

theorem Entry.toList_continuation {names : List String} (h : names ≠ []) (width : Nat) (layout : Layout) :
    (continuation width (" ".intercalate names) layout).toList =
      match layout with
      | .oneLine => ' ' :: '|' :: shown names
      | .stacked => '\n' :: Line.chars width (.continuation (shown names)) := by
  cases layout <;> simp [continuation, Line.chars, shown_eq h, toList_padLeft]

theorem Entry.toList_plaintext {e : Entry} (h : ∀ names ∈ e.rights, names ≠ []) (width : Nat) (layout : Layout) :
    (e.plaintext width layout).toList = ['\n'].intercalate ((e.lines layout).map (Line.chars width)) := by
  obtain ⟨left, rights⟩ := e
  cases rights with
  | nil => cases layout <;> simp [plaintext, lines, barred, Line.chars]
  | cons names rights =>
      obtain ⟨hn, hr⟩ := List.forall_mem_cons.1 h
      have hmore := List.flatMap_congr fun names hm => toList_continuation (hr names hm) width layout
      simp only [plaintext, List.map_cons, String.toList_append, String.toList_join, List.map_map, List.flatMap_map,
        Function.comp_def, hmore]
      cases layout with
      | oneLine => simp [lines, barred, Line.chars, shown_eq hn]
      | stacked => simp [lines, Line.chars, shown_eq hn, intercalate_cons, List.flatMap_map]

structure Legible (name : String) : Prop where
  ne_empty : name ≠ ""
  blankFree : BlankFree name.toList
  arrowFree : ArrowFree name.toList

theorem Legible.isWord {name : String} (h : Legible name) : IsWord name :=
  ⟨h.ne_empty, h.blankFree⟩

theorem words_append_names (cs : List Char) {names : List String} (h : ∀ name ∈ names, IsWord name) :
    words (cs ++ shown names) = words cs ++ names := by
  induction names generalizing cs with
  | nil => simp [shown]
  | cons name names ih =>
      obtain ⟨hn, hm⟩ := List.forall_mem_cons.1 h
      have hcs : cs ++ shown (name :: names) = cs ++ ' ' :: (name.toList ++ shown names) := rfl
      rw [hcs, words_append_blank isBlank_space, ih _ hm, words_toList hn, List.singleton_append]

theorem words_append_shown (cs : List Char) {names : List String} (h : ∀ name ∈ names, Legible name) :
    words (cs ++ shown names) = words cs ++ names :=
  words_append_names cs fun name hn => (h name hn).isWord

theorem arrowFree_append_shown {cs : List Char} (hcs : ArrowFree cs) {names : List String}
    (h : ∀ name ∈ names, Legible name) : ArrowFree (cs ++ shown names) := by
  induction names generalizing cs with
  | nil => simpa [shown] using hcs
  | cons name names ih =>
      obtain ⟨hn, hm⟩ := List.forall_mem_cons.1 h
      exact (arrowFree_append_cons (by decide) (by decide)).2 ⟨hcs, ih hn.arrowFree hm⟩

def Separable (names : List String) : Prop :=
  names ≠ [] ∧ ∀ name ∈ names, Legible name ∧ '|' ∉ name.toList

namespace Separable

variable {names : List String}

theorem legible (h : Separable names) : ∀ name ∈ names, Legible name :=
  fun name hn => (h.2 name hn).1

theorem words_shown (h : Separable names) : words (shown names) = names :=
  words_append_shown [] h.legible

theorem arrowFree_shown (h : Separable names) : ArrowFree (shown names) :=
  arrowFree_append_shown arrowFree_nil h.legible

theorem not_mem_shown (h : Separable names) : '|' ∉ shown names := by
  simp only [shown, List.mem_flatMap, List.mem_cons, not_exists, not_and, not_or]
  exact fun name hn => ⟨by decide, (h.2 name hn).2⟩

end Separable

theorem arrowFree_append_bars {cs : List Char} (hcs : ArrowFree cs) {rights : List (List String)}
    (h : ∀ names ∈ rights, Separable names) :
    ArrowFree (cs ++ rights.flatMap fun names => ' ' :: '|' :: shown names) := by
  induction rights generalizing cs with
  | nil => simpa using hcs
  | cons names rights ih =>
      obtain ⟨hn, hr⟩ := List.forall_mem_cons.1 h
      have hmore := ih hn.arrowFree_shown hr
      exact (arrowFree_append_cons (by decide) (by decide)).2 ⟨hcs, hmore.cons (by decide)⟩

theorem arrowFree_barred {rights : List (List String)} (h : ∀ names ∈ rights, Separable names) :
    ArrowFree (barred rights) := by
  cases rights with
  | nil => exact arrowFree_nil
  | cons names rights =>
      obtain ⟨hn, hr⟩ := List.forall_mem_cons.1 h
      exact arrowFree_append_bars hn.arrowFree_shown hr

namespace Grammar

theorem splitAlternatives_append_bar (cs ds : List Char) :
    splitAlternatives (cs ++ '|' :: ds) = splitAlternatives cs ++ splitAlternatives ds := by
  simp only [splitAlternatives, List.splitOn_append_cons_self, List.map_append, List.filter_append]

theorem splitAlternatives_eq_singleton {cs : List Char} (h : '|' ∉ cs) (hw : words cs ≠ []) :
    splitAlternatives cs = [words cs] := by
  simp [splitAlternatives, List.splitOn_eq_singleton h, hw]

theorem ne_nil_of_mem_splitAlternatives {cs : List Char} {names : List String} (h : names ∈ splitAlternatives cs) :
    names ≠ [] := by
  simpa using (List.mem_filter.1 h).2

theorem mem_splitAlternatives {cs : List Char} {names : List String} (h : names ∈ splitAlternatives cs) {name : String}
    (hn : name ∈ names) : IsWord name ∧ name.toList <:+: cs ∧ '|' ∉ name.toList := by
  obtain ⟨piece, hp, rfl⟩ := List.mem_map.1 (List.mem_of_mem_filter h)
  rw [List.splitOn_eq_splitOnP] at hp
  obtain ⟨hpiece, hbar⟩ := mem_splitOnP hp
  obtain ⟨hword, hm⟩ := mem_words hn
  refine ⟨hword, hm.trans hpiece, fun hc => ?_⟩
  simpa using hbar '|' (hm.subset hc)

theorem splitAlternatives_shown {names : List String} (h : Separable names) :
    splitAlternatives (shown names) = [names] := by
  rw [splitAlternatives_eq_singleton h.not_mem_shown (by rw [h.words_shown]; exact h.1), h.words_shown]

theorem splitAlternatives_barred {rights : List (List String)} (h : ∀ names ∈ rights, Separable names) :
    splitAlternatives (barred rights) = rights := by
  cases rights with
  | nil => simp [barred, splitAlternatives, words_nil]
  | cons names rights =>
      rw [barred]
      induction rights generalizing names with
      | nil => simpa using splitAlternatives_shown (h names List.mem_cons_self)
      | cons next rights ih =>
          obtain ⟨hn, hr⟩ := List.forall_mem_cons.1 h
          have hwords : words (shown names ++ [' ']) = names := by
            rw [words_append_blank isBlank_space, hn.words_shown, words_nil, List.append_nil]
          have hbar : '|' ∉ shown names ++ [' '] := by simp [hn.not_mem_shown]
          have hfirst : splitAlternatives (shown names ++ [' ']) = [names] := by
            rw [splitAlternatives_eq_singleton hbar (by rw [hwords]; exact hn.1), hwords]
          calc splitAlternatives (shown names ++ (next :: rights).flatMap fun names => ' ' :: '|' :: shown names)
              = splitAlternatives ((shown names ++ [' ']) ++ '|' ::
                  (shown next ++ rights.flatMap fun names => ' ' :: '|' :: shown names)) := by simp
            _ = names :: next :: rights := by
                rw [splitAlternatives_append_bar, hfirst, ih next hr, List.singleton_append]

end Grammar

end NormalForms
