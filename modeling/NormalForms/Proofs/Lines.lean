import NormalForms.Proofs.Format
import NormalForms.Proofs.Listing

namespace NormalForms.Grammar

def Spaced (cs : List Char) : Prop :=
  ∀ c ∈ cs, isBlank c = true → c = ' '

namespace Spaced

variable {cs ds : List Char}

theorem append (hc : Spaced cs) (hd : Spaced ds) : Spaced (cs ++ ds) :=
  List.forall_mem_append.2 ⟨hc, hd⟩

theorem cons {c : Char} (hc : isBlank c = true → c = ' ') (h : Spaced cs) : Spaced (c :: cs) :=
  List.forall_mem_cons.2 ⟨hc, h⟩

theorem of_blankFree (h : BlankFree cs) : Spaced cs := by
  intro c hc hb
  rw [h c hc] at hb
  cases hb

theorem replicate (n : Nat) : Spaced (List.replicate n ' ') :=
  fun _ hc _ => List.eq_of_mem_replicate hc

theorem not_mem {c : Char} (h : Spaced cs) (hb : isBlank c = true) (hc : c ≠ ' ') : c ∉ cs :=
  fun hm => hc (h c hm hb)

end Spaced

namespace Line

structure Readable (l : Line) : Prop where
  left : ∀ name ∈ l.left? none, Legible name ∧ name ∉ epsilonNames
  arrowFree : ArrowFree l.rights
  spaced : Spaced l.rights

/-- A line that is written in this way is read as it was meant. -/
theorem Readable.written {l : Line} (h : l.Readable) (width : Nat) : Written (l.chars width) l := by
  cases l with
  | opening left rights =>
      obtain ⟨hl, hne⟩ := h.left left rfl
      have hr : ArrowFree rights := h.arrowFree
      have hspace : ArrowFree (left.toList ++ [' ']) :=
        (arrowFree_append_cons (by decide) (by decide)).2 ⟨hl.arrowFree, arrowFree_nil⟩
      have hpadded : Padded left (List.replicate (width - left.toList.length) ' ' ++ (left.toList ++ [' '])) :=
        .intro (blank_replicate _) (blank_replicate 1)
      have hline := Written.opening hl.isWord hne hpadded (.append_of_blank (blank_replicate _) hspace) hr
      rwa [← List.append_assoc, ← toList_padLeft, List.append_assoc] at hline
  | continuation rights =>
      have hline := Written.continuation (blank_replicate (width + 2)) h.arrowFree
      rwa [List.replicate_add, List.append_assoc] at hline

theorem Readable.spaced_chars {l : Line} (h : l.Readable) (width : Nat) : Spaced (l.chars width) := by
  cases l with
  | opening left rights =>
      have hl : Spaced left.toList := .of_blankFree (h.left left rfl).1.blankFree
      rw [chars, toList_padLeft]
      exact ((Spaced.replicate _).append hl).append
        (.cons (by decide) (.cons (by decide) (.cons (by decide) h.spaced)))
  | continuation rights =>
      exact (Spaced.replicate width).append (.cons (by decide) (.cons (by decide) (.cons (by decide) h.spaced)))

end Line

theorem ReadsTo.append_chars {block : List Line} {left : String}
    (hblock : ∀ l ∈ block, l.Readable ∧ l.left? (some left) = some left) {ls : List (List Char)}
    {written : List (String × List Char)} (hls : ReadsTo (some left) ls written) (width : Nat) :
    ReadsTo (some left) (block.map (Line.chars width) ++ ls) (block.map (fun l => (left, l.rights)) ++ written) := by
  induction block with
  | nil => exact hls
  | cons l block ih =>
      obtain ⟨⟨hl, hleft⟩, hm⟩ := List.forall_mem_cons.1 hblock
      exact (ih hm).cons (hl.written width) hleft

end NormalForms.Grammar

namespace NormalForms

open Grammar

theorem spaced_shown {names : List String} (h : ∀ name ∈ names, Legible name) : Spaced (shown names) := by
  intro c hc hb
  obtain ⟨name, hn, hc⟩ := List.mem_flatMap.1 hc
  exact Spaced.cons (fun _ => rfl) (.of_blankFree (h name hn).blankFree) c hc hb

theorem spaced_barred {rights : List (List String)} (h : ∀ names ∈ rights, Separable names) : Spaced (barred rights) := by
  cases rights with
  | nil => simp [barred, Spaced]
  | cons names rights =>
      obtain ⟨hn, hr⟩ := List.forall_mem_cons.1 h
      refine (spaced_shown hn.legible).append fun c hc hb => ?_
      obtain ⟨names, hm, hc⟩ := List.mem_flatMap.1 hc
      exact Spaced.cons (by decide) (.cons (by decide) (spaced_shown (hr names hm).legible)) c hc hb

namespace Entry

structure Readable (e : Entry) : Prop where
  left : Legible e.left ∧ e.left ∉ epsilonNames
  rights : ∀ names ∈ e.rights, Separable names

variable {e : Entry}

theorem Readable.of_mem_lines (h : e.Readable) {layout : Layout} {l : Line} (hl : l ∈ e.lines layout) :
    l.Readable ∧ l.left? (some e.left) = some e.left := by
  have hopening {rights : List Char} (ha : ArrowFree rights) (hs : Spaced rights) :
      (Line.opening e.left rights).Readable := ⟨by simpa [Line.left?] using h.left, ha, hs⟩
  have hcontinuation {names : List String} (hn : Separable names) : (Line.continuation (shown names)).Readable :=
    ⟨by simp [Line.left?], hn.arrowFree_shown, spaced_shown hn.legible⟩
  have hr := h.rights
  cases layout with
  | oneLine =>
      rw [List.mem_singleton.1 hl]
      exact ⟨hopening (arrowFree_barred hr) (spaced_barred hr), rfl⟩
  | stacked =>
      rw [Entry.lines] at hl
      cases he : e.rights with
      | nil =>
          rw [he, List.mem_singleton] at hl
          rw [hl]
          exact ⟨hopening arrowFree_nil (by simp [Spaced]), rfl⟩
      | cons names rights =>
          rw [he] at hl hr
          obtain ⟨hn, hr⟩ := List.forall_mem_cons.1 hr
          rcases List.mem_cons.1 hl with rfl | hl
          · exact ⟨hopening hn.arrowFree_shown (spaced_shown hn.legible), rfl⟩
          · obtain ⟨names, hm, rfl⟩ := List.mem_map.1 hl
            exact ⟨hcontinuation (hr names hm), rfl⟩

/-- The lines of an entry begin with its left side. -/
theorem exists_lines_eq_cons (e : Entry) (layout : Layout) :
    ∃ rights block, e.lines layout = .opening e.left rights :: block := by
  cases layout with
  | oneLine => exact ⟨_, _, rfl⟩
  | stacked =>
      rw [lines]
      cases e.rights with
      | nil => exact ⟨_, _, rfl⟩
      | cons names rights => exact ⟨_, _, rfl⟩

theorem Readable.readsTo (h : e.Readable) {ls : List (List Char)} {written : List (String × List Char)}
    (hls : ReadsTo (some e.left) ls written) (previous : Option String) (width : Nat) (layout : Layout) :
    ReadsTo previous ((e.lines layout).map (Line.chars width) ++ ls)
      ((e.lines layout).map (fun l => (e.left, l.rights)) ++ written) := by
  have hlines : ∀ l ∈ e.lines layout, l.Readable ∧ l.left? (some e.left) = some e.left := fun _ hl => h.of_mem_lines hl
  obtain ⟨rights, block, hblock⟩ := e.exists_lines_eq_cons layout
  rw [hblock] at hlines ⊢
  obtain ⟨⟨hl, -⟩, hm⟩ := List.forall_mem_cons.1 hlines
  exact (hls.append_chars hm width).cons (hl.written width) rfl

theorem Readable.splitAlternatives_lines (h : e.Readable) (layout : Layout) :
    (e.lines layout).flatMap (fun l => splitAlternatives l.rights) = e.rights := by
  have hr := h.rights
  cases layout with
  | oneLine => simpa [lines, Line.rights] using splitAlternatives_barred hr
  | stacked =>
      rw [lines]
      cases he : e.rights with
      | nil => simp [Line.rights, splitAlternatives, words_nil]
      | cons names rights =>
          rw [he] at hr
          obtain ⟨hn, hr⟩ := List.forall_mem_cons.1 hr
          have hmore : rights.flatMap (fun names => splitAlternatives (shown names)) = rights.flatMap fun names => [names] :=
            List.flatMap_congr fun names hm => splitAlternatives_shown (hr names hm)
          simp [Line.rights, List.flatMap_map, splitAlternatives_shown hn, hmore]

end Entry

end NormalForms
