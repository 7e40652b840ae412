import NormalForms.Grammar.Lines
import NormalForms.Proofs.Pieces

namespace NormalForms.Grammar

namespace Line

/-- How a line is written: it opens a rule with a word before its only arrow, or it has no arrow and begins with a
bar. -/
inductive Written : List Char → Line → Prop
  | opening {left : String} {before rights : List Char} :
      IsWord left → left ∉ epsilonNames → Padded left before → ArrowFree before → ArrowFree rights →
      Written (before ++ '-' :: '>' :: rights) (.opening left rights)
  | continuation {pad rights : List Char} :
      Blank pad → ArrowFree rights → Written (pad ++ '|' :: rights) (.continuation rights)

inductive Faulty : List Char → LineFault → Prop
  | manyArrows {a b c : List Char} : Faulty (a ++ '-' :: '>' :: (b ++ '-' :: '>' :: c)) .manyArrows
  | emptyLeft {before rights : List Char} :
      Blank before → ArrowFree before → ArrowFree rights → Faulty (before ++ '-' :: '>' :: rights) .emptyLeft
  | brokenLeft {a b rights : List Char} {c : Char} :
      ¬ Blank a → isBlank c = true → ¬ Blank b → ArrowFree (a ++ c :: b) → ArrowFree rights →
      Faulty (a ++ c :: b ++ '-' :: '>' :: rights) .brokenLeft
  | epsilonLeft {left : String} {before rights : List Char} :
      left ∈ epsilonNames → Padded left before → ArrowFree before → ArrowFree rights →
      Faulty (before ++ '-' :: '>' :: rights) .epsilonLeft
  | noLeft {line : List Char} :
      ArrowFree line → (∀ pad rights, Blank pad → line ≠ pad ++ '|' :: rights) → Faulty line .noLeft

theorem Written.not_blank {line : List Char} {l : Line} (h : Written line l) : ¬ Blank line := by
  intro hb
  cases h with
  | opening => exact absurd (hb '>' (by simp)) (by decide)
  | continuation => exact absurd (hb '|' (by simp)) (by decide)

theorem Written.arrowFree_rights {line : List Char} {l : Line} (h : Written line l) : ArrowFree l.rights := by
  cases h <;> assumption

theorem Written.isWord {line : List Char} {left : String} {rights : List Char} (h : Written line (.opening left rights)) :
    IsWord left := by
  cases h
  assumption

theorem Written.arrowFree_left {line : List Char} {left : String} {rights : List Char}
    (h : Written line (.opening left rights)) : ArrowFree left.toList := by
  cases h with
  | opening _ _ hp hb _ => exact hb.mono hp.isInfix

theorem isWord_of_mem_epsilonNames {name : String} (h : name ∈ epsilonNames) : IsWord name := by
  revert name
  decide

theorem read_of_written {line : List Char} {l : Line} (h : Written line l) : read line = .ok l := by
  cases h with
  | opening hl hne hb ha hr =>
      have hp := arrowPieces_eq_pair_iff.2 ⟨ha, hr, rfl⟩
      have hw := words_eq_singleton_iff.2 ⟨hl, hb⟩
      simp only [read, hp, hw, if_neg hne]
  | @continuation pad rights hb hr =>
      have hp := ((arrowFree_append_bar hb).2 hr).arrowPieces
      have hd : (pad ++ '|' :: rights).dropWhile isBlank = '|' :: rights := by
        rw [List.dropWhile_append_of_pos hb]
        rfl
      simp only [read, hp, hd]

theorem read_of_faulty {line : List Char} {fault : LineFault} (h : Faulty line fault) : read line = .error fault := by
  cases h with
  | @manyArrows a b c =>
      have h : 2 < (arrowPieces (a ++ '-' :: '>' :: (b ++ '-' :: '>' :: c))).length :=
        two_lt_length_arrowPieces_iff.2 ⟨a, b, c, rfl⟩
      unfold read
      split
      · rename_i hp
        simp [hp] at h
      · rename_i hp
        simp [hp] at h
      · rfl
  | emptyLeft hb ha hr =>
      have hp := arrowPieces_eq_pair_iff.2 ⟨ha, hr, rfl⟩
      simp only [read, hp, words_of_blank hb]
  | @brokenLeft a b _ c hl hc hb ha hr =>
      have hp := arrowPieces_eq_pair_iff.2 ⟨ha, hr, rfl⟩
      have h : 1 < (words (a ++ c :: b)).length := one_lt_length_words_iff.2 ⟨a, c, b, rfl, hc, hl, hb⟩
      simp only [read, hp]
      split
      · rename_i hw
        simp [hw] at h
      · rename_i hw
        simp [hw] at h
      · rfl
  | epsilonLeft he hb ha hr =>
      have hp := arrowPieces_eq_pair_iff.2 ⟨ha, hr, rfl⟩
      have hw := words_eq_singleton_iff.2 ⟨isWord_of_mem_epsilonNames he, hb⟩
      simp only [read, hp, hw, if_pos he]
  | noLeft ha hbar =>
      simp only [read, ha.arrowPieces]
      split
      · rename_i rights hd
        have hline := List.takeWhile_append_dropWhile (p := isBlank) (l := line)
        rw [hd] at hline
        exact absurd hline.symm (hbar _ _ fun c hc => List.mem_takeWhile_imp hc)
      · rfl

theorem written_or_faulty (line : List Char) : (∃ l, Written line l) ∨ ∃ fault, Faulty line fault := by
  match hp : arrowPieces line with
  | [] => exact absurd hp (arrowPieces_ne_nil line)
  | [_] =>
      have ha := (arrowPieces_eq_singleton_iff.1 hp).1
      by_cases hbar : ∃ pad rights, Blank pad ∧ line = pad ++ '|' :: rights
      · obtain ⟨pad, rights, hb, rfl⟩ := hbar
        exact .inl ⟨_, .continuation hb ((arrowFree_append_bar hb).1 ha)⟩
      · exact .inr ⟨_, .noLeft ha fun pad rights hb hl => hbar ⟨pad, rights, hb, hl⟩⟩
  | [before, rights] =>
      obtain ⟨ha, hr, rfl⟩ := arrowPieces_eq_pair_iff.1 hp
      match hw : words before with
      | [] => exact .inr ⟨_, .emptyLeft (words_eq_nil_iff.1 hw) ha hr⟩
      | [left] =>
          obtain ⟨hl, hb⟩ := words_eq_singleton_iff.1 hw
          by_cases he : left ∈ epsilonNames
          · exact .inr ⟨_, .epsilonLeft he hb ha hr⟩
          · exact .inl ⟨_, .opening hl he hb ha hr⟩
      | _ :: _ :: _ =>
          have h : 1 < (words before).length := by simp [hw]
          obtain ⟨a, c, b, rfl, hc, hl, hb⟩ := one_lt_length_words_iff.1 h
          exact .inr ⟨_, .brokenLeft hl hc hb ha hr⟩
  | _ :: _ :: _ :: _ =>
      have h : 2 < (arrowPieces line).length := by simp [hp]
      obtain ⟨a, b, c, rfl⟩ := two_lt_length_arrowPieces_iff.1 h
      exact .inr ⟨_, .manyArrows⟩

theorem read_eq_ok_iff {line : List Char} {l : Line} : read line = .ok l ↔ Written line l := by
  refine ⟨fun h => ?_, read_of_written⟩
  obtain ⟨m, hm⟩ | ⟨fault, hf⟩ := written_or_faulty line
  · rw [read_of_written hm] at h
    cases h
    exact hm
  · rw [read_of_faulty hf] at h
    cases h

theorem Written.unique {line : List Char} {l m : Line} (hl : Written line l) (hm : Written line m) : l = m :=
  Except.ok.inj ((read_of_written hl).symm.trans (read_of_written hm))

/-- A line that can stand in a text where a rule has been opened above it or has not. -/
inductive Fits (opened : Prop) : List Char → Prop
  | blank {line : List Char} : Blank line → Fits opened line
  | opening {line rights : List Char} {left : String} : Written line (.opening left rights) → Fits opened line
  | continuation {line rights : List Char} : opened → Written line (.continuation rights) → Fits opened line

inductive Misfit (opened : Prop) : List Char → LineFault → Prop
  | faulty {line : List Char} {fault : LineFault} : ¬ Blank line → Faulty line fault → Misfit opened line fault
  | alone {line rights : List Char} : ¬ opened → Written line (.continuation rights) → Misfit opened line .noLeft

theorem fits_or_misfit (opened : Prop) (line : List Char) : Fits opened line ∨ ∃ fault, Misfit opened line fault := by
  by_cases hb : Blank line
  · exact .inl (.blank hb)
  · obtain ⟨l, hw⟩ | ⟨fault, hf⟩ := written_or_faulty line
    · cases l with
      | opening left rights => exact .inl (.opening hw)
      | continuation rights =>
          by_cases ho : opened
          · exact .inl (.continuation ho hw)
          · exact .inr ⟨.noLeft, .alone ho hw⟩
    · exact .inr ⟨fault, .faulty hb hf⟩

end Line

variable {number : Nat} {previous : Option String} {line : List Char} {ls : List (List Char)}

theorem readLines_cons_of_blank (h : Blank line) :
    readLines number previous (line :: ls) = readLines (number + 1) previous ls := by
  rw [readLines, if_pos (List.all_eq_true.2 h)]

theorem readLines_cons_of_written {l : Line} (h : Line.Written line l) {left : String}
    (hl : l.left? previous = some left) :
    readLines number previous (line :: ls) = (readLines (number + 1) (some left) ls).map ((left, l.rights) :: ·) := by
  have hb : ¬ line.all isBlank = true := mt List.all_eq_true.1 h.not_blank
  simp only [readLines, if_neg hb, Line.read_of_written h, hl]

theorem readLines_cons_of_misfit {fault : LineFault} (h : Line.Misfit (previous ≠ none) line fault) :
    readLines number previous (line :: ls) = .error (.line number fault) := by
  cases h with
  | faulty hb hf =>
      have hb : ¬ line.all isBlank = true := mt List.all_eq_true.1 hb
      simp only [readLines, if_neg hb, Line.read_of_faulty hf]
  | alone hp hw =>
      have hb : ¬ line.all isBlank = true := mt List.all_eq_true.1 hw.not_blank
      simp only [readLines, if_neg hb, Line.read_of_written hw, Line.left?, not_not.1 hp]

theorem Line.Fits.blank_or_written (h : Line.Fits (previous ≠ none) line) :
    Blank line ∨ ∃ l left, Line.Written line l ∧ l.left? previous = some left := by
  cases h with
  | blank hb => exact .inl hb
  | opening hw => exact .inr ⟨_, _, hw, rfl⟩
  | continuation hp hw =>
      obtain ⟨left, rfl⟩ := Option.ne_none_iff_exists'.1 hp
      exact .inr ⟨_, left, hw, rfl⟩

theorem readLines_cons_eq_ok {written : List (String × List Char)}
    (h : readLines number previous (line :: ls) = .ok written) :
    Blank line ∧ readLines (number + 1) previous ls = .ok written ∨
      ∃ l left w, Line.Written line l ∧ l.left? previous = some left ∧ readLines (number + 1) (some left) ls = .ok w ∧
        written = (left, l.rights) :: w := by
  obtain hf | ⟨fault, hm⟩ := Line.fits_or_misfit (previous ≠ none) line
  · obtain hb | ⟨l, left, hw, hl⟩ := hf.blank_or_written
    · rw [readLines_cons_of_blank hb] at h
      exact .inl ⟨hb, h⟩
    · rw [readLines_cons_of_written hw hl] at h
      cases hr : readLines (number + 1) (some left) ls with
      | error e =>
          rw [hr] at h
          cases h
      | ok w =>
          rw [hr] at h
          cases h
          exact .inr ⟨l, left, w, hw, hl, hr, rfl⟩
  · rw [readLines_cons_of_misfit hm] at h
    cases h

def leftAfter (previous : Option String) (written : List (String × List Char)) : Option String :=
  (written.getLast?.map (·.1)).or previous

@[simp] theorem leftAfter_nil : leftAfter previous [] = previous :=
  rfl

@[simp] theorem leftAfter_cons (x : String × List Char) (written : List (String × List Char)) :
    leftAfter previous (x :: written) = leftAfter (some x.1) written := by
  cases written <;> simp [leftAfter, List.getLast?_cons]

theorem leftAfter_append (u v : List (String × List Char)) :
    leftAfter previous (u ++ v) = leftAfter (leftAfter previous u) v := by
  rw [leftAfter, leftAfter, leftAfter, List.getLast?_append, Option.map_or, Option.or_assoc]

theorem read_eq_checked {text start : String} {rights : List Char} {more : List (String × List Char)}
    (h : readLines 1 none (lines text.toList) = .ok ((start, rights) :: more)) :
    read text = (ofAlternatives start (((start, rights) :: more).map fun x => (x.1, splitAlternatives x.2))).checked := by
  rw [read, h]
  rfl

/-- The lines give the left sides and right sides, whatever the number of the first of them is. -/
def ReadsTo (previous : Option String) (ls : List (List Char)) (written : List (String × List Char)) : Prop :=
  ∀ number, readLines number previous ls = .ok written

namespace ReadsTo

variable {written : List (String × List Char)}

theorem nil : ReadsTo previous [] [] :=
  fun _ => rfl

theorem eq_nil (h : ReadsTo previous [] written) : written = [] :=
  (Except.ok.inj (h 0)).symm

theorem skip (h : Blank line) (hls : ReadsTo previous ls written) : ReadsTo previous (line :: ls) written :=
  fun number => (readLines_cons_of_blank h).trans (hls (number + 1))

theorem cons {l : Line} (h : Line.Written line l) {left : String} (hl : l.left? previous = some left)
    (hls : ReadsTo (some left) ls written) : ReadsTo previous (line :: ls) ((left, l.rights) :: written) := by
  intro number
  rw [readLines_cons_of_written h hl, hls (number + 1)]
  rfl

theorem of_readLines (h : readLines number previous ls = .ok written) : ReadsTo previous ls written := by
  induction ls generalizing number previous written with
  | nil =>
      cases h
      exact nil
  | cons line ls ih =>
      obtain ⟨hb, hls⟩ | ⟨l, left, w, hw, hl, hls, rfl⟩ := readLines_cons_eq_ok h
      · exact (ih hls).skip hb
      · exact (ih hls).cons hw hl

/-- All that the first line can have done. -/
theorem cons_cases (h : ReadsTo previous (line :: ls) written) :
    Blank line ∧ ReadsTo previous ls written ∨
      ∃ l left w, Line.Written line l ∧ l.left? previous = some left ∧ ReadsTo (some left) ls w ∧
        written = (left, l.rights) :: w := by
  obtain ⟨hb, hls⟩ | ⟨l, left, w, hw, hl, hls, rfl⟩ := readLines_cons_eq_ok (h 0)
  · exact .inl ⟨hb, of_readLines hls⟩
  · exact .inr ⟨l, left, w, hw, hl, of_readLines hls, rfl⟩

theorem readLines_append (h : ReadsTo previous ls written) (number : Nat) (more : List (List Char)) :
    readLines number previous (ls ++ more) =
      (readLines (number + ls.length) (leftAfter previous written) more).map (written ++ ·) := by
  induction ls generalizing previous written number with
  | nil =>
      cases h 0
      cases hm : readLines number previous more <;> simp [hm, Except.map]
  | cons line ls ih =>
      have hnumber : number + (line :: ls).length = number + 1 + ls.length := by
        rw [List.length_cons, Nat.add_assoc, Nat.add_comm 1]
      rw [List.cons_append, hnumber]
      obtain ⟨hb, hls⟩ | ⟨l, left, w, hw, hl, hls, rfl⟩ := h.cons_cases
      · rw [readLines_cons_of_blank hb, ih hls]
      · rw [readLines_cons_of_written hw hl, ih hls, leftAfter_cons]
        cases readLines (number + 1 + ls.length) (leftAfter (some left) w) more <;> rfl

theorem append (h : ReadsTo previous ls written) {ms : List (List Char)} {more : List (String × List Char)}
    (hms : ReadsTo (leftAfter previous written) ms more) : ReadsTo previous (ls ++ ms) (written ++ more) := by
  intro number
  rw [h.readLines_append, hms (number + ls.length)]
  rfl

/-- What lines and further ones are read to comes from the parts. -/
theorem of_append {more : List (List Char)} (h : ReadsTo previous (ls ++ more) written) :
    ∃ u v, ReadsTo previous ls u ∧ ReadsTo (leftAfter previous u) more v ∧ written = u ++ v := by
  induction ls generalizing previous written with
  | nil => exact ⟨[], written, nil, h, rfl⟩
  | cons line ls ih =>
      obtain ⟨hb, hls⟩ | ⟨l, left, w, hw, hl, hls, rfl⟩ := h.cons_cases
      · obtain ⟨u, v, hu, hv, rfl⟩ := ih hls
        exact ⟨u, v, hu.skip hb, hv, rfl⟩
      · obtain ⟨u, v, hu, hv, rfl⟩ := ih hls
        exact ⟨(left, l.rights) :: u, v, hu.cons hw hl, by rwa [leftAfter_cons], rfl⟩

end ReadsTo

end NormalForms.Grammar
