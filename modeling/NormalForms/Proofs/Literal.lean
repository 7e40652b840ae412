import Mathlib.Tactic.SplitIfs
import NormalForms.Json.Literal
import NormalForms.Json.Printer

namespace NormalForms.Json

theorem hexValue?_hexDigit : ∀ n < 16, hexValue? (hexDigit n) = some n := by
  decide

def ReadsText (cs text rest : List Char) : Prop :=
  ∃ pieces, readPieces cs = some (pieces, rest) ∧ assemble? pieces = some text

theorem readsText_quote (rest : List Char) : ReadsText ('"' :: rest) [] rest :=
  ⟨[], by rw [readPieces], rfl⟩

namespace ReadsText

variable {cs text rest : List Char}

theorem escape (h : ReadsText cs text rest) {e c : Char} (he : unescaped? e = some c) :
    ReadsText ('\\' :: e :: cs) (c :: text) rest := by
  obtain ⟨pieces, hr, ha⟩ := h
  have hu : e ≠ 'u' := by
    rintro rfl
    cases he
  refine ⟨.char c :: pieces, ?_, by rw [assemble?, ha]; rfl⟩
  rw [readPieces]
  · rw [he, hr]
    rfl
  · rintro a b c d cs rfl -
    exact hu rfl

theorem control (h : ReadsText cs text rest) {c : Char} (hc : c.toNat < 0x20) :
    ReadsText ('\\' :: 'u' :: '0' :: '0' :: hexDigit (c.toNat / 16) :: hexDigit (c.toNat % 16) :: cs)
      (c :: text) rest := by
  obtain ⟨pieces, hr, ha⟩ := h
  have hdigits : Piece.ofDigits? '0' '0' (hexDigit (c.toNat / 16)) (hexDigit (c.toNat % 16)) = some (.unit c.toNat) := by
    have hhigh := hexValue?_hexDigit (c.toNat / 16) (by omega)
    have hlow := hexValue?_hexDigit (c.toNat % 16) (by omega)
    have hzero : hexValue? '0' = some 0 := by decide
    have hn : c.toNat / 16 * 16 + c.toNat % 16 = c.toNat := by omega
    simp [Piece.ofDigits?, hhigh, hlow, hzero, hn]
  refine ⟨.unit c.toNat :: pieces, ?_, ?_⟩
  · rw [readPieces, hdigits, hr]
    rfl
  · have hh : isHighSurrogate c.toNat = false := by
      simp only [isHighSurrogate, Bool.and_eq_false_iff, decide_eq_false_iff_not]
      omega
    have hl : isLowSurrogate c.toNat = false := by
      simp only [isLowSurrogate, Bool.and_eq_false_iff, decide_eq_false_iff_not]
      omega
    rw [assemble?.eq_def]
    simp [hh, hl, ha]

theorem plain (h : ReadsText cs text rest) {c : Char} (hq : c ≠ '"') (hb : c ≠ '\\') (hc : ¬ c.toNat < 0x20) :
    ReadsText (c :: cs) (c :: text) rest := by
  obtain ⟨pieces, hr, ha⟩ := h
  refine ⟨.char c :: pieces, ?_, by rw [assemble?, ha]; rfl⟩
  rw [readPieces]
  · simp [hb, hc, hr]
  · exact hq
  · exact fun _ _ _ _ _ he _ => hb he
  · exact fun _ _ he _ => hb he

/-- What is written for a character is read as the character. -/
theorem escaped (h : ReadsText cs text rest) (c : Char) : ReadsText (Json.escaped c ++ cs) (c :: text) rest := by
  unfold Json.escaped
  split_ifs with hquote hbackslash hfeed hreturn htab hback hform hcontrol
  · exact h.escape (by rw [hquote]; rfl)
  · exact h.escape (by rw [hbackslash]; rfl)
  · exact h.escape (by rw [hfeed]; rfl)
  · exact h.escape (by rw [hreturn]; rfl)
  · exact h.escape (by rw [htab]; rfl)
  · exact h.escape (by rw [hback]; rfl)
  · exact h.escape (by rw [hform]; rfl)
  · exact h.control hcontrol
  · exact h.plain hquote hbackslash hcontrol

theorem flatMap_escaped (h : ReadsText cs text rest) (more : List Char) :
    ReadsText (more.flatMap Json.escaped ++ cs) (more ++ text) rest := by
  induction more with
  | nil => exact h
  | cons c more ih =>
      rw [List.flatMap_cons, List.append_assoc]
      exact ih.escaped c

end ReadsText

/-- A written string begins with a quote, and what follows the quote is read as its content. -/
theorem exists_quoted_eq_cons (content : Option String) :
    ∃ body, quoted content = '"' :: body ∧ ∀ rest, readString (body ++ rest) = some (content, rest) := by
  cases content with
  | none => exact ⟨"\\ud800\"".toList, rfl, fun rest => by simp [readString, readPieces]; rfl⟩
  | some s =>
      refine ⟨s.toList.flatMap escaped ++ ['"'], rfl, fun rest => ?_⟩
      obtain ⟨pieces, hr, ha⟩ := (readsText_quote rest).flatMap_escaped s.toList
      rw [List.append_assoc, List.singleton_append, readString, hr]
      simp [ha]

end NormalForms.Json
