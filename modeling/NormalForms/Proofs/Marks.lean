import NormalForms.Grammar.Latex
import NormalForms.Proofs.Pieces

namespace NormalForms

section

variable {α β : Type}

/-- A list can be told from its code if no code word begins with another one. -/
theorem flatMap_injective_of_isPrefix {code : α → List β} (hne : ∀ a, code a ≠ [])
    (hp : ∀ a b, code a <+: code b → a = b) : Function.Injective fun l : List α => l.flatMap code := by
  intro l m h
  induction l generalizing m with
  | nil =>
      cases m with
      | nil => rfl
      | cons b m => simp [hne] at h
  | cons a l ih =>
      cases m with
      | nil => simp [hne] at h
      | cons b m =>
          simp only [List.flatMap_cons] at h
          have hab : a = b := by
            have ha := List.prefix_append (code a) (l.flatMap code)
            have hb := List.prefix_append (code b) (m.flatMap code)
            rcases List.prefix_or_prefix_of_prefix ha (h ▸ hb) with hab | hba
            · exact hp a b hab
            · exact (hp b a hba).symm
          rw [hab, List.append_cancel_left_eq] at h
          rw [hab, ih h]

end

namespace Latex

/-- What a table is made of: the characters of its names, the gaps between hyphens, and the signs that tell where a
symbol, an alternative, a left side or a row ends. -/
inductive Mark where
  | char (c : Char)
  | gap
  | symbolEnd
  | bar
  | arrow
  | rowEnd
  | opening
  | closing
deriving DecidableEq

namespace Mark

def chars : Mark → List Char
  | char c => (escapeChar none c).toList.flatMap epsilonMacro
  | gap => "\x7b\x7d".toList
  | symbolEnd => "\\ ".toList
  | bar => "\\mid ".toList
  | arrow => "& \\rightarrow &".toList
  | rowEnd => "\\\\\n".toList
  | opening => "\\[\\begin\x7barray\x7d\x7bcll\x7d".toList
  | closing => "\\end\x7barray\x7d\\]".toList

end Mark

def specialChars : List Char :=
  "&%$#_\x7b\x7d[]~^<>!\\ε".toList

theorem escapeChar_of_not_mem {c : Char} (h : c ∉ specialChars) : escapeChar none c = .ofList [c] := by
  unfold escapeChar
  split
  case h_16 => rfl
  case h_17 => rfl
  all_goals exact absurd (by decide) h

namespace Mark

def special : List Mark :=
  [gap, symbolEnd, bar, arrow, rowEnd, opening, closing] ++ specialChars.map char

theorem special_prefix : ∀ m ∈ special, ∀ n ∈ special, m.chars <+: n.chars → m = n := by
  decide +kernel

def heads : List Char :=
  ['\\', '{', '&', '!']

theorem heads_subset : heads ⊆ specialChars := by
  decide

theorem special_head : ∀ m ∈ special, m.chars.head? ∈ heads.map some := by
  decide +kernel

theorem chars_of_not_mem {c : Char} (h : c ∉ specialChars) : (char c).chars = [c] := by
  have hne : c ≠ 'ε' := by
    rintro rfl
    exact h (by decide)
  have he : epsilonMacro c = [c] := if_neg hne
  change (escapeChar none c).toList.flatMap epsilonMacro = [c]
  rw [escapeChar_of_not_mem h, String.toList_ofList, List.flatMap_singleton, he]

theorem special_or_plain (m : Mark) : m ∈ special ∨ ∃ c, m = char c ∧ m.chars = [c] ∧ c ∉ heads := by
  cases m with
  | char c =>
      by_cases hc : c ∈ specialChars
      · exact .inl (List.mem_append_right _ (List.mem_map_of_mem hc))
      · exact .inr ⟨c, rfl, chars_of_not_mem hc, fun hh => hc (heads_subset hh)⟩
  | _ => exact .inl (by decide)

theorem chars_ne_nil (m : Mark) : m.chars ≠ [] := by
  rcases m.special_or_plain with hm | ⟨c, -, hc, -⟩
  · obtain ⟨c, -, hc⟩ := List.mem_map.1 (special_head m hm)
    exact fun he => by simp [he] at hc
  · simp [hc]

/-- No mark is written as the beginning of another one. -/
theorem eq_of_isPrefix {m n : Mark} (h : m.chars <+: n.chars) : m = n := by
  have hhead : n.chars.head? = m.chars.head? := by
    obtain ⟨rest, he⟩ := h
    rw [← he, List.head?_append_of_ne_nil _ m.chars_ne_nil]
  rcases m.special_or_plain with hm | ⟨c, rfl, hc, hplain⟩
  · rcases n.special_or_plain with hn | ⟨d, rfl, hd, hplain⟩
    · exact special_prefix m hm n hn h
    · obtain ⟨c, hc, he⟩ := List.mem_map.1 (special_head m hm)
      rw [hd, ← he, List.head?_cons, Option.some.injEq] at hhead
      exact absurd (hhead ▸ hc) hplain
  · rcases n.special_or_plain with hn | ⟨d, rfl, hd, -⟩
    · obtain ⟨d, hd, he⟩ := List.mem_map.1 (special_head n hn)
      rw [hc, ← he, List.head?_cons, Option.some.injEq] at hhead
      exact absurd (hhead ▸ hd) hplain
    · rw [hc, hd, List.head?_cons, List.head?_cons, Option.some.injEq] at hhead
      rw [hhead]

end Mark

theorem flatMap_chars_injective : Function.Injective fun marks : List Mark => marks.flatMap Mark.chars :=
  flatMap_injective_of_isPrefix Mark.chars_ne_nil fun _ _ => Mark.eq_of_isPrefix

end Latex

end NormalForms
