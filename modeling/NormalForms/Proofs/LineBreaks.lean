import NormalForms.Proofs.Pieces

namespace NormalForms

theorem dropReturn_append_cons {c : Char} (hc : c ≠ '\r') (cs ds : List Char) :
    dropReturn (cs ++ c :: ds) = cs ++ c :: dropReturn ds := by
  cases ds with
  | nil => simp [dropReturn, hc]
  | cons d ds =>
      have hdrop : (cs ++ c :: d :: ds).dropLast = cs ++ c :: (d :: ds).dropLast := by simp
      simp only [dropReturn, List.getLast?_append_cons, List.getLast?_cons_cons, hdrop]
      split <;> rfl

theorem dropReturn_append_return (cs : List Char) : dropReturn (cs ++ ['\r']) = cs := by
  simp [dropReturn]

/-- Nothing but a carriage return is dropped. -/
theorem eq_dropReturn_or_append (cs : List Char) : dropReturn cs = cs ∨ cs = dropReturn cs ++ ['\r'] := by
  by_cases h : cs.getLast? = some '\r'
  · obtain ⟨ds, rfl⟩ := List.getLast?_eq_some_iff.1 h
    exact .inr (by rw [dropReturn_append_return])
  · exact .inl (if_neg h)

theorem dropReturn_isPrefix (cs : List Char) : dropReturn cs <+: cs := by
  obtain h | h := eq_dropReturn_or_append cs
  · rw [h]
  · exact ⟨['\r'], h.symm⟩

theorem lines_append_newline (cs ds : List Char) :
    lines (cs ++ '\n' :: ds) = (cs.splitOn '\n').map dropReturn ++ lines ds := by
  have hne : ds.splitOn '\n' ≠ [] := by simp
  simp only [lines, List.splitOn_append_cons_self, List.dropLast_append_of_ne_nil hne, List.map_append,
    List.getLast?_append_of_ne_nil _ hne, List.append_assoc]

theorem infix_of_mem_lines {cs line : List Char} (h : line ∈ lines cs) : line <:+: cs := by
  rcases List.mem_append.1 h with h | h
  · obtain ⟨piece, hp, rfl⟩ := List.mem_map.1 h
    exact (dropReturn_isPrefix piece).isInfix.trans (mem_splitOnP (List.mem_of_mem_dropLast hp)).1
  · have hlast := Option.mem_toList.1 (List.mem_of_mem_filter h)
    exact (mem_splitOnP (List.mem_of_getLast? hlast)).1

theorem Blank.of_mem_lines {cs line : List Char} (h : Blank cs) (hl : line ∈ lines cs) : Blank line :=
  fun c hc => h c ((infix_of_mem_lines hl).subset hc)

theorem Blank.dropReturn {cs : List Char} (h : Blank cs) : Blank (dropReturn cs) :=
  fun c hc => h c ((dropReturn_isPrefix cs).subset hc)

def AtLineStart (above : List Char) : Prop :=
  above = [] ∨ above.getLast? = some '\n'

instance (above : List Char) : Decidable (AtLineStart above) :=
  inferInstanceAs (Decidable (_ ∨ _))

theorem AtLineStart.lines_append {above : List Char} (h : AtLineStart above) (rest : List Char) :
    lines (above ++ rest) = lines above ++ lines rest := by
  rcases h with rfl | h
  · rfl
  · obtain ⟨cs, rfl⟩ := List.getLast?_eq_some_iff.1 h
    rw [List.append_assoc, List.singleton_append, lines_append_newline, lines_append_newline]
    simp [lines]

theorem lines_eq_singleton {line : List Char} (hne : line ≠ []) (h : '\n' ∉ line) : lines line = [line] := by
  simp [lines, List.splitOn_eq_singleton h, hne]

theorem lines_append_newline_of_not_mem {line : List Char} (h : '\n' ∉ line) (rest : List Char) :
    lines (line ++ '\n' :: rest) = dropReturn line :: lines rest := by
  rw [lines_append_newline, List.splitOn_eq_singleton h]
  rfl

theorem not_mem_takeWhile_newline (cs : List Char) : '\n' ∉ cs.takeWhile (· ≠ '\n') :=
  fun h => by simpa using List.mem_takeWhile_imp h

/-- A text ends with its first line or goes on after a line feed. -/
theorem exists_first_line (cs : List Char) :
    cs = cs.takeWhile (· ≠ '\n') ∨ ∃ more, cs = cs.takeWhile (· ≠ '\n') ++ '\n' :: more := by
  have hcs := List.takeWhile_append_dropWhile (p := (· ≠ '\n')) (l := cs)
  cases hd : cs.dropWhile (· ≠ '\n') with
  | nil =>
      rw [hd, List.append_nil] at hcs
      exact .inl hcs.symm
  | cons c more =>
      have hc := List.head?_dropWhile_not (· ≠ '\n') cs
      rw [hd] at hc
      have hc : c = '\n' := by simpa using hc
      rw [hd, hc] at hcs
      exact .inr ⟨more, hcs.symm⟩

theorem lines_induction {P : List Char → Prop} (last : ∀ line, '\n' ∉ line → P line)
    (more : ∀ line rest, '\n' ∉ line → P rest → P (line ++ '\n' :: rest)) (cs : List Char) : P cs := by
  induction hn : cs.length using Nat.strong_induction_on generalizing cs with
  | _ n ih =>
      have hline := not_mem_takeWhile_newline cs
      have hcs := exists_first_line cs
      generalize cs.takeWhile (· ≠ '\n') = line at hline hcs
      obtain rfl | ⟨rest, rfl⟩ := hcs
      · exact last cs hline
      · have hlength : rest.length < n := by
          rw [← hn, List.length_append, List.length_cons]
          omega
        exact more line rest hline (ih _ hlength rest rfl)

/-- What stands behind a character gives the rest of its line and all further lines. -/
theorem exists_lines_eq_cons (after : List Char) : ∃ first rest, first <+: after.takeWhile (· ≠ '\n') ∧
    ∀ before c, '\n' ∉ before → c ≠ '\n' → c ≠ '\r' → lines (before ++ c :: after) = (before ++ c :: first) :: rest := by
  have hline := not_mem_takeWhile_newline after
  have hafter := exists_first_line after
  generalize after.takeWhile (· ≠ '\n') = line at hline hafter
  have hmem {before : List Char} {c : Char} (hb : '\n' ∉ before) (hc : c ≠ '\n') : '\n' ∉ before ++ c :: line := by
    simp [hb, hline, hc.symm]
  obtain rfl | ⟨rest, rfl⟩ := hafter
  · exact ⟨after, [], List.prefix_refl _, fun before c hb hc _ => lines_eq_singleton (by simp) (hmem hb hc)⟩
  · refine ⟨dropReturn line, lines rest, dropReturn_isPrefix line, fun before c hb hc hr => ?_⟩
    rw [← dropReturn_append_cons hr, ← lines_append_newline_of_not_mem (hmem hb hc), List.append_assoc]
    rfl

end NormalForms
