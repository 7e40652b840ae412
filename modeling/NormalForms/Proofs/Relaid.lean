import Mathlib.Logic.Relation
import NormalForms.Proofs.Rereading

namespace NormalForms.Grammar

variable {previous : Option String} {ls : List (List Char)} {u : List (String × List Char)}

def Current (ls : List (List Char)) (left : String) : Prop :=
  ∃ above line below rights, ls = above ++ line :: below ∧ Line.Written line (.opening left rights) ∧
    ∀ l ∈ below, ∀ name rights, ¬ Line.Written l (.opening name rights)

theorem leftAfter_of_forall_not_opening (h : ReadsTo previous ls u)
    (hls : ∀ l ∈ ls, ∀ name rights, ¬ Line.Written l (.opening name rights)) : leftAfter previous u = previous := by
  induction ls generalizing previous u with
  | nil =>
      rw [h.eq_nil, leftAfter_nil]
  | cons line ls ih =>
      obtain ⟨hline, hmore⟩ := List.forall_mem_cons.1 hls
      obtain ⟨-, hu⟩ | ⟨l, left, w, hw, hl, hu, rfl⟩ := h.cons_cases
      · exact ih hu hmore
      · cases l with
        | opening name rights => exact absurd hw (hline name rights)
        | continuation rights =>
            rw [leftAfter_cons, ih hu hmore]
            exact hl.symm

theorem Current.leftAfter {left : String} (hc : Current ls left) (h : ReadsTo previous ls u) :
    leftAfter previous u = some left := by
  obtain ⟨above, line, below, rights, rfl, hw, hbelow⟩ := hc
  obtain ⟨u, v, -, hv, rfl⟩ := h.of_append
  obtain ⟨hb, -⟩ | ⟨l, name, w, hl, hname, hw', rfl⟩ := hv.cons_cases
  · exact absurd hb hw.not_blank
  · cases hl.unique hw
    cases hname
    rw [leftAfter_append, leftAfter_cons, leftAfter_of_forall_not_opening hw' hbelow]

theorem exists_current (ls : List (List Char)) :
    (∀ l ∈ ls, ∀ name rights, ¬ Line.Written l (.opening name rights)) ∨ ∃ left, Current ls left := by
  induction ls with
  | nil => exact .inl (by simp)
  | cons line ls ih =>
      obtain hls | ⟨left, above, other, below, rights, rfl, h⟩ := ih
      · by_cases hline : ∃ name rights, Line.Written line (.opening name rights)
        · obtain ⟨name, rights, hw⟩ := hline
          exact .inr ⟨name, [], line, ls, rights, rfl, hw, hls⟩
        · exact .inl (List.forall_mem_cons.2 ⟨fun name rights hw => hline ⟨name, rights, hw⟩, hls⟩)
      · exact .inr ⟨left, line :: above, other, below, rights, rfl, h⟩

def withReturns (cs : List Char) : List Char :=
  cs.flatMap fun c => if c = '\n' then ['\r', '\n'] else [c]

/-- The ways to lay out a text anew: a bar can go to the next line, or give way to the left side in a line of its own;
and line feeds and blank lines can be written as one likes. -/
inductive Relaid : List Char → List Char → Prop
  | broken {above before after : List Char} :
      AtLineStart above → '\n' ∉ before → Line.Divides before (after.takeWhile (· ≠ '\n')) →
      Relaid (above ++ (before ++ '|' :: after)) (above ++ (before ++ '\n' :: '|' :: after))
  | restated {above before after : List Char} {left : String} :
      AtLineStart above → '\n' ∉ before → Line.Divides before (after.takeWhile (· ≠ '\n')) → ¬ Blank before →
      Current (lines (above ++ before)) left →
      Relaid (above ++ (before ++ '|' :: after)) (above ++ (before ++ '\n' :: (left.toList ++ " -> ".toList ++ after)))
  | returned {cs : List Char} : Relaid cs (withReturns cs)
  | blankLine {above below pad : List Char} :
      AtLineStart above → Blank pad → Relaid (above ++ below) (above ++ (pad ++ '\n' :: below))
  | blankEnd {above pad : List Char} : AtLineStart above → Blank pad → Relaid above (above ++ pad)
  | blankAfter {cs pad : List Char} : Blank pad → Relaid cs (cs ++ '\n' :: pad)

namespace Rereads

theorem lines_append_newline (previous : Option String) (cs : List Char) {pad : List Char} (hp : Blank pad) :
    Rereads previous (lines cs) (lines (cs ++ '\n' :: pad)) := by
  have hpad : ∀ l ∈ lines pad, Blank l := fun _ => hp.of_mem_lines
  induction cs using lines_induction generalizing previous with
  | last line hn =>
      rw [lines_append_newline_of_not_mem hn]
      by_cases hne : line = []
      · rw [hne]
        exact append_skip (List.forall_mem_cons.2 ⟨blank_nil.dropReturn, hpad⟩) []
      · rw [lines_eq_singleton hne hn]
        exact (dropReturn line).append fun _ _ => append_skip hpad []
  | more line rest hn ih =>
      rw [List.append_assoc, List.cons_append, lines_append_newline_of_not_mem hn, lines_append_newline_of_not_mem hn]
      exact (refl [NormalForms.dropReturn line]).append fun _ _ => ih _

end Rereads

theorem withReturns_of_not_mem {cs : List Char} (h : '\n' ∉ cs) : withReturns cs = cs := by
  have hc : ∀ c ∈ cs, (if c = '\n' then ['\r', '\n'] else [c]) = [c] := by
    intro c hc
    refine if_neg ?_
    rintro rfl
    exact h hc
  rw [withReturns, List.flatMap_congr hc, List.flatMap_singleton']

theorem lines_withReturns {line : List Char} (h : '\n' ∉ line) (rest : List Char) :
    lines (withReturns (line ++ '\n' :: rest)) = line :: lines (withReturns rest) := by
  have happend : withReturns (line ++ '\n' :: rest) = withReturns line ++ ['\r'] ++ '\n' :: withReturns rest := by
    simp [withReturns]
  rw [happend, withReturns_of_not_mem h, lines_append_newline_of_not_mem (by simp [h]), dropReturn_append_return]

theorem Rereads.withReturns (previous : Option String) (cs : List Char) :
    Rereads previous (lines cs) (lines (withReturns cs)) := by
  induction cs using lines_induction generalizing previous with
  | last line hn =>
      rw [withReturns_of_not_mem hn]
      exact .refl _
  | more line rest hn ih =>
      rw [lines_append_newline_of_not_mem hn, lines_withReturns hn]
      exact (of_dropReturn line).append fun _ _ => ih _

theorem Relaid.rereads {cs ds : List Char} (h : Relaid cs ds) : Rereads none (lines cs) (lines ds) := by
  cases h with
  | @broken above before after ha hn hd =>
      obtain ⟨first, rest, hfirst, hlines⟩ := exists_lines_eq_cons after
      have hbar : lines ('|' :: after) = ('|' :: first) :: rest :=
        hlines [] '|' List.not_mem_nil (by decide) (by decide)
      rw [ha.lines_append, ha.lines_append, hlines before '|' hn (by decide) (by decide),
        lines_append_newline_of_not_mem hn, hbar]
      exact (Rereads.refl _).append fun _ _ => (Rereads.cut (hd.mono hfirst)).append fun _ _ => Rereads.refl rest
  | @restated above before after left ha hn hd hb hc =>
      obtain ⟨first, rest, hfirst, hlines⟩ := exists_lines_eq_cons after
      have habove : lines (above ++ before) = lines above ++ [before] := by
        have hne : before ≠ [] := by
          rintro rfl
          exact hb blank_nil
        rw [ha.lines_append, lines_eq_singleton hne hn]
      obtain ⟨-, line, -, rights, -, hw, -⟩ := id hc
      have hopened : lines (left.toList ++ " -> ".toList ++ after) =
          (left.toList ++ " -> ".toList ++ first) :: rest := by
        have hleft : '\n' ∉ left.toList ++ " ->".toList := by
          rw [List.mem_append, not_or]
          exact ⟨fun hm => absurd (hw.isWord.2 '\n' hm) (by decide), by decide⟩
        have harrow : " -> ".toList = " ->".toList ++ [' '] := rfl
        have hline := hlines _ ' ' hleft (by decide) (by decide)
        simpa only [harrow, List.append_assoc, List.singleton_append] using hline
      rw [ha.lines_append, ha.lines_append, hlines before '|' hn (by decide) (by decide),
        lines_append_newline_of_not_mem hn, hopened]
      refine (Rereads.refl _).append fun u hu => (Rereads.restate hw (hd.mono hfirst) hb fun w hread => ?_).append
        fun _ _ => Rereads.refl rest
      rw [← leftAfter_append]
      exact hc.leftAfter (habove ▸ hu.append hread)
  | returned => exact .withReturns none cs
  | @blankLine above below pad ha hb =>
      have hpieces : ∀ l ∈ (pad.splitOn '\n').map dropReturn, Blank l := by
        intro l hl
        obtain ⟨piece, hp, rfl⟩ := List.mem_map.1 hl
        exact Blank.dropReturn fun c hc => hb c ((mem_splitOnP hp).1.subset hc)
      rw [ha.lines_append, ha.lines_append, lines_append_newline]
      exact (Rereads.refl _).append fun _ _ => .skip hpieces _
  | @blankEnd above pad ha hb =>
      rw [ha.lines_append]
      exact .append_skip (fun _ => hb.of_mem_lines) _
  | @blankAfter cs pad hb => exact .lines_append_newline none cs hb

/-- A text can be laid out anew in these ways, as often as one likes, and is still read to the same grammar with all its
orders. There is always a left side that a bar can give way to. -/
theorem layout_irrelevant {text : String} {g : Grammar} (hg : read text = .ok g) :
    (∀ other : String, Relation.ReflTransGen Relaid text.toList other.toList → read other = .ok g) ∧
    ∀ above before after, text.toList = above ++ (before ++ '|' :: after) → AtLineStart above → '\n' ∉ before →
      Line.Divides before (after.takeWhile (· ≠ '\n')) → ∃ left, Current (lines (above ++ before)) left := by
  refine ⟨fun other h => ?_, fun above before after htext ha hn hd => ?_⟩
  · have hrereads {cs : List Char} (h : Relation.ReflTransGen Relaid text.toList cs) :
        Rereads none (lines text.toList) (lines cs) := by
      induction h with
      | refl => exact .refl _
      | tail _ hstep ih => exact ih.trans hstep.rereads
    exact read_eq_ok_of_rereads (hrereads h) hg
  · obtain ⟨-, u, hu, -, -⟩ := read_eq_ok_iff.1 hg
    obtain ⟨first, rest, hfirst, hlines⟩ := exists_lines_eq_cons after
    rw [htext, ha.lines_append, hlines before '|' hn (by decide) (by decide), ← List.singleton_append] at hu
    obtain ⟨v, _, hv, hmore, rfl⟩ := hu.of_append
    obtain ⟨w, _, hw, -, rfl⟩ := hmore.of_append
    obtain ⟨-, left, hbar⟩ := Rereads.exists_of_bar (hd.mono hfirst) hw
    have hread : ∃ u, ReadsTo none (lines (above ++ before)) u ∧ leftAfter none u = some left := by
      rw [ha.lines_append]
      obtain ⟨hb, hleft, -⟩ | ⟨rights, hb, hbefore, -⟩ := hbar
      · obtain ⟨u, hu, hvu⟩ := Rereads.append_skip (fun _ => hb.of_mem_lines) _ v hv
        exact ⟨u, hu, hvu.leftAfter ▸ hleft⟩
      · have hne : before ≠ [] := by
          rintro rfl
          exact hb blank_nil
        rw [lines_eq_singleton hne hn]
        exact ⟨_, hv.append hbefore, by rw [leftAfter_append, leftAfter_cons, leftAfter_nil]⟩
    obtain ⟨u, hu, hleft⟩ := hread
    refine (exists_current _).resolve_left fun hnone => ?_
    rw [leftAfter_of_forall_not_opening hu hnone] at hleft
    cases hleft

def compact : String :=
  "S -> a | b\n|S c"

def spread : String :=
  "\t\nS -> a \r\nS ->  b\r\n\r\n|S c"

theorem compact_relaid : Relation.ReflTransGen Relaid compact.toList spread.toList := by
  have hcurrent : Current (lines "S -> a ".toList) "S" :=
    ⟨[], "S -> a ".toList, [], " a ".toList, by rfl, Line.read_eq_ok_iff.1 (by rfl), by simp⟩
  have h₁ : Relaid compact.toList "S -> a \nS ->  b\n|S c".toList :=
    @Relaid.restated [] "S -> a ".toList " b\n|S c".toList "S" (by decide) (by decide) (by decide) (by decide) hcurrent
  have h₂ : Relaid "S -> a \nS ->  b\n|S c".toList "S -> a \nS ->  b\n\n|S c".toList :=
    @Relaid.broken "S -> a \nS ->  b\n".toList [] "S c".toList (by decide) (by decide) (by decide)
  have h₃ : Relaid "S -> a \nS ->  b\n\n|S c".toList "S -> a \r\nS ->  b\r\n\r\n|S c".toList :=
    .returned
  have h₄ : Relaid "S -> a \r\nS ->  b\r\n\r\n|S c".toList spread.toList :=
    @Relaid.blankLine [] _ ['\t'] (by decide) (by decide)
  exact .tail (.tail (.tail (.single h₁) h₂) h₃) h₄

theorem compact_layout_irrelevant : ∃ g, read compact = .ok g ∧ read spread = .ok g ∧
    g.productions "S" = [[.terminal "a"], [.terminal "b"], [.nonTerminal "S", .terminal "c"]] ∧
    ∃ left, Current (lines "S -> a ".toList) left := by
  let g : Grammar := ⟨"S", ["a", "b", "c"], [⟨"S", [[.terminal "a"], [.terminal "b"], [.nonTerminal "S", .terminal "c"]]⟩]⟩
  have hg : read compact = .ok g := by rfl
  obtain ⟨hrelaid, hcurrent⟩ := layout_irrelevant hg
  exact ⟨g, hg, hrelaid spread compact_relaid, rfl,
    hcurrent [] "S -> a ".toList " b\n|S c".toList rfl (by decide) (by decide) (by decide)⟩

end NormalForms.Grammar
