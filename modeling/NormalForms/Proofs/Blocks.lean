import NormalForms.Proofs.Collecting

namespace NormalForms.Grammar

structure Block where
  left : String
  rights : List Char
  more : List (List Char)

namespace Block

variable (b : Block)

def lines : List Line :=
  .opening b.left b.rights :: b.more.map .continuation

def written : List (String × List Char) :=
  (b.rights :: b.more).map (b.left, ·)

def alternatives : List (List String) :=
  (b.rights :: b.more).flatMap splitAlternatives

variable {b}

theorem flatMap_lines_eq_nil_iff {blocks : List Block} : blocks.flatMap lines = [] ↔ blocks = [] := by
  cases blocks <;> simp [lines]

end Block

def InBlocks (ls : List (List Char)) (blocks : List Block) : Prop :=
  List.Forall₂ Line.Written (ls.filter (¬ Blank ·)) (blocks.flatMap Block.lines)

def Arranged (ls : List (List Char)) : Prop :=
  ∀ above line, above ++ [line] <+: ls → Line.Fits (∃ l ∈ above, ¬ Blank l) line

variable {ls : List (List Char)} {blocks : List Block}

theorem arranged_nil : Arranged [] := by
  intro above line h
  simp at h

theorem Arranged.concat (h : Arranged ls) {line : List Char} (hl : Line.Fits (∃ l ∈ ls, ¬ Blank l) line) :
    Arranged (ls ++ [line]) := by
  intro above other hp
  rcases List.prefix_concat_iff.1 hp with he | hp
  · obtain ⟨rfl, rfl⟩ := List.append_singleton_inj.1 he
    exact hl
  · exact h above other hp

theorem arranged_or_exists_misfit (ls : List (List Char)) : Arranged ls ∨ ∃ above line below fault,
    ls = above ++ line :: below ∧ Arranged above ∧ Line.Misfit (∃ l ∈ above, ¬ Blank l) line fault := by
  induction ls using List.reverseRecOn with
  | nil => exact .inl arranged_nil
  | append_singleton ls line ih =>
      obtain ha | ⟨above, other, below, fault, rfl, ha, hm⟩ := ih
      · refine (Line.fits_or_misfit (∃ l ∈ ls, ¬ Blank l) line).imp ha.concat ?_
        rintro ⟨fault, hm⟩
        exact ⟨ls, line, [], fault, rfl, ha, hm⟩
      · exact .inr ⟨above, other, below ++ [line], fault, by simp, ha, hm⟩

namespace InBlocks

theorem exists_line (h : InBlocks ls blocks) {b : Block} (hb : b ∈ blocks) {l : Line} (hl : l ∈ b.lines) :
    ∃ line ∈ ls, Line.Written line l := by
  obtain ⟨line, hm, hw⟩ := exists_of_mem_of_forall₂ h (List.mem_flatMap.2 ⟨b, hb, hl⟩)
  exact ⟨line, List.mem_of_mem_filter hm, hw⟩

theorem exists_block (h : InBlocks ls blocks) {line : List Char} (hline : line ∈ ls) {l : Line}
    (hl : Line.Written line l) : ∃ b ∈ blocks, l ∈ b.lines := by
  have hm : line ∈ ls.filter (¬ Blank ·) := List.mem_filter.2 ⟨hline, by simpa using hl.not_blank⟩
  obtain ⟨m, hm, hw⟩ := exists_of_mem_of_forall₂ h.flip hm
  rw [hl.unique hw]
  exact List.mem_flatMap.1 hm

theorem eq_nil_iff (h : InBlocks ls blocks) : blocks = [] ↔ ∀ l ∈ ls, Blank l := by
  have hlines : ls.filter (¬ Blank ·) = [] ↔ blocks.flatMap Block.lines = [] := by
    rw [← List.length_eq_zero_iff, h.length_eq, List.length_eq_zero_iff]
  rw [← Block.flatMap_lines_eq_nil_iff, ← hlines, List.filter_eq_nil_iff]
  simp

/-- A line that has its place goes into a new block or into the last one. -/
theorem concat (h : InBlocks ls blocks) {line : List Char} (hl : Line.Fits (∃ l ∈ ls, ¬ Blank l) line) :
    ∃ blocks, InBlocks (ls ++ [line]) blocks := by
  have hwritten {l : Line} (hw : Line.Written line l) : List.Forall₂ Line.Written ([line].filter (¬ Blank ·)) [l] := by
    simpa [hw.not_blank] using hw
  cases hl with
  | blank hb => exact ⟨blocks, by simpa [InBlocks, hb] using h⟩
  | @opening rights left hw =>
      refine ⟨blocks ++ [⟨left, rights, []⟩], ?_⟩
      rw [InBlocks, List.filter_append, List.flatMap_append]
      exact List.rel_append h (hwritten hw)
  | @continuation rights ho hw =>
      have hne : blocks ≠ [] := by
        rw [Ne, h.eq_nil_iff]
        simpa using ho
      obtain ⟨init, b, rfl⟩ := (List.eq_nil_or_concat' blocks).resolve_left hne
      refine ⟨init ++ [{ b with more := b.more ++ [rights] }], ?_⟩
      have hlines : (init ++ [{ b with more := b.more ++ [rights] }]).flatMap Block.lines =
          (init ++ [b]).flatMap Block.lines ++ [.continuation rights] := by
        simp [Block.lines]
      rw [InBlocks, List.filter_append, hlines]
      exact List.rel_append h (hwritten hw)

end InBlocks

theorem Arranged.exists_inBlocks (h : Arranged ls) : ∃ blocks, InBlocks ls blocks := by
  induction ls using List.reverseRecOn with
  | nil => exact ⟨[], .nil⟩
  | append_singleton ls line ih =>
      obtain ⟨blocks, hb⟩ := ih fun above other hp => h above other (hp.trans (List.prefix_append ls [line]))
      exact hb.concat (h ls line (List.prefix_refl _))

/-- What the lines say while a block may be open. Those that go on with it come first. -/
theorem readsTo_of_forall₂ {previous : Option String} {left : String} {more : List (List Char)}
    (h : List.Forall₂ Line.Written (ls.filter (¬ Blank ·))
      (more.map Line.continuation ++ blocks.flatMap Block.lines)) (hp : more ≠ [] → previous = some left) :
    ReadsTo previous ls (more.map (left, ·) ++ blocks.flatMap Block.written) := by
  induction ls generalizing previous left more blocks with
  | nil =>
      obtain ⟨hmore, hblocks⟩ := List.append_eq_nil_iff.1 (List.forall₂_nil_left_iff.1 h)
      have hm : more = [] := List.map_eq_nil_iff.1 hmore
      rw [hm, Block.flatMap_lines_eq_nil_iff.1 hblocks]
      exact fun _ => rfl
  | cons line ls ih =>
      by_cases hb : Blank line
      · rw [List.filter_cons_of_neg (by simpa using hb)] at h
        exact (ih h hp).skip hb
      · rw [List.filter_cons_of_pos (by simpa using hb)] at h
        cases more with
        | nil =>
            cases blocks with
            | nil => cases h
            | cons b blocks =>
                cases h with
                | cons hw hls => exact (ih hls fun _ => rfl).cons hw rfl
        | cons rights more =>
            cases h with
            | cons hw hls =>
                have hleft := hp (List.cons_ne_nil _ _)
                exact (ih hls fun _ => rfl).cons hw hleft

theorem InBlocks.readsTo (h : InBlocks ls blocks) : ReadsTo none ls (blocks.flatMap Block.written) :=
  @readsTo_of_forall₂ ls blocks none "" [] h fun hne => absurd rfl hne

variable {text : String}

def said (blocks : List Block) : List (String × List String) :=
  blocks.flatMap fun b => b.alternatives.map (b.left, ·)

theorem saying_flatMap_written (blocks : List Block) : saying (blocks.flatMap Block.written) = said blocks := by
  simp only [saying, said, Block.written, Block.alternatives, List.flatMap_assoc, List.flatMap_map, List.map_flatMap]

theorem left_flatMap_written (blocks : List Block) :
    ((blocks.flatMap Block.written).map (·.1)).eraseDups = (blocks.map Block.left).eraseDups := by
  induction blocks with
  | nil => rfl
  | cons b blocks ih =>
      have hb : (b.written.map (·.1)).eraseDups = [b.left].eraseDups := by
        simp [Block.written, List.eraseDups_cons]
      rw [List.flatMap_cons, List.map_append, List.map_cons, ← List.singleton_append]
      exact eraseDups_append_congr hb ih

theorem mem_said {names : List String} {left : String} :
    (left, names) ∈ said blocks ↔ ∃ b ∈ blocks, b.left = left ∧ names ∈ b.alternatives := by
  simp [said, and_left_comm]

theorem mem_alternatives {b : Block} {names : List String} :
    names ∈ b.alternatives ↔ ∃ l ∈ b.lines, names ∈ splitAlternatives l.rights := by
  simp [Block.alternatives, Block.lines, Line.rights]

theorem InBlocks.sayable {b : Block} (h : InBlocks ls (b :: blocks)) :
    Sayable b.left ((b :: blocks).map Block.left).eraseDups (said (b :: blocks)) := by
  refine ⟨by simp, fun name hn => ?_, fun x hx => ?_⟩
  · obtain ⟨c, hc, rfl⟩ := List.mem_map.1 (List.mem_eraseDups.1 hn)
    obtain ⟨line, -, hw⟩ := h.exists_line hc List.mem_cons_self
    cases hw with
    | opening hword he => exact isDeclarable_iff.2 ⟨hword.1, he⟩
  · obtain ⟨c, hc, -, hn⟩ := mem_said.1 hx
    obtain ⟨l, -, hn⟩ := mem_alternatives.1 hn
    exact ⟨ne_nil_of_mem_splitAlternatives hn, fun name hm => (mem_splitAlternatives hn hm).1.1⟩

theorem InBlocks.read_eq {b : Block} (h : InBlocks (lines text.toList) (b :: blocks)) :
    read text = (table b.left ((b :: blocks).map Block.left).eraseDups (said (b :: blocks))).checked := by
  rw [← left_flatMap_written, ← saying_flatMap_written]
  exact h.readsTo.read_eq

theorem InBlocks.read_eq_noRules (h : InBlocks (lines text.toList) []) : read text = .error (.line 0 .noRules) := by
  rw [read, h.readsTo 1]
  rfl

theorem InBlocks.leftAfter_ne_none (h : InBlocks ls blocks) :
    leftAfter none (blocks.flatMap Block.written) ≠ none ↔ ∃ l ∈ ls, ¬ Blank l := by
  have hblocks : leftAfter none (blocks.flatMap Block.written) = none ↔ blocks = [] := by
    cases blocks <;> simp [leftAfter, Block.written]
  rw [Ne, hblocks, h.eq_nil_iff]
  simp

theorem read_of_misfit {above below : List (List Char)} {line : List Char} {fault : LineFault}
    (hl : lines text.toList = above ++ line :: below) (ha : Arranged above)
    (hm : Line.Misfit (∃ l ∈ above, ¬ Blank l) line fault) :
    read text = .error (.line (above.length + 1) fault) := by
  obtain ⟨blocks, hb⟩ := ha.exists_inBlocks
  rw [← hb.leftAfter_ne_none] at hm
  have hread : readLines 1 none (lines text.toList) = .error (.line (above.length + 1) fault) := by
    rw [hl, hb.readsTo.readLines_append, readLines_cons_of_misfit hm, Nat.add_comm]
    rfl
  rw [read, hread]
  rfl

def MixedUnder (blocks : List Block) (left : String) : Prop :=
  ∃ b ∈ blocks, b.left = left ∧ ∃ names ∈ b.alternatives, Mixed names

/-- Why a text is rejected: because of the first line that is out of place, because there is no rule at all, or because
of the first left side under which the empty string stands beside another word. -/
inductive Rejected (text : String) : Error → Prop
  | misfit {above below : List (List Char)} {line : List Char} {fault : LineFault} :
      lines text.toList = above ++ line :: below → Arranged above → Line.Misfit (∃ l ∈ above, ¬ Blank l) line fault →
      Rejected text (.line (above.length + 1) fault)
  | noRules : (∀ line ∈ lines text.toList, Blank line) → Rejected text (.line 0 .noRules)
  | mixed {blocks : List Block} {before after : List String} {left : String} :
      InBlocks (lines text.toList) blocks → (blocks.map Block.left).eraseDups = before ++ left :: after →
      MixedUnder blocks left → (∀ other ∈ before, ¬ MixedUnder blocks other) →
      Rejected text (.grammar .epsilonInside left)

theorem exists_mixed_said (left : String) : (∃ x ∈ said blocks, x.1 = left ∧ Mixed x.2) ↔ MixedUnder blocks left := by
  simp only [Prod.exists, mem_said]
  constructor
  · rintro ⟨_, names, ⟨b, hb, hl, hn⟩, rfl, hm⟩
    exact ⟨b, hb, hl, names, hn, hm⟩
  · rintro ⟨b, hb, hl, names, hn, hm⟩
    exact ⟨left, names, ⟨b, hb, hl, hn⟩, rfl, hm⟩

theorem read_of_rejected {e : Error} (h : Rejected text e) : read text = .error e := by
  cases h with
  | misfit hl ha hm => exact read_of_misfit hl ha hm
  | noRules hb =>
      have hnil : (lines text.toList).filter (¬ Blank ·) = [] :=
        List.filter_eq_nil_iff.2 fun l hl => by simpa using hb l hl
      have hin : InBlocks (lines text.toList) [] := by
        rw [InBlocks, hnil]
        exact .nil
      exact hin.read_eq_noRules
  | @mixed blocks before after left hin hlefts hm hbefore =>
      cases blocks with
      | nil => simp [MixedUnder] at hm
      | cons b blocks =>
          rw [hin.read_eq, checked_eq_error, hin.sayable.fault?_table, Option.map_eq_some_iff]
          refine ⟨left, List.find?_eq_some_iff_append.2 ⟨?_, before, after, hlefts, fun other ho => ?_⟩, rfl⟩
          · simpa only [exists_mixed_said, decide_eq_true_eq] using hm
          · simpa only [exists_mixed_said, Bool.not_eq_true', decide_eq_false_iff_not] using hbefore other ho

theorem InBlocks.read_eq_ok {b : Block} (h : InBlocks (lines text.toList) (b :: blocks))
    (hm : ∀ left, ¬ MixedUnder (b :: blocks) left) :
    read text = .ok (table b.left ((b :: blocks).map Block.left).eraseDups (said (b :: blocks))) := by
  rw [h.read_eq, checked_eq_ok, h.sayable.fault?_table, Option.map_eq_none_iff, List.find?_eq_none]
  exact ⟨fun left _ => by simpa only [exists_mixed_said, decide_eq_true_eq] using hm left, rfl⟩

/-- What the reader can come to. -/
theorem accepted_or_rejected (text : String) :
    (∃ b blocks, InBlocks (lines text.toList) (b :: blocks) ∧ Arranged (lines text.toList) ∧
      ∀ left, ¬ MixedUnder (b :: blocks) left) ∨
    ∃ e, Rejected text e := by
  obtain ha | ⟨above, line, below, fault, hl, ha, hm⟩ := arranged_or_exists_misfit (lines text.toList)
  · obtain ⟨blocks, hin⟩ := ha.exists_inBlocks
    cases blocks with
    | nil => exact .inr ⟨_, .noRules (hin.eq_nil_iff.1 rfl)⟩
    | cons b blocks =>
        cases hf : ((b :: blocks).map Block.left).eraseDups.find? fun left => ∃ x ∈ said (b :: blocks),
            x.1 = left ∧ Mixed x.2 with
        | none =>
            refine .inl ⟨b, blocks, hin, ha, ?_⟩
            rintro left ⟨c, hc, rfl, hm⟩
            have hleft := List.find?_eq_none.1 hf c.left (List.mem_eraseDups.2 (List.mem_map_of_mem hc))
            rw [decide_eq_true_eq, exists_mixed_said] at hleft
            exact hleft ⟨c, hc, rfl, hm⟩
        | some left =>
            obtain ⟨hm, before, after, hlefts, hbefore⟩ := List.find?_eq_some_iff_append.1 hf
            simp only [exists_mixed_said, decide_eq_true_eq, Bool.not_eq_true', decide_eq_false_iff_not] at hm hbefore
            exact .inr ⟨_, .mixed hin hlefts hm hbefore⟩
  · exact .inr ⟨_, .misfit hl ha hm⟩

theorem InBlocks.exists_mixed_iff (h : InBlocks ls blocks) : (∃ left, MixedUnder blocks left) ↔
    ∃ line ∈ ls, ∃ l, Line.Written line l ∧ ∃ names ∈ splitAlternatives l.rights, Mixed names := by
  constructor
  · rintro ⟨_, b, hb, -, names, hn, hm⟩
    obtain ⟨l, hl, hn⟩ := mem_alternatives.1 hn
    obtain ⟨line, hline, hw⟩ := h.exists_line hb hl
    exact ⟨line, hline, l, hw, names, hn, hm⟩
  · rintro ⟨line, hline, l, hw, names, hn, hm⟩
    obtain ⟨b, hb, hl⟩ := h.exists_block hline hw
    exact ⟨b.left, b, hb, rfl, names, mem_alternatives.2 ⟨l, hl, hn⟩, hm⟩

theorem read_eq_error_iff {e : Error} : read text = .error e ↔ Rejected text e := by
  refine ⟨fun h => ?_, read_of_rejected⟩
  obtain ⟨b, blocks, hin, -, hm⟩ | ⟨other, ho⟩ := accepted_or_rejected text
  · rw [hin.read_eq_ok hm] at h
    cases h
  · rw [read_of_rejected ho] at h
    cases h
    exact ho

theorem exists_read_iff : (∃ g, read text = .ok g) ↔
    Arranged (lines text.toList) ∧
    (∃ line ∈ lines text.toList, ∃ left rights, Line.Written line (.opening left rights)) ∧
    ¬ ∃ line ∈ lines text.toList, ∃ l, Line.Written line l ∧ ∃ names ∈ splitAlternatives l.rights, Mixed names := by
  constructor
  · rintro ⟨g, hg⟩
    obtain ⟨b, blocks, hin, ha, hm⟩ | ⟨e, he⟩ := accepted_or_rejected text
    · obtain ⟨line, hline, hw⟩ := hin.exists_line List.mem_cons_self List.mem_cons_self
      exact ⟨ha, ⟨line, hline, _, _, hw⟩, mt hin.exists_mixed_iff.2 fun ⟨left, h⟩ => hm left h⟩
    · rw [read_of_rejected he] at hg
      cases hg
  · rintro ⟨ha, ⟨line, hline, left, rights, hw⟩, hm⟩
    obtain ⟨blocks, hin⟩ := ha.exists_inBlocks
    rw [← hin.exists_mixed_iff, not_exists] at hm
    cases blocks with
    | nil => exact absurd (hin.eq_nil_iff.1 rfl line hline) hw.not_blank
    | cons b blocks => exact ⟨_, hin.read_eq_ok hm⟩

theorem productions_table {start : String} {left : String} (hl : left ∈ (blocks.map Block.left).eraseDups) :
    (table start (blocks.map Block.left).eraseDups (said blocks)).productions left =
      (((blocks.filter (·.left = left)).flatMap Block.alternatives).map
        (·.map (symbolOf (blocks.map Block.left).eraseDups))).eraseDups := by
  rw [table_productions (nodup_eraseDups _) hl, said, filter_fst_flatMap, List.map_map]
  rfl

theorem terminals_table {start : String} {lefts : List String} :
    (table start lefts (said blocks)).terminals = ((blocks.flatMap Block.alternatives).flatten.filter
      fun name => name ∉ lefts ∧ name ∉ epsilonNames).eraseDups := by
  rw [table_terminals, said, List.filter_flatten, ← List.flatMap_def, List.flatMap_assoc, List.flatMap_assoc]
  simp only [List.flatMap_map]

/-- A text is read if and only if each of its lines has its place, one of them opens a rule, and the empty string never
stands beside another word. What is read are the blocks of the text: their left sides in the order in which they appear
first, under each of them the right sides of all its blocks, and the remaining words. Otherwise the first line out of
place is reported, or that there is no rule, or the first left side with an empty string in the wrong place. -/
theorem read_correct (text : String) :
    ((∃ g, read text = .ok g) ↔
      Arranged (lines text.toList) ∧
      (∃ line ∈ lines text.toList, ∃ left rights, Line.Written line (.opening left rights)) ∧
      ¬ ∃ line ∈ lines text.toList, ∃ l, Line.Written line l ∧ ∃ names ∈ splitAlternatives l.rights, Mixed names) ∧
    (∀ g, read text = .ok g → ∃ blocks, InBlocks (lines text.toList) blocks ∧
      g.nonTerminals = (blocks.map Block.left).eraseDups ∧ g.nonTerminals.head? = some g.start ∧
      (∀ left ∈ g.nonTerminals, g.productions left =
        (((blocks.filter (·.left = left)).flatMap Block.alternatives).map
          (·.map (symbolOf g.nonTerminals))).eraseDups) ∧
      g.terminals = ((blocks.flatMap Block.alternatives).flatten.filter
        fun name => name ∉ g.nonTerminals ∧ name ∉ epsilonNames).eraseDups ∧
      g = collect g.start (blocks.flatMap Block.written)) ∧
    ∀ e, read text = .error e ↔ Rejected text e := by
  refine ⟨exists_read_iff, fun g hg => ?_, fun e => read_eq_error_iff⟩
  obtain ⟨b, blocks, hin, -, hm⟩ | ⟨e, he⟩ := accepted_or_rejected text
  · rw [hin.read_eq_ok hm] at hg
    cases hg
    have hhead : ((b :: blocks).map Block.left).eraseDups.head? = some b.left := head?_eraseDups _
    rw [table_nonTerminals]
    refine ⟨b :: blocks, hin, rfl, hhead, fun left hl => productions_table hl, terminals_table, ?_⟩
    rw [collect_eq, ofAlternatives_eq_table, left_flatMap_written, saying_flatMap_written]
    rfl
  · rw [read_of_rejected he] at hg
    cases hg

/-- A text with a blank line in a rule, with empty right sides and with a rule that is given in two places. -/
def uneven : String :=
  "S -> a B |\n \n  | ε\nB->b S|a\r\nS -> S | a B\n"

theorem uneven_read_correct :
    (∃ g blocks, read uneven = .ok g ∧ InBlocks (lines uneven.toList) blocks ∧
      (blocks.map Block.left).eraseDups = ["S", "B"] ∧
      g.productions "S" = [[.terminal "a", .nonTerminal "B"], [.epsilon], [.nonTerminal "S"]] ∧
      g.productions "S" = (((blocks.filter (·.left = "S")).flatMap Block.alternatives).map
        (·.map (symbolOf ["S", "B"]))).eraseDups ∧
      g = collect "S" (blocks.flatMap Block.written)) ∧
    Rejected "S -> a\n\nS S -> b\n-> c" (.line 3 .brokenLeft) ∧
    Rejected "S -> B\nB -> a ε | b\nS -> ε ε" (.grammar .epsilonInside "S") := by
  let g : Grammar := ⟨"S", ["a", "b"],
    [⟨"S", [[.terminal "a", .nonTerminal "B"], [.epsilon], [.nonTerminal "S"]]⟩,
      ⟨"B", [[.terminal "b", .nonTerminal "S"], [.terminal "a"]]⟩]⟩
  have hg : read uneven = .ok g := by rfl
  obtain ⟨-, haccepted, -⟩ := read_correct uneven
  obtain ⟨blocks, hin, hnames, -, hproductions, -, hcollect⟩ := haccepted g hg
  refine ⟨⟨g, blocks, hg, hin, hnames.symm, rfl, hproductions "S" (by decide), hcollect⟩, ?_, ?_⟩
  · exact ((read_correct "S -> a\n\nS S -> b\n-> c").2.2 _).1 (by rfl)
  · exact ((read_correct "S -> B\nB -> a ε | b\nS -> ε ε").2.2 _).1 (by rfl)

end NormalForms.Grammar
