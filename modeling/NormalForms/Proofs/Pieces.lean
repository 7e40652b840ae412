import Mathlib.Data.List.Infix
import Mathlib.Data.List.TakeWhile
import NormalForms.Text.Pieces

namespace NormalForms

def BlankFree (cs : List Char) : Prop :=
  ∀ c ∈ cs, isBlank c = false

instance (cs : List Char) : Decidable (BlankFree cs) :=
  List.decidableBAll _ cs

def IsWord (name : String) : Prop :=
  name ≠ "" ∧ BlankFree name.toList

instance (name : String) : Decidable (IsWord name) :=
  inferInstanceAs (Decidable (_ ∧ _))

theorem isBlank_space : isBlank ' ' = true := by
  decide

theorem isBlank_return : isBlank '\r' = true := by
  decide

theorem words_nil : words [] = [] := by
  simp [words]

theorem words_append_blank {c : Char} (hc : isBlank c = true) (cs ds : List Char) :
    words (cs ++ c :: ds) = words cs ++ words ds := by
  simp only [words, List.splitOnP_append_cons cs ds hc, List.filter_append, List.map_append]

theorem words_cons_blank {c : Char} (hc : isBlank c = true) (cs : List Char) : words (c :: cs) = words cs :=
  words_append_blank hc [] cs

theorem words_toList {name : String} (h : IsWord name) : words name.toList = [name] := by
  have hne : name.toList ≠ [] := by simpa using h.1
  simp [words, List.splitOnP_eq_singleton h.2, hne]

/-- The pieces of a text hold no separator, and the first one stands at its beginning. -/
theorem exists_splitOnP_eq_cons (p : Char → Bool) (cs : List Char) :
    ∃ first pieces, cs.splitOnP p = first :: pieces ∧ first <+: cs ∧ (∀ c ∈ first, p c = false) ∧
      ∀ piece ∈ pieces, piece <:+: cs ∧ ∀ c ∈ piece, p c = false := by
  induction cs with
  | nil => exact ⟨[], [], by simp⟩
  | cons c cs ih =>
      obtain ⟨first, pieces, he, hstart, hfree, hpieces⟩ := ih
      have hpieces' : ∀ piece ∈ pieces, piece <:+: c :: cs ∧ ∀ c ∈ piece, p c = false :=
        fun piece hp => ⟨List.infix_cons (hpieces piece hp).1, (hpieces piece hp).2⟩
      rw [List.splitOnP_cons_eq_if_modifyHead, he]
      by_cases hc : p c = true
      · refine ⟨[], first :: pieces, if_pos hc, List.nil_prefix, by simp, ?_⟩
        rw [List.forall_mem_cons]
        exact ⟨⟨List.infix_cons hstart.isInfix, hfree⟩, hpieces'⟩
      · refine ⟨c :: first, pieces, if_neg hc, List.cons_prefix_cons.2 ⟨rfl, hstart⟩, ?_, hpieces'⟩
        rw [List.forall_mem_cons]
        exact ⟨by simpa using hc, hfree⟩

theorem mem_splitOnP {p : Char → Bool} {cs piece : List Char} (h : piece ∈ cs.splitOnP p) :
    piece <:+: cs ∧ ∀ c ∈ piece, p c = false := by
  obtain ⟨first, pieces, he, hstart, hfree, hpieces⟩ := exists_splitOnP_eq_cons p cs
  rw [he] at h
  rcases List.mem_cons.1 h with rfl | h
  · exact ⟨hstart.isInfix, hfree⟩
  · exact hpieces piece h

theorem mem_words {cs : List Char} {name : String} (h : name ∈ words cs) : IsWord name ∧ name.toList <:+: cs := by
  simp only [words, List.mem_map, List.mem_filter, decide_eq_true_eq] at h
  obtain ⟨piece, ⟨hp, hne⟩, rfl⟩ := h
  obtain ⟨hpiece, hfree⟩ := mem_splitOnP hp
  rw [IsWord, String.toList_ofList]
  exact ⟨⟨by simpa using hne, hfree⟩, hpiece⟩

def Blank (cs : List Char) : Prop :=
  ∀ c ∈ cs, isBlank c = true

instance (cs : List Char) : Decidable (Blank cs) :=
  List.decidableBAll _ cs

theorem blank_nil : Blank [] := by
  simp [Blank]

theorem words_blank_append {pad : List Char} (h : Blank pad) (cs : List Char) : words (pad ++ cs) = words cs := by
  induction pad with
  | nil => rfl
  | cons c pad ih =>
      obtain ⟨hc, hpad⟩ := List.forall_mem_cons.1 h
      rw [List.cons_append, words_cons_blank hc, ih hpad]

theorem blank_replicate (n : Nat) : Blank (List.replicate n ' ') :=
  fun _ hc => List.eq_of_mem_replicate hc ▸ isBlank_space

theorem words_of_blank {cs : List Char} (h : Blank cs) : words cs = [] := by
  rw [← List.append_nil cs, words_blank_append h, words_nil]

theorem words_toList_append {name : String} (h : IsWord name) {rest : List Char}
    (hrest : ∀ c ∈ rest.head?, isBlank c = true) : words (name.toList ++ rest) = name :: words rest := by
  cases rest with
  | nil => rw [List.append_nil, words_toList h, words_nil]
  | cons c rest =>
      have hc : isBlank c = true := hrest c rfl
      rw [words_append_blank hc, words_toList h, words_cons_blank hc, List.singleton_append]

/-- A text is blank or begins, after some blanks, with a word, which ends before a blank if not with the text. -/
theorem blank_or_exists_word (cs : List Char) : Blank cs ∨ ∃ pad name rest,
    cs = pad ++ (String.toList name ++ rest) ∧ Blank pad ∧ IsWord name ∧ ∀ c ∈ rest.head?, isBlank c = true := by
  induction cs with
  | nil => exact .inl blank_nil
  | cons c cs ih =>
      by_cases hc : isBlank c = true
      · refine ih.imp (fun h => List.forall_mem_cons.2 ⟨hc, h⟩) ?_
        rintro ⟨pad, name, rest, rfl, hpad, h⟩
        exact ⟨c :: pad, name, rest, rfl, List.forall_mem_cons.2 ⟨hc, hpad⟩, h⟩
      · let word := c :: cs.takeWhile (!isBlank ·)
        have hword : BlankFree word :=
          List.forall_mem_cons.2 ⟨by simpa using hc, fun d hd => by simpa using List.mem_takeWhile_imp hd⟩
        refine .inr ⟨[], .ofList word, cs.dropWhile (!isBlank ·), ?_, blank_nil, ⟨by simp [word], ?_⟩, ?_⟩
        · rw [String.toList_ofList, List.nil_append, List.cons_append, List.takeWhile_append_dropWhile]
        · rwa [String.toList_ofList]
        · intro d hd
          have h := List.head?_dropWhile_not (!isBlank ·) cs
          rw [Option.mem_def.1 hd] at h
          simpa using h

theorem words_eq_nil_iff {cs : List Char} : words cs = [] ↔ Blank cs := by
  refine ⟨fun h => (blank_or_exists_word cs).resolve_right ?_, words_of_blank⟩
  rintro ⟨pad, name, rest, rfl, hpad, hname, hrest⟩
  rw [words_blank_append hpad, words_toList_append hname hrest] at h
  cases h

inductive Padded (name : String) : List Char → Prop
  | intro {pad pad' : List Char} : Blank pad → Blank pad' → Padded name (pad ++ (name.toList ++ pad'))

theorem Padded.isInfix {name : String} {cs : List Char} (h : Padded name cs) : name.toList <:+: cs := by
  obtain @⟨pad, pad', -, -⟩ := h
  exact ⟨pad, pad', List.append_assoc _ _ _⟩

theorem words_eq_singleton_iff {cs : List Char} {name : String} : words cs = [name] ↔ IsWord name ∧ Padded name cs := by
  constructor
  · intro h
    obtain hb | ⟨pad, name, rest, rfl, hpad, hname, hrest⟩ := blank_or_exists_word cs
    · rw [words_of_blank hb] at h
      cases h
    · rw [words_blank_append hpad, words_toList_append hname hrest, List.cons.injEq, words_eq_nil_iff] at h
      obtain ⟨rfl, hb⟩ := h
      exact ⟨hname, .intro hpad hb⟩
  · rintro ⟨hname, @⟨pad, pad', hpad, hpad'⟩⟩
    have hhead : ∀ c ∈ pad'.head?, isBlank c = true := fun c hc => hpad' c (List.mem_of_mem_head? hc)
    rw [words_blank_append hpad, words_toList_append hname hhead, words_of_blank hpad']

/-- There is more than one word if and only if a blank stands between two parts that are not blank. -/
theorem one_lt_length_words_iff {cs : List Char} :
    1 < (words cs).length ↔
      ∃ before c after, cs = before ++ c :: after ∧ isBlank c = true ∧ ¬ Blank before ∧ ¬ Blank after := by
  constructor
  · intro h
    obtain hb | ⟨pad, name, rest, rfl, hpad, hname, hrest⟩ := blank_or_exists_word cs
    · simp [words_of_blank hb] at h
    · rw [words_blank_append hpad, words_toList_append hname hrest] at h
      cases rest with
      | nil => simp [words_nil] at h
      | cons c rest =>
          have hc : isBlank c = true := hrest c rfl
          refine ⟨pad ++ name.toList, c, rest, by simp, hc, ?_, ?_⟩
          · rw [← words_eq_nil_iff, words_blank_append hpad, words_toList hname]
            exact List.cons_ne_nil _ _
          · rw [words_cons_blank hc] at h
            rw [← words_eq_nil_iff]
            exact List.ne_nil_of_length_pos (by simpa using h)
  · rintro ⟨before, c, after, rfl, hc, hb, ha⟩
    rw [← words_eq_nil_iff] at hb ha
    have := List.length_pos_iff.2 hb
    have := List.length_pos_iff.2 ha
    rw [words_append_blank hc, List.length_append]
    omega

def ArrowFree (cs : List Char) : Prop :=
  ¬ ['-', '>'] <:+: cs

instance (cs : List Char) : Decidable (ArrowFree cs) :=
  inferInstanceAs (Decidable (¬ ['-', '>'] <:+: cs))

theorem arrowFree_nil : ArrowFree [] := by
  simp [ArrowFree]

theorem ArrowFree.mono {cs ds : List Char} (h : ArrowFree ds) (hcs : cs <:+: ds) : ArrowFree cs :=
  fun ha => h (ha.trans hcs)

theorem arrowFree_cons {c : Char} {cs : List Char} :
    ArrowFree (c :: cs) ↔ ¬ (c = '-' ∧ cs.head? = some '>') ∧ ArrowFree cs := by
  have hstart : ['-', '>'] <+: c :: cs ↔ c = '-' ∧ cs.head? = some '>' := by
    cases cs <;> simp [eq_comm]
  rw [ArrowFree, ArrowFree, List.infix_cons_iff, hstart, not_or]

/-- An arrow does not go across any other character. -/
theorem arrowFree_append_cons {c : Char} (hl : c ≠ '-') (hr : c ≠ '>') {cs ds : List Char} :
    ArrowFree (cs ++ c :: ds) ↔ ArrowFree cs ∧ ArrowFree ds := by
  induction cs with
  | nil => simp [arrowFree_cons, arrowFree_nil, hl]
  | cons d cs ih =>
      have hhead : (cs ++ c :: ds).head? = some '>' ↔ cs.head? = some '>' := by
        cases cs <;> simp [hr]
      rw [List.cons_append, arrowFree_cons, arrowFree_cons, ih, hhead, and_assoc]

theorem ArrowFree.cons {c : Char} (hl : c ≠ '-') {cs : List Char} (h : ArrowFree cs) : ArrowFree (c :: cs) :=
  arrowFree_cons.2 ⟨fun hc => hl hc.1, h⟩

theorem Blank.arrowFree {cs : List Char} (h : Blank cs) : ArrowFree cs :=
  fun ha => absurd (h '-' (ha.subset List.mem_cons_self)) (by decide)

theorem ArrowFree.append_of_blank {pad cs : List Char} (hp : Blank pad) (h : ArrowFree cs) : ArrowFree (pad ++ cs) := by
  induction pad with
  | nil => exact h
  | cons c pad ih =>
      obtain ⟨hc, hp⟩ := List.forall_mem_cons.1 hp
      refine .cons ?_ (ih hp)
      rintro rfl
      exact absurd hc (by decide)

theorem arrowFree_append_bar {pad : List Char} (h : Blank pad) {rights : List Char} :
    ArrowFree (pad ++ '|' :: rights) ↔ ArrowFree rights :=
  (arrowFree_append_cons (by decide) (by decide)).trans (and_iff_right h.arrowFree)

theorem arrowPieces_cons {c : Char} {cs : List Char} (h : ¬ (c = '-' ∧ cs.head? = some '>')) :
    arrowPieces (c :: cs) = (arrowPieces cs).modifyHead (c :: ·) := by
  rw [arrowPieces]
  rintro ds rfl rfl
  exact h ⟨rfl, rfl⟩

theorem ArrowFree.arrowPieces {cs : List Char} (h : ArrowFree cs) : arrowPieces cs = [cs] := by
  induction cs with
  | nil => rfl
  | cons c cs ih =>
      obtain ⟨hc, hcs⟩ := arrowFree_cons.1 h
      rw [arrowPieces_cons hc, ih hcs, List.modifyHead_cons]

theorem ArrowFree.arrowPieces_append {cs : List Char} (h : ArrowFree cs) (ds : List Char) :
    NormalForms.arrowPieces (cs ++ '-' :: '>' :: ds) = cs :: NormalForms.arrowPieces ds := by
  induction cs with
  | nil => rw [List.nil_append, NormalForms.arrowPieces]
  | cons c cs ih =>
      obtain ⟨hc, hcs⟩ := arrowFree_cons.1 h
      have hc' : ¬ (c = '-' ∧ (cs ++ '-' :: '>' :: ds).head? = some '>') := by
        cases cs <;> simp_all
      rw [List.cons_append, arrowPieces_cons hc', ih hcs, List.modifyHead_cons]

/-- The pieces between the arrows hold no arrow, and the first one stands at the beginning. -/
theorem exists_arrowPieces_eq_cons (cs : List Char) :
    ∃ first pieces, arrowPieces cs = first :: pieces ∧ first <+: cs ∧ ArrowFree first ∧
      ∀ piece ∈ pieces, ArrowFree piece := by
  induction cs using arrowPieces.induct with
  | case1 => exact ⟨[], [], rfl, List.nil_prefix, arrowFree_nil, by simp⟩
  | case2 cs ih =>
      obtain ⟨first, pieces, he, -, hfree, hpieces⟩ := ih
      refine ⟨[], first :: pieces, by rw [arrowPieces, he], List.nil_prefix, arrowFree_nil, ?_⟩
      rw [List.forall_mem_cons]
      exact ⟨hfree, hpieces⟩
  | case3 c cs hc ih =>
      obtain ⟨first, pieces, he, hstart, hfree, hpieces⟩ := ih
      have hhead : ¬ (c = '-' ∧ cs.head? = some '>') := by
        cases cs <;> simp_all
      refine ⟨c :: first, pieces, by rw [arrowPieces_cons hhead, he, List.modifyHead_cons],
        List.cons_prefix_cons.2 ⟨rfl, hstart⟩, arrowFree_cons.2 ⟨?_, hfree⟩, hpieces⟩
      rintro ⟨rfl, hf⟩
      refine hhead ⟨rfl, ?_⟩
      cases first with
      | nil => cases hf
      | cons d first =>
          obtain ⟨ds, rfl⟩ := hstart
          exact hf

theorem arrowFree_of_mem_arrowPieces {cs piece : List Char} (h : piece ∈ arrowPieces cs) : ArrowFree piece := by
  obtain ⟨first, pieces, he, -, hfree, hpieces⟩ := exists_arrowPieces_eq_cons cs
  rw [he] at h
  rcases List.mem_cons.1 h with rfl | h
  · exact hfree
  · exact hpieces piece h

theorem dropReturn_eq_self {line : List Char} (h : '\r' ∉ line) : dropReturn line = line :=
  if_neg fun hr => h (List.mem_of_getLast? hr)

theorem intercalate_cons {α : Type} (sep line : List α) (more : List (List α)) :
    sep.intercalate (line :: more) = line ++ more.flatMap (sep ++ ·) := by
  induction more generalizing line with
  | nil => simp
  | cons next more ih => rw [List.intercalate_cons_cons, ih, List.flatMap_cons, List.append_assoc, List.append_assoc]

theorem intercalate_append (sep : List Char) {ls ms : List (List Char)} (hl : ls ≠ []) (hm : ms ≠ []) :
    sep.intercalate (ls ++ ms) = sep.intercalate ls ++ sep ++ sep.intercalate ms := by
  obtain ⟨l, ls, rfl⟩ := List.exists_cons_of_ne_nil hl
  obtain ⟨m, ms, rfl⟩ := List.exists_cons_of_ne_nil hm
  rw [List.cons_append, intercalate_cons, intercalate_cons, intercalate_cons]
  simp

theorem intercalate_flatten (sep : List Char) {blocks : List (List (List Char))} (h : ∀ block ∈ blocks, block ≠ []) :
    sep.intercalate (blocks.map sep.intercalate) = sep.intercalate blocks.flatten := by
  induction blocks with
  | nil => rfl
  | cons block blocks ih =>
      obtain ⟨hblock, hblocks⟩ := List.forall_mem_cons.1 h
      cases blocks with
      | nil => simp
      | cons next blocks =>
          have hne : (next :: blocks).flatten ≠ [] := by simp [hblocks next]
          rw [List.flatten_cons (l := block), intercalate_append sep hblock hne, ← ih hblocks]
          exact List.intercalate_cons_cons

theorem arrowPieces_ne_nil (cs : List Char) : arrowPieces cs ≠ [] := by
  obtain ⟨first, pieces, h, -⟩ := exists_arrowPieces_eq_cons cs
  simp [h]

theorem intercalate_arrowPieces (cs : List Char) : ['-', '>'].intercalate (arrowPieces cs) = cs := by
  induction cs using arrowPieces.induct with
  | case1 => rfl
  | case2 cs ih => 
      obtain ⟨first, pieces, h, -⟩ := exists_arrowPieces_eq_cons cs
      rw [arrowPieces, h, List.intercalate_cons_cons, ← h, ih]
      rfl
  | case3 c cs hc ih =>
      obtain ⟨first, pieces, h, -⟩ := exists_arrowPieces_eq_cons cs
      rw [h, intercalate_cons] at ih
      rw [arrowPieces, h, List.modifyHead_cons, intercalate_cons, List.cons_append, ih]
      exact hc

/-- The pieces between the arrows are those without an arrow that make up the text when arrows are put between them. -/
theorem arrowPieces_eq_iff {cs : List Char} {pieces : List (List Char)} :
    arrowPieces cs = pieces ↔
      pieces ≠ [] ∧ (∀ piece ∈ pieces, ArrowFree piece) ∧ ['-', '>'].intercalate pieces = cs := by
  constructor
  · rintro rfl
    exact ⟨arrowPieces_ne_nil cs, fun piece => arrowFree_of_mem_arrowPieces, intercalate_arrowPieces cs⟩
  · rintro ⟨hne, hfree, rfl⟩
    induction pieces with
    | nil => exact absurd rfl hne
    | cons piece pieces ih =>
        obtain ⟨hpiece, hpieces⟩ := List.forall_mem_cons.1 hfree
        cases pieces with
        | nil => simpa using hpiece.arrowPieces
        | cons next pieces =>
            rw [List.intercalate_cons_cons, List.append_assoc]
            exact (hpiece.arrowPieces_append _).trans (congrArg _ (ih (List.cons_ne_nil _ _) hpieces))

theorem arrowPieces_eq_singleton_iff {cs piece : List Char} : arrowPieces cs = [piece] ↔ ArrowFree cs ∧ piece = cs := by
  simp only [arrowPieces_eq_iff, ne_eq, List.cons_ne_nil, not_false_iff, List.forall_mem_singleton, true_and,
    List.intercalate_singleton]
  constructor
  · rintro ⟨h, rfl⟩
    exact ⟨h, rfl⟩
  · rintro ⟨h, rfl⟩
    exact ⟨h, rfl⟩

theorem arrowPieces_eq_pair_iff {cs before after : List Char} :
    arrowPieces cs = [before, after] ↔ ArrowFree before ∧ ArrowFree after ∧ cs = before ++ '-' :: '>' :: after := by
  have hline : ['-', '>'].intercalate [before, after] = before ++ '-' :: '>' :: after := by
    rw [List.intercalate_cons_cons, List.intercalate_singleton, List.append_assoc]
    rfl
  rw [arrowPieces_eq_iff, hline, List.forall_mem_cons, List.forall_mem_singleton, and_assoc, eq_comm (b := cs)]
  exact and_iff_right (List.cons_ne_nil _ _)

theorem arrowPieces_append (cs ds : List Char) :
    arrowPieces (cs ++ '-' :: '>' :: ds) = arrowPieces cs ++ arrowPieces ds := by
  rw [arrowPieces_eq_iff, intercalate_append _ (arrowPieces_ne_nil cs) (arrowPieces_ne_nil ds), intercalate_arrowPieces,
    intercalate_arrowPieces, List.forall_mem_append]
  exact ⟨by simp [arrowPieces_ne_nil],
    ⟨fun _ => arrowFree_of_mem_arrowPieces, fun _ => arrowFree_of_mem_arrowPieces⟩, by simp⟩

theorem two_lt_length_arrowPieces_iff {cs : List Char} :
    2 < (arrowPieces cs).length ↔ ∃ a b c, cs = a ++ '-' :: '>' :: (b ++ '-' :: '>' :: c) := by
  constructor
  · intro h
    rw [← intercalate_arrowPieces cs]
    match hp : arrowPieces cs, h with
    | a :: b :: c :: pieces, _ =>
        exact ⟨a, b, ['-', '>'].intercalate (c :: pieces), by simp [List.intercalate_cons_cons]⟩
  · rintro ⟨a, b, c, rfl⟩
    have ha := List.length_pos_iff.2 (arrowPieces_ne_nil a)
    have hb := List.length_pos_iff.2 (arrowPieces_ne_nil b)
    have hc := List.length_pos_iff.2 (arrowPieces_ne_nil c)
    rw [arrowPieces_append, arrowPieces_append, List.length_append, List.length_append]
    omega

/-- Lines that are neither empty nor hold an ending are read as they are written. -/
theorem lines_intercalate {ls : List (List Char)} (hne : ls ≠ []) (h : ∀ l ∈ ls, l ≠ [] ∧ '\n' ∉ l ∧ '\r' ∉ l) :
    lines (['\n'].intercalate ls) = ls := by
  have hpieces : (['\n'].intercalate ls).splitOn '\n' = ls := List.splitOn_intercalate _ (fun l hl => (h l hl).2.1) hne
  have hreturn : ls.dropLast.map dropReturn = ls.dropLast := by
    rw [List.map_congr_left fun l hl => dropReturn_eq_self (h l (List.dropLast_subset ls hl)).2.2, List.map_id']
  have hlast : (ls.getLast hne) ≠ [] := (h _ (List.getLast_mem hne)).1
  rw [lines, hpieces, hreturn, List.getLast?_eq_some_getLast hne]
  simp [hlast, List.dropLast_concat_getLast]

end NormalForms
