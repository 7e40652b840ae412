import NormalForms.Proofs.LineBreaks
import NormalForms.Proofs.Table

namespace NormalForms.Grammar

variable {previous : Option String} {ls ms : List (List Char)} {u v : List (String × List Char)}

/-- What is written comes to the same grammar, and can be continued in the same way. -/
structure Alike (u v : List (String × List Char)) : Prop where
  saying : saying u = saying v
  lefts : (u.map (·.1)).eraseDups = (v.map (·.1)).eraseDups
  last : u.getLast?.map (·.1) = v.getLast?.map (·.1)

namespace Alike

theorem refl (u : List (String × List Char)) : Alike u u :=
  ⟨rfl, rfl, rfl⟩

theorem trans {w : List (String × List Char)} (h : Alike u v) (h' : Alike v w) : Alike u w :=
  ⟨h.saying.trans h'.saying, h.lefts.trans h'.lefts, h.last.trans h'.last⟩

theorem append {u' v' : List (String × List Char)} (h : Alike u v) (h' : Alike u' v') : Alike (u ++ u') (v ++ v') := by
  refine ⟨?_, ?_, ?_⟩
  · rw [Grammar.saying, Grammar.saying, List.flatMap_append, List.flatMap_append]
    exact congrArg₂ (· ++ ·) h.saying h'.saying
  · rw [List.map_append, List.map_append]
    exact eraseDups_append_congr h.lefts h'.lefts
  · rw [List.getLast?_append, List.getLast?_append, Option.map_or, Option.map_or, h.last, h'.last]

theorem leftAfter (h : Alike u v) : leftAfter previous u = leftAfter previous v := by
  rw [Grammar.leftAfter, Grammar.leftAfter, h.last]

end Alike

/-- Wherever the first lines can be read, the second ones can, and say the same. -/
def Rereads (previous : Option String) (ls ms : List (List Char)) : Prop :=
  ∀ u, ReadsTo previous ls u → ∃ v, ReadsTo previous ms v ∧ Alike u v

namespace Rereads

theorem refl (ls : List (List Char)) : Rereads previous ls ls :=
  fun u hu => ⟨u, hu, .refl u⟩

theorem trans {ns : List (List Char)} (h : Rereads previous ls ms) (h' : Rereads previous ms ns) :
    Rereads previous ls ns := by
  intro u hu
  obtain ⟨v, hv, huv⟩ := h u hu
  obtain ⟨w, hw, hvw⟩ := h' v hv
  exact ⟨w, hw, huv.trans hvw⟩

theorem append {ls' ms' : List (List Char)} (h : Rereads previous ls ms)
    (h' : ∀ u, ReadsTo previous ls u → Rereads (leftAfter previous u) ls' ms') :
    Rereads previous (ls ++ ls') (ms ++ ms') := by
  intro w hw
  obtain ⟨u, u', hu, hu', rfl⟩ := hw.of_append
  obtain ⟨v, hv, huv⟩ := h u hu
  obtain ⟨v', hv', huv'⟩ := h' u hu u' hu'
  rw [huv.leftAfter] at hv'
  exact ⟨v ++ v', hv.append hv', huv.append huv'⟩

theorem skip (h : ∀ l ∈ ms, Blank l) (ls : List (List Char)) : Rereads previous ls (ms ++ ls) := by
  intro u hu
  refine ⟨u, ?_, .refl u⟩
  induction ms with
  | nil => exact hu
  | cons m ms ih =>
      obtain ⟨hm, hms⟩ := List.forall_mem_cons.1 h
      exact (ih hms).skip hm

theorem append_skip (h : ∀ l ∈ ms, Blank l) (ls : List (List Char)) : Rereads previous ls (ls ++ ms) := by
  have hls : Rereads previous (ls ++ []) (ls ++ ms) :=
    (refl ls).append fun _ _ => by simpa using skip h []
  rwa [List.append_nil] at hls

end Rereads

theorem read_eq_ok_iff {text : String} {g : Grammar} : read text = .ok g ↔
    ∃ start written, ReadsTo none (lines text.toList) written ∧ (written.map (·.1)).eraseDups.head? = some start ∧
      (table start (written.map (·.1)).eraseDups (saying written)).checked = .ok g := by
  simp only [head?_eraseDups]
  constructor
  · intro h
    obtain ⟨written, hr, h⟩ := bind_eq_ok.1 h
    have hreads : ReadsTo none (lines text.toList) written := .of_readLines hr
    cases written with
    | nil => cases h
    | cons x written => exact ⟨x.1, x :: written, hreads, rfl, hreads.read_eq.symm.trans (by rw [read, hr]; exact h)⟩
  · rintro ⟨start, written, hr, hs, hg⟩
    cases written with
    | nil => cases hs
    | cons x written =>
        cases hs
        exact hr.read_eq.trans hg

theorem read_eq_ok_of_rereads {text other : String} (h : Rereads none (lines text.toList) (lines other.toList))
    {g : Grammar} (hg : read text = .ok g) : read other = .ok g := by
  obtain ⟨start, u, hu, hs, hg⟩ := read_eq_ok_iff.1 hg
  obtain ⟨v, hv, huv⟩ := h u hu
  rw [huv.lefts] at hs hg
  rw [huv.saying] at hg
  exact read_eq_ok_iff.2 ⟨start, v, hv, hs, hg⟩

theorem splitAlternatives_congr {cs ds : List Char} (hc : '|' ∉ cs) (hd : '|' ∉ ds) (h : words cs = words ds) :
    splitAlternatives cs = splitAlternatives ds := by
  simp only [splitAlternatives, List.splitOn_eq_singleton hc, List.splitOn_eq_singleton hd, List.map_singleton, h]

theorem splitAlternatives_cons_blank {c : Char} (hc : isBlank c = true) (cs : List Char) :
    splitAlternatives (c :: cs) = splitAlternatives cs := by
  have hbar : c ≠ '|' := by
    rintro rfl
    exact absurd hc (by decide)
  by_cases h : '|' ∈ cs
  · obtain ⟨before, after, rfl, hb⟩ := List.eq_append_cons_of_mem h
    rw [← List.cons_append, splitAlternatives_append_bar, splitAlternatives_append_bar]
    congr 1
    exact splitAlternatives_congr (by simp [hb, hbar.symm]) hb (words_cons_blank hc before)
  · exact splitAlternatives_congr (by simp [h, hbar.symm]) h (words_cons_blank hc cs)

theorem splitAlternatives_append_blank {c : Char} (hc : isBlank c = true) (cs : List Char) :
    splitAlternatives (cs ++ [c]) = splitAlternatives cs := by
  have hbar : c ≠ '|' := by
    rintro rfl
    exact absurd hc (by decide)
  -- What stands before the next bar is put aside.
  have h (first : List Char) (hf : '|' ∉ first) (cs : List Char) :
      splitAlternatives (first ++ (cs ++ [c])) = splitAlternatives (first ++ cs) := by
    induction cs generalizing first with
    | nil =>
        refine splitAlternatives_congr (by simp [hf, hbar.symm]) (by simpa using hf) ?_
        rw [List.nil_append, words_append_blank hc, words_nil, List.append_nil, List.append_nil]
    | cons d cs ih =>
        by_cases hd : d = '|'
        · subst hd
          rw [List.cons_append, splitAlternatives_append_bar, splitAlternatives_append_bar]
          exact congrArg _ (ih [] List.not_mem_nil)
        · have hmore := ih (first ++ [d]) (by simp [hf, Ne.symm hd])
          rwa [List.append_assoc, List.append_assoc] at hmore
  exact h [] List.not_mem_nil cs

theorem splitAlternatives_dropReturn (cs : List Char) : splitAlternatives (dropReturn cs) = splitAlternatives cs := by
  obtain h | h := eq_dropReturn_or_append cs
  · rw [h]
  · conv_rhs => rw [h]
    exact (splitAlternatives_append_blank isBlank_return _).symm

namespace Alike

theorem of_splitAlternatives {left : String} {rights rights' : List Char}
    (h : splitAlternatives rights = splitAlternatives rights') : Alike [(left, rights)] [(left, rights')] :=
  ⟨by simp [Grammar.saying, h], rfl, rfl⟩

/-- A bar can be left out if the left side is said once more. -/
theorem bar (left : String) (rights more : List Char) :
    Alike [(left, rights ++ '|' :: more)] [(left, rights), (left, more)] :=
  ⟨by simp [Grammar.saying, splitAlternatives_append_bar], by simp [List.eraseDups_cons], rfl⟩

end Alike

namespace Line

def withRights (rights : List Char) : Line → Line
  | opening left _ => .opening left rights
  | continuation _ => .continuation rights

@[simp] theorem rights_withRights (rights : List Char) (l : Line) : (l.withRights rights).rights = rights := by
  cases l <;> rfl

@[simp] theorem left?_withRights (rights : List Char) (l : Line) :
    (l.withRights rights).left? previous = l.left? previous := by
  cases l <;> rfl

variable {line before after : List Char} {l : Line}

theorem Written.dropReturn (h : Written line l) :
    Written (dropReturn line) (l.withRights (NormalForms.dropReturn l.rights)) := by
  have ha : ArrowFree (NormalForms.dropReturn l.rights) := h.arrowFree_rights.mono (dropReturn_isPrefix _).isInfix
  cases h with
  | opening hw hne hp hb _ =>
      rw [dropReturn_append_cons (by decide), ← List.nil_append ('>' :: _), dropReturn_append_cons (by decide)]
      exact .opening hw hne hp hb ha
  | continuation hp _ =>
      rw [dropReturn_append_cons (by decide)]
      exact .continuation hp ha

theorem Written.append_return (h : Written line l) : Written (line ++ ['\r']) (l.withRights (l.rights ++ ['\r'])) := by
  have ha : ArrowFree (l.rights ++ ['\r']) :=
    (arrowFree_append_cons (by decide) (by decide)).2 ⟨h.arrowFree_rights, arrowFree_nil⟩
  cases h with
  | opening hw hne hp hb _ =>
      rw [List.append_assoc]
      exact .opening hw hne hp hb ha
  | continuation hp _ =>
      rw [List.append_assoc]
      exact .continuation hp ha

theorem Written.again {left : String} {rights : List Char} (h : Written line (.opening left rights))
    (ha : ArrowFree after) : Written (left.toList ++ " -> ".toList ++ after) (.opening left (' ' :: after)) := by
  have hspace : ArrowFree (left.toList ++ [' ']) :=
    (arrowFree_append_cons (by decide) (by decide)).2 ⟨h.arrowFree_left, arrowFree_nil⟩
  cases h with
  | opening hw hne _ _ _ =>
      have hpadded : Padded left (left.toList ++ [' ']) := .intro blank_nil (blank_replicate 1)
      have hline := Written.opening hw hne hpadded hspace (ha.cons (c := ' ') (by decide))
      rwa [List.append_assoc] at hline ⊢

/-- The bar between two parts of a line stands behind the arrow or, if there is none, anywhere. -/
def Divides (before after : List Char) : Prop :=
  ¬ ArrowFree before ∨ ArrowFree (before ++ '|' :: after)

instance (before after : List Char) : Decidable (Divides before after) :=
  inferInstanceAs (Decidable (_ ∨ _))

theorem Divides.mono {other : List Char} (h : Divides before after) (ho : other <+: after) : Divides before other := by
  refine h.imp_right fun ha => ha.mono ?_
  exact ((List.prefix_append_right_inj _).2 (List.cons_prefix_cons.2 ⟨rfl, ho⟩)).isInfix

/-- The bar begins its line, or what stands before it is a line as well. -/
theorem Written.cut (h : Written (before ++ '|' :: after) l) (hd : Divides before after) :
    Blank before ∧ l = .continuation after ∨
      ∃ rights, l.rights = rights ++ '|' :: after ∧ Written before (l.withRights rights) := by
  generalize hline : before ++ '|' :: after = line at h
  cases h with
  | @opening left b rights hw hne hp hb hr =>
      obtain ⟨x, rfl, -⟩ | ⟨x, rfl, hx⟩ := List.append_eq_append_iff.1 hline
      · obtain hd | hd := hd
        · exact absurd (hb.mono (List.prefix_append _ _).isInfix) hd
        · rw [hline] at hd
          exact absurd ⟨before ++ x, rights, by simp⟩ hd
      · obtain ⟨y, rfl, rfl⟩ : ∃ y, x = '-' :: '>' :: y ∧ rights = y ++ '|' :: after := by
          match x, hx with
          | _ :: _ :: y, hx =>
              rw [List.cons_append, List.cons_append, List.cons.injEq, List.cons.injEq] at hx
              obtain ⟨rfl, rfl, rfl⟩ := hx
              exact ⟨y, rfl, rfl⟩
        exact .inr ⟨y, rfl, .opening hw hne hp hb (hr.mono (List.prefix_append _ _).isInfix)⟩
  | @continuation pad rights hp hr =>
      obtain ⟨x, rfl, hx⟩ | ⟨x, rfl, hx⟩ := List.append_eq_append_iff.1 hline
      · cases x with
        | nil =>
            cases hx
            exact .inl ⟨by simpa using hp, rfl⟩
        | cons c x =>
            cases hx
            exact absurd (hp '|' (by simp)) (by decide)
      · cases x with
        | nil =>
            cases hx
            exact .inl ⟨by simpa using hp, rfl⟩
        | cons c x =>
            cases hx
            exact .inr ⟨x, rfl, .continuation hp (hr.mono (List.prefix_append _ _).isInfix)⟩

end Line

namespace Rereads

theorem of_written {line other : List Char} (hb : Blank line → Blank other)
    (h : ∀ l, Line.Written line l → ∃ rights, Line.Written other (l.withRights rights) ∧
      splitAlternatives l.rights = splitAlternatives rights) : Rereads previous [line] [other] := by
  intro u hu
  obtain ⟨hline, hw⟩ | ⟨l, left, w, hw, hl, hnil, rfl⟩ := hu.cons_cases
  · rw [hw.eq_nil]
    exact ⟨[], ReadsTo.nil.skip (hb hline), .refl []⟩
  · rw [hnil.eq_nil]
    obtain ⟨rights, hr, hs⟩ := h l hw
    have hv := ReadsTo.nil.cons hr (by rwa [Line.left?_withRights])
    exact ⟨_, hv, by simpa using .of_splitAlternatives hs⟩

theorem dropReturn (line : List Char) : Rereads previous [line] [NormalForms.dropReturn line] :=
  of_written Blank.dropReturn fun l hw => ⟨_, hw.dropReturn, (splitAlternatives_dropReturn l.rights).symm⟩

theorem append_return (line : List Char) : Rereads previous [line] [line ++ ['\r']] :=
  of_written (fun hb => List.forall_mem_append.2 ⟨hb, List.forall_mem_singleton.2 isBlank_return⟩)
    fun l hw => ⟨_, hw.append_return, (splitAlternatives_append_blank isBlank_return l.rights).symm⟩

theorem of_dropReturn (line : List Char) : Rereads previous [NormalForms.dropReturn line] [line] := by
  obtain h | h := eq_dropReturn_or_append line
  · rw [h]
    exact refl [line]
  · have hline := @append_return previous (NormalForms.dropReturn line)
    rwa [← h] at hline

variable {before after : List Char}

/-- Two lines for what stands before a bar and what stands behind it. -/
theorem divided {left : String} {rights more other : List Char} (hbefore : ReadsTo previous [before] [(left, rights)])
    (hother : ReadsTo (some left) [other] [(left, more)]) (hs : splitAlternatives after = splitAlternatives more) :
    ∃ v, ReadsTo previous [NormalForms.dropReturn before, other] v ∧ Alike [(left, rights ++ '|' :: after)] v := by
  obtain ⟨v, hv, huv⟩ := dropReturn before _ hbefore
  have hleft : leftAfter previous v = some left := by
    rw [← huv.leftAfter, leftAfter_cons, leftAfter_nil]
  rw [← hleft] at hother
  exact ⟨v ++ [(left, more)], hv.append hother,
    (Alike.bar left rights after).trans (huv.append (.of_splitAlternatives hs))⟩

/-- A line with a bar is read because of its beginning, unless the bar is the beginning. -/
theorem exists_of_bar (hd : Line.Divides before after) (hu : ReadsTo previous [before ++ '|' :: after] u) :
    ArrowFree after ∧ ∃ left, Blank before ∧ previous = some left ∧ u = [(left, after)] ∨
      ∃ rights, ¬ Blank before ∧ ReadsTo previous [before] [(left, rights)] ∧
        u = [(left, rights ++ '|' :: after)] := by
  obtain ⟨hb, -⟩ | ⟨l, left, w, hw, hl, hnil, rfl⟩ := hu.cons_cases
  · exact absurd (hb '|' (by simp)) (by decide)
  · rw [hnil.eq_nil]
    obtain ⟨hb, rfl⟩ | ⟨rights, hr, hbefore⟩ := hw.cut hd
    · exact ⟨hw.arrowFree_rights, left, .inl ⟨hb, hl, rfl⟩⟩
    · have hafter : ArrowFree after :=
        (hr ▸ hw.arrowFree_rights).mono ((List.suffix_cons _ _).trans (List.suffix_append _ _)).isInfix
      have hread := ReadsTo.nil.cons hbefore (by rwa [Line.left?_withRights])
      rw [Line.rights_withRights] at hread
      exact ⟨hafter, left, .inr ⟨rights, hbefore.not_blank, hread, by rw [hr]⟩⟩

theorem cut (hd : Line.Divides before after) :
    Rereads previous [before ++ '|' :: after] [NormalForms.dropReturn before, '|' :: after] := by
  intro u hu
  obtain ⟨hafter, left, h⟩ := exists_of_bar hd hu
  have hother : ReadsTo (some left) ['|' :: after] [(left, after)] :=
    ReadsTo.nil.cons (Line.Written.continuation blank_nil hafter) rfl
  obtain ⟨hb, rfl, rfl⟩ | ⟨rights, -, hbefore, rfl⟩ := h
  · exact ⟨_, hother.skip hb.dropReturn, .refl _⟩
  · exact divided hbefore hother rfl

theorem restate {line rights : List Char} {left : String} (hw : Line.Written line (.opening left rights))
    (hd : Line.Divides before after) (hb : ¬ Blank before)
    (hleft : ∀ u, ReadsTo previous [before] u → leftAfter previous u = some left) :
    Rereads previous [before ++ '|' :: after]
      [NormalForms.dropReturn before, left.toList ++ " -> ".toList ++ after] := by
  intro u hu
  obtain ⟨hafter, name, ⟨hblank, -⟩ | ⟨rights, -, hbefore, rfl⟩⟩ := exists_of_bar hd hu
  · exact absurd hblank hb
  · have hname := hleft _ hbefore
    rw [leftAfter_cons, leftAfter_nil, Option.some.injEq] at hname
    subst hname
    have hother : ReadsTo (some name) [name.toList ++ " -> ".toList ++ after] [(name, ' ' :: after)] :=
      ReadsTo.nil.cons (hw.again hafter) rfl
    exact divided hbefore hother (splitAlternatives_cons_blank isBlank_space after).symm

end Rereads

end NormalForms.Grammar
