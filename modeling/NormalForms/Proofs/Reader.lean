import NormalForms.Json.Reader
import NormalForms.Proofs.Literal

namespace NormalForms.Json

inductive NumberFree : Json → Prop
  | null : NumberFree .null
  | bool (b : Bool) : NumberFree (.bool b)
  | string (content : Option String) : NumberFree (.string content)
  | array {items : List Json} : (∀ j ∈ items, NumberFree j) → NumberFree (.array items)
  | object {fields : List (Option String × Json)} : (∀ f ∈ fields, NumberFree f.2) → NumberFree (.object fields)

theorem skip_cons {c : Char} (h : c ∉ [' ', '\n', '\r', '\t']) (cs : List Char) : skip (c :: cs) = c :: cs :=
  List.dropWhile_cons_of_neg (by simpa using h)

def Opens (cs : List Char) : Prop :=
  ∃ c tail, cs = c :: tail ∧ c ∉ [' ', '\n', '\r', '\t', ']', '}']

namespace Opens

variable {cs : List Char}

theorem append (h : Opens cs) (rest : List Char) : Opens (cs ++ rest) := by
  obtain ⟨c, tail, rfl, hc⟩ := h
  exact ⟨c, tail ++ rest, rfl, hc⟩

theorem not_mem {c : Char} (h : Opens (c :: cs)) : c ∉ [' ', '\n', '\r', '\t', ']', '}'] := by
  obtain ⟨_, _, he, hc⟩ := h
  cases he
  exact hc

theorem skip_eq (h : Opens cs) : skip cs = cs := by
  obtain ⟨c, tail, rfl, hc⟩ := h
  apply skip_cons
  simp_all

end Opens

theorem opens_quoted (content : Option String) : Opens (quoted content) := by
  obtain ⟨body, hbody, -⟩ := exists_quoted_eq_cons content
  exact ⟨'"', body, hbody, by decide⟩

theorem NumberFree.opens_chars {j : Json} (h : j.NumberFree) : Opens j.chars := by
  cases h with
  | null => exact ⟨'n', "ull".toList, rfl, by decide⟩
  | bool b =>
      cases b with
      | true => exact ⟨'t', "rue".toList, rfl, by decide⟩
      | false => exact ⟨'f', "alse".toList, rfl, by decide⟩
  | string content => exact opens_quoted content
  | array => exact ⟨'[', _, rfl, by decide⟩
  | object => exact ⟨'{', _, rfl, by decide⟩

theorem opens_itemChars {items : List Json} (hne : items ≠ []) (h : ∀ j ∈ items, NumberFree j) :
    Opens (itemChars items) := by
  match items, hne with
  | [j], _ => exact (h j List.mem_cons_self).opens_chars.append _
  | j :: _ :: _, _ => exact (h j List.mem_cons_self).opens_chars.append _

theorem opens_fieldChars {fields : List (Option String × Json)} (hne : fields ≠ []) : Opens (fieldChars fields) := by
  match fields, hne with
  | [(name, j)], _ => exact ((opens_quoted name).append _).append _
  | (name, j) :: _ :: _, _ => exact ((opens_quoted name).append _).append _

/-- The value is read back from its text, whatever follows the text. -/
def ReadsBack (j : Json) : Prop :=
  ∀ fuel rest, j.chars.length ≤ fuel → readValue fuel (j.chars ++ rest) = some (j, rest)

theorem readsBack_of_succ {j : Json} (h : Opens j.chars) (hread : ∀ fuel rest, j.chars.length ≤ fuel + 1 →
    readValue (fuel + 1) (j.chars ++ rest) = some (j, rest)) : ReadsBack j := by
  intro fuel rest hfuel
  cases fuel with
  | zero =>
      obtain ⟨c, tail, he, -⟩ := h
      simp [he] at hfuel
  | succ fuel => exact hread fuel rest hfuel

/-- What the beginning of a text says about the value that it opens with. -/
theorem readValue_begin (fuel : Nat) (cs : List Char) :
    readValue (fuel + 1) ("null".toList ++ cs) = some (null, cs) ∧
    readValue (fuel + 1) ("true".toList ++ cs) = some (bool true, cs) ∧
    readValue (fuel + 1) ("false".toList ++ cs) = some (bool false, cs) ∧
    readValue (fuel + 1) ('"' :: cs) = (readString cs).map (fun e => (string e.1, e.2)) ∧
    readValue (fuel + 1) ('[' :: ']' :: cs) = some (array [], cs) ∧
    readValue (fuel + 1) ('{' :: '}' :: cs) = some (object [], cs) ∧
    (Opens cs → readValue (fuel + 1) ('[' :: cs) = (readItems fuel cs).map fun e => (array e.1, e.2)) ∧
    (Opens cs → readValue (fuel + 1) ('{' :: cs) = (readFields fuel cs).map fun e => (object e.1, e.2)) := by
  refine ⟨by simp [readValue, skip_cons], by simp [readValue, skip_cons], by simp [readValue, skip_cons],
    by simp [readValue, skip_cons], by simp [readValue, skip_cons], by simp [readValue, skip_cons], ?_, ?_⟩
  · intro hopens
    rw [readValue, skip_cons (by decide)]
    simp only [hopens.skip_eq]
    split
    · exact absurd hopens.not_mem (by decide)
    · rfl
  · intro hopens
    rw [readValue, skip_cons (by decide)]
    simp only [hopens.skip_eq]
    split
    · exact absurd hopens.not_mem (by decide)
    · rfl

theorem readsBack_null : ReadsBack null :=
  readsBack_of_succ NumberFree.null.opens_chars fun fuel rest _ => (readValue_begin fuel rest).1

theorem readsBack_bool (b : Bool) : ReadsBack (bool b) := by
  refine readsBack_of_succ (NumberFree.bool b).opens_chars fun fuel rest _ => ?_
  obtain ⟨-, htrue, hfalse, -⟩ := readValue_begin fuel rest
  cases b with
  | true => exact htrue
  | false => exact hfalse

theorem readsBack_string (content : Option String) : ReadsBack (string content) := by
  refine readsBack_of_succ (opens_quoted content) fun fuel rest _ => ?_
  obtain ⟨body, hbody, hread⟩ := exists_quoted_eq_cons content
  obtain ⟨-, -, -, hquote, -⟩ := readValue_begin fuel (body ++ rest)
  rw [chars, hbody, List.cons_append, hquote, hread]
  rfl

theorem readName_quoted (name : Option String) (rest : List Char) :
    readName (quoted name ++ ':' :: rest) = some (name, rest) := by
  obtain ⟨body, hbody, hread⟩ := exists_quoted_eq_cons name
  simp [hbody, readName, skip_cons, hread]

theorem readItems_itemChars {items : List Json} (hne : items ≠ []) (h : ∀ j ∈ items, ReadsBack j) {fuel : Nat}
    (hfuel : (itemChars items).length ≤ fuel) (rest : List Char) :
    readItems fuel (itemChars items ++ rest) = some (items, rest) := by
  -- Every item takes one unit of fuel, and the comma behind it pays for that.
  induction items generalizing fuel with
  | nil => exact absurd rfl hne
  | cons j items ih =>
      obtain ⟨hj, hitems⟩ := List.forall_mem_cons.1 h
      cases items with
      | nil =>
          simp only [itemChars, List.length_append, List.length_singleton] at hfuel
          obtain ⟨fuel, rfl⟩ := Nat.exists_eq_add_one.2 (show 0 < fuel by omega)
          have hread := hj fuel (']' :: rest) (by omega)
          simp [itemChars, readItems, hread, skip_cons]
      | cons k items =>
          simp only [itemChars, List.length_append, List.length_cons] at hfuel
          obtain ⟨fuel, rfl⟩ := Nat.exists_eq_add_one.2 (show 0 < fuel by omega)
          have hread := hj fuel (',' :: (itemChars (k :: items) ++ rest)) (by omega)
          have hmore := ih (by simp) hitems (show (itemChars (k :: items)).length ≤ fuel by omega)
          simp [itemChars, readItems, hread, skip_cons, hmore]

theorem readFields_fieldChars {fields : List (Option String × Json)} (hne : fields ≠ [])
    (h : ∀ f ∈ fields, ReadsBack f.2) {fuel : Nat} (hfuel : (fieldChars fields).length ≤ fuel) (rest : List Char) :
    readFields fuel (fieldChars fields ++ rest) = some (fields, rest) := by
  induction fields generalizing fuel with
  | nil => exact absurd rfl hne
  | cons f fields ih =>
      obtain ⟨hj, hfields⟩ := List.forall_mem_cons.1 h
      obtain ⟨name, j⟩ := f
      cases fields with
      | nil =>
          simp only [fieldChars, List.length_append, List.length_cons] at hfuel
          obtain ⟨fuel, rfl⟩ := Nat.exists_eq_add_one.2 (show 0 < fuel by omega)
          have hread := hj fuel ('}' :: rest) (by dsimp only; omega)
          simp [fieldChars, readFields, readName_quoted, hread, skip_cons]
      | cons k fields =>
          simp only [fieldChars, List.length_append, List.length_cons] at hfuel
          obtain ⟨fuel, rfl⟩ := Nat.exists_eq_add_one.2 (show 0 < fuel by omega)
          have hread := hj fuel (',' :: (fieldChars (k :: fields) ++ rest)) (by dsimp only; omega)
          have hmore := ih (by simp) hfields (show (fieldChars (k :: fields)).length ≤ fuel by omega)
          simp [fieldChars, readFields, readName_quoted, hread, skip_cons, hmore]

theorem readsBack_array {items : List Json} (hfree : ∀ j ∈ items, NumberFree j) (h : ∀ j ∈ items, ReadsBack j) :
    ReadsBack (array items) := by
  refine readsBack_of_succ (NumberFree.array hfree).opens_chars fun fuel rest hfuel => ?_
  by_cases hne : items = []
  · obtain ⟨-, -, -, -, hempty, -⟩ := readValue_begin fuel rest
    rw [hne]
    exact hempty
  · have hitems : (itemChars items).length ≤ fuel := Nat.le_of_succ_le_succ hfuel
    obtain ⟨-, -, -, -, -, -, harray, -⟩ := readValue_begin fuel (itemChars items ++ rest)
    rw [chars, List.cons_append, harray ((opens_itemChars hne hfree).append rest), readItems_itemChars hne h hitems]
    rfl

theorem readsBack_object {fields : List (Option String × Json)} (hfree : ∀ f ∈ fields, NumberFree f.2)
    (h : ∀ f ∈ fields, ReadsBack f.2) : ReadsBack (object fields) := by
  refine readsBack_of_succ (NumberFree.object hfree).opens_chars fun fuel rest hfuel => ?_
  by_cases hne : fields = []
  · obtain ⟨-, -, -, -, -, hempty, -⟩ := readValue_begin fuel rest
    rw [hne]
    exact hempty
  · have hfields : (fieldChars fields).length ≤ fuel := Nat.le_of_succ_le_succ hfuel
    obtain ⟨-, -, -, -, -, -, -, hobject⟩ := readValue_begin fuel (fieldChars fields ++ rest)
    rw [chars, List.cons_append, hobject ((opens_fieldChars hne).append rest), readFields_fieldChars hne h hfields]
    rfl

theorem NumberFree.readsBack {j : Json} (h : j.NumberFree) : ReadsBack j := by
  induction h with
  | null => exact readsBack_null
  | bool b => exact readsBack_bool b
  | string content => exact readsBack_string content
  | array hfree ih => exact readsBack_array hfree ih
  | object hfree ih => exact readsBack_object hfree ih

/-- A value without numbers is read back from its text. -/
theorem NumberFree.ofText?_render {j : Json} (h : j.NumberFree) : ofText? j.render = some j := by
  have hread := h.readsBack (2 * j.chars.length + 1) [] (by omega)
  rw [List.append_nil] at hread
  simp only [ofText?, render, String.length_ofList, String.toList_ofList, hread]
  rfl

end NormalForms.Json
