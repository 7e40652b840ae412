namespace NormalForms

variable {α : Type} [DecidableEq α]

def targetsOf (a : α) (edges : List (α × α)) : List α :=
  (edges.filter (·.1 = a)).map (·.2)

def withoutSource (a : α) (edges : List (α × α)) : List (α × α) :=
  edges.filter (·.1 ≠ a)

theorem length_withoutSource_add (a : α) (edges : List (α × α)) :
    (withoutSource a edges).length + (targetsOf a edges).length = edges.length := by
  have h := List.length_eq_countP_add_countP (fun e => decide (e.1 = a)) (l := edges)
  simp only [List.countP_eq_length_filter, decide_eq_true_eq] at h
  simp only [withoutSource, targetsOf, List.length_map, ne_eq]
  omega

/-- Breadth-first search: the members already `seen`, followed by all that the `pending` ones lead to along `edges`, in
the order of discovery. Every edge is followed once, so edges and pending members run out together. -/
def search (edges : List (α × α)) (seen pending : List α) : List α :=
  match pending with
  | [] => seen
  | a :: pending =>
    if a ∈ seen then search edges seen pending
    else search (withoutSource a edges) (seen ++ [a]) (pending ++ targetsOf a edges)
termination_by edges.length + pending.length
decreasing_by
  · simp
  · have h := length_withoutSource_add a edges
    simp only [List.length_append, List.length_cons]
    omega

def reach (edges : List (α × α)) (sources : List α) : List α :=
  search edges [] sources

end NormalForms
