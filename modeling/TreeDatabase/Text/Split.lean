/-!
# Cutting and joining texts

`pieces` cuts a list at every separator and `cutAt` at the first one; `lines` cuts a text into
lines. Each has a law that says how its parts make up the whole; `pieces` takes its laws from
`List.splitOnP`.
-/

namespace TreeDatabase.Text

variable {α : Type}

/-- The parts between the elements that are separators: one more part than separators. -/
def pieces (sep : α → Bool) : List α → List (List α)
  | [] => [[]]
  | a :: as =>
    if sep a then [] :: pieces sep as
    else
      match pieces sep as with
      | [] => [[a]]
      | p :: ps => (a :: p) :: ps

/-- What stands before the first separator, and what stands after it if there is one. -/
def cutAt (sep : α → Bool) : List α → List α × Option (List α)
  | [] => ([], none)
  | a :: as =>
    if sep a then ([], some as)
    else ((a :: (cutAt sep as).1), (cutAt sep as).2)

/-- What stands after the last separator: everything when there is none. -/
def afterLast (sep : α → Bool) (as : List α) : List α := (pieces sep as).getLast?.getD []

def splitOn (sep : Char) (s : String) : List String :=
  (pieces (· == sep) s.toList).map String.ofList

def joinWith (sep : String) (parts : List String) : String := String.intercalate sep parts

/-- Removes one carriage return at the end. -/
def dropReturn (cs : List Char) : List Char :=
  if cs.getLast? = some '\r' then cs.dropLast else cs

/-- The lines of a text: a line feed ends a line, together with one carriage return before it.
A last line without a line feed keeps its carriage return, and an empty one does not count. -/
def lineChars (cs : List Char) : List (List Char) :=
  match (pieces (· == '\n') cs).reverse with
  | [] => []
  | [] :: ended => (ended.map dropReturn).reverse
  | last :: ended => ((ended.map dropReturn).reverse) ++ [last]

def lines (s : String) : List String := (lineChars s.toList).map String.ofList

theorem pieces_eq_splitOnP (sep : α → Bool) (as : List α) : pieces sep as = as.splitOnP sep := by
  induction as with
  | nil => rfl
  | cons a as ih =>
    rw [pieces, ih, List.splitOnP_cons_eq_if_modifyHead]
    cases h : as.splitOnP sep with
    | nil => exact absurd h (List.splitOnP_ne_nil sep as)
    | cons p ps => rfl

theorem pieces_ne_nil (sep : α → Bool) (as : List α) : pieces sep as ≠ [] := by
  rw [pieces_eq_splitOnP]
  exact List.splitOnP_ne_nil sep as

theorem not_sep_of_mem_pieces {sep : α → Bool} {as p : List α} (hp : p ∈ pieces sep as)
    {a : α} (ha : a ∈ p) : sep a = false := by
  induction as generalizing p with
  | nil => simp [pieces] at hp; simp [hp] at ha
  | cons b as ih =>
    rw [pieces] at hp
    split at hp
    · rcases List.mem_cons.mp hp with rfl | hp
      · simp at ha
      · exact ih hp ha
    · next hb =>
      cases hps : pieces sep as with
      | nil => exact absurd hps (pieces_ne_nil sep as)
      | cons q qs =>
        simp only [hps] at hp
        rcases List.mem_cons.mp hp with rfl | hp
        · rcases List.mem_cons.mp ha with rfl | ha
          · simpa using hb
          · exact ih (by simp [hps]) ha
        · exact ih (by simp [hps, hp]) ha

theorem pieces_of_not_sep {sep : α → Bool} {as : List α} (h : ∀ a ∈ as, sep a = false) :
    pieces sep as = [as] := by
  rw [pieces_eq_splitOnP, List.splitOnP_eq_singleton h]

theorem pieces_append {sep : α → Bool} {s : α} (hs : sep s = true) (as bs : List α) :
    pieces sep (as ++ s :: bs) = pieces sep as ++ pieces sep bs := by
  simp only [pieces_eq_splitOnP, List.splitOnP_append_cons as bs hs]

theorem pieces_append_sep {sep : α → Bool} {as : List α} {s : α} (bs : List α)
    (h : ∀ a ∈ as, sep a = false) (hs : sep s = true) :
    pieces sep (as ++ s :: bs) = as :: pieces sep bs := by
  rw [pieces_append hs, pieces_of_not_sep h, List.singleton_append]

section Joint

variable [BEq α] [LawfulBEq α]

theorem pieces_intercalate {sep : α} {parts : List (List α)} (hne : parts ≠ [])
    (h : ∀ p ∈ parts, sep ∉ p) : pieces (· == sep) ([sep].intercalate parts) = parts := by
  rw [pieces_eq_splitOnP, ← List.splitOn_eq_splitOnP, List.splitOn_intercalate sep h hne]

/-- The parts make up the whole again. -/
theorem intercalate_pieces (sep : α) (as : List α) :
    [sep].intercalate (pieces (· == sep) as) = as := by
  rw [pieces_eq_splitOnP, ← List.splitOn_eq_splitOnP, List.intercalate_splitOn]

end Joint

theorem cutAt_of_not_sep {sep : α → Bool} {as : List α} (h : ∀ a ∈ as, sep a = false) :
    cutAt sep as = (as, none) := by
  induction as with
  | nil => rfl
  | cons a as ih =>
    rw [cutAt, ih fun b hb => h b (.tail _ hb)]
    simp [h a (.head _)]

theorem cutAt_append_sep {sep : α → Bool} {as : List α} {s : α} (bs : List α)
    (h : ∀ a ∈ as, sep a = false) (hs : sep s = true) :
    cutAt sep (as ++ s :: bs) = (as, some bs) := by
  induction as with
  | nil => simp [cutAt, hs]
  | cons a as ih =>
    rw [List.cons_append, cutAt, ih fun b hb => h b (.tail _ hb)]
    simp [h a (.head _)]

end TreeDatabase.Text
