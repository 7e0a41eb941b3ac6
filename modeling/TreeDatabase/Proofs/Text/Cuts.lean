import TreeDatabase.Proofs.Path

/-!
# Where lists are cut

What `cutAt`, `afterLast` and `pieces` find, told by the separators of the list itself: what is in
front of the first one or behind the last one has none, and the parts make up the list with
separators between them.
-/

namespace TreeDatabase.Text

variable {α : Type} {sep : α} {as front back : List α} {rest : Option (List α)}

/-- What stands before the first separator of a list, and what stands behind it if there is one. -/
inductive Cut (sep : α) : List α → List α → Option (List α) → Prop
  | whole {as : List α} (h : sep ∉ as) : Cut sep as as none
  | first {front back : List α} (h : sep ∉ front) : Cut sep (front ++ sep :: back) front (some back)

/-- What stands behind the last separator of a list: everything when there is none. -/
inductive Tail (sep : α) : List α → List α → Prop
  | whole {as : List α} (h : sep ∉ as) : Tail sep as as
  | last {front back : List α} (h : sep ∉ back) : Tail sep (front ++ sep :: back) back

/-- Parts without separators that make up a list when separators stand between them. -/
structure Parts (sep : α) (as : List α) (parts : List (List α)) : Prop where
  ne_nil : parts ≠ []
  apart : ∀ part ∈ parts, sep ∉ part
  whole : [sep].intercalate parts = as

theorem exists_cut (sep : α) (as : List α) : ∃ front rest, Cut sep as front rest := by
  by_cases h : sep ∈ as
  · obtain ⟨front, back, rfl, hfront⟩ := List.eq_append_cons_of_mem h
    exact ⟨front, some back, .first hfront⟩
  · exact ⟨as, none, .whole h⟩

theorem exists_tail (sep : α) (as : List α) : ∃ back, Tail sep as back := by
  induction as with
  | nil => exact ⟨[], .whole List.not_mem_nil⟩
  | cons a as ih =>
    obtain ⟨back, hback⟩ := ih
    cases hback with
    | whole h =>
      by_cases ha : sep = a
      · have hlast : Tail sep ([] ++ sep :: as) as := .last h
        exact ⟨as, ha ▸ hlast⟩
      · exact ⟨a :: as, .whole (by simp [ha, h])⟩
    | @last front back h =>
      have hlast : Tail sep ((a :: front) ++ sep :: back) back := .last h
      exact ⟨back, hlast⟩

theorem Cut.front_subset (h : Cut sep as front rest) : front ⊆ as := by
  cases h with
  | whole _ => exact List.Subset.refl _
  | first _ => exact List.subset_append_left _ _

theorem Cut.back_subset (h : Cut sep as front (some back)) : back ⊆ as := by
  cases h with
  | first _ => exact fun a ha => List.mem_append_right _ (List.mem_cons_of_mem _ ha)

theorem Tail.subset (h : Tail sep as back) : back ⊆ as := by
  cases h with
  | whole _ => exact List.Subset.refl _
  | last _ => exact fun a ha => List.mem_append_right _ (List.mem_cons_of_mem _ ha)

theorem cutAt_map {β : Type} (f : α → β) (p : β → Bool) (as : List α) : cutAt p (as.map f) =
    ((cutAt (fun a => p (f a)) as).1.map f, (cutAt (fun a => p (f a)) as).2.map (·.map f)) := by
  induction as with
  | nil => rfl
  | cons a as ih =>
    rw [List.map_cons, cutAt, cutAt]
    split
    · rfl
    · rw [ih]
      rfl

variable [BEq α] [LawfulBEq α]

theorem beq_eq_false_of_not_mem (h : sep ∉ as) : ∀ a ∈ as, (a == sep) = false := by
  intro a ha
  refine beq_eq_false_iff_ne.mpr ?_
  rintro rfl
  exact h ha

theorem cut_iff : Cut sep as front rest ↔ cutAt (· == sep) as = (front, rest) := by
  have hcut : ∀ {front rest}, Cut sep as front rest → cutAt (· == sep) as = (front, rest) := by
    intro front rest h
    cases h with
    | whole h => exact cutAt_of_not_sep (beq_eq_false_of_not_mem h)
    | first h => exact cutAt_append_sep _ (beq_eq_false_of_not_mem h) (beq_self_eq_true sep)
  refine ⟨hcut, fun h => ?_⟩
  obtain ⟨front', rest', h'⟩ := exists_cut sep as
  obtain ⟨rfl, rfl⟩ := Prod.mk.inj (h.symm.trans (hcut h'))
  exact h'

theorem cutAt_eq_some_iff : cutAt (· == sep) as = (front, some back) ↔
    as = front ++ sep :: back ∧ sep ∉ front := by
  rw [← cut_iff]
  constructor
  · intro h
    cases h with
    | first h => exact ⟨rfl, h⟩
  · rintro ⟨rfl, h⟩
    exact .first h

theorem tail_iff : Tail sep as back ↔ afterLast (· == sep) as = back := by
  have htail : ∀ {back}, Tail sep as back → afterLast (· == sep) as = back := by
    intro back h
    cases h with
    | whole h => exact afterLast_of_not_sep (beq_eq_false_of_not_mem h)
    | last h =>
      exact afterLast_append_sep _ (beq_self_eq_true sep) (beq_eq_false_of_not_mem h)
  refine ⟨htail, fun h => ?_⟩
  obtain ⟨back', h'⟩ := exists_tail sep as
  rw [← h, htail h']
  exact h'

theorem parts_iff {parts : List (List α)} : Parts sep as parts ↔ pieces (· == sep) as = parts := by
  constructor
  · rintro ⟨hne, hapart, rfl⟩
    exact pieces_intercalate hne hapart
  · rintro rfl
    refine ⟨pieces_ne_nil _ _, fun part hpart hmem => ?_, intercalate_pieces sep as⟩
    have hsep := not_sep_of_mem_pieces hpart hmem
    rw [beq_self_eq_true] at hsep
    cases hsep

end TreeDatabase.Text
