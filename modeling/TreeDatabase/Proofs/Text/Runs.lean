import Mathlib.Data.List.DropRight
import Mathlib.Data.List.TakeWhile
import TreeDatabase.Text.Blank

/-!
# Runs at the ends of lists

A run of elements that satisfy a test ends where the first one does not. A list is as it was after
trimming exactly when it neither begins nor ends with what is dropped; so trimming it again changes
nothing.
-/

namespace TreeDatabase.Text

variable {α : Type} {p : α → Bool}

theorem head?_dropWhile (as : List α) : ∀ a ∈ (as.dropWhile p).head?, p a = false := by
  intro a ha
  have hnot := List.head?_dropWhile_not p as
  rw [ha] at hnot
  exact hnot

theorem span_of_stop {run after : List α} (hall : ∀ a ∈ run, p a = true)
    (hstop : ∀ a ∈ after.head?, p a = false) :
    (run ++ after).takeWhile p = run ∧ (run ++ after).dropWhile p = after := by
  rw [List.takeWhile_append_of_pos hall, List.dropWhile_append_of_pos hall]
  cases after with
  | nil => simp
  | cons a after => simp [hstop a rfl]

/-! ## Trimming -/

theorem dropEndWhile_eq_rdropWhile (p : α → Bool) (as : List α) :
    dropEndWhile p as = as.rdropWhile p := by
  induction as with
  | nil => rfl
  | cons a as ih =>
    rw [dropEndWhile, ih, List.rdropWhile, List.rdropWhile, List.reverse_cons,
      List.dropWhile_append]
    split
    · next hnil => by_cases ha : p a <;> simp [List.reverse_eq_nil_iff.mp hnil, ha]
    · next hne => rw [if_neg (by simpa using hne), List.reverse_append, List.reverse_singleton,
        List.singleton_append]

theorem dropEndWhile_eq_nil_iff {as : List α} :
    dropEndWhile p as = [] ↔ ∀ a ∈ as, p a = true := by
  rw [dropEndWhile_eq_rdropWhile, List.rdropWhile_eq_nil_iff]

theorem not_of_getLast?_dropEndWhile {as : List α} {a : α}
    (h : (dropEndWhile p as).getLast? = some a) : p a = false := by
  rw [dropEndWhile_eq_rdropWhile] at h
  obtain ⟨hne, rfl⟩ := List.mem_getLast?_eq_getLast h
  simpa using List.rdropWhile_last_not p as hne

/-- The whole is what stays and then elements that satisfy the test. -/
theorem dropEndWhile_append_dropped (p : α → Bool) (as : List α) :
    ∃ bs, as = dropEndWhile p as ++ bs ∧ ∀ b ∈ bs, p b = true := by
  rw [dropEndWhile_eq_rdropWhile]
  exact ⟨as.rtakeWhile p, List.rdropWhile_append_rtakeWhile.symm,
    fun b hb => List.mem_rtakeWhile_imp hb⟩

theorem dropEndWhile_eq_self {as : List α} (h : ∀ a ∈ as.getLast?, p a = false) :
    dropEndWhile p as = as := by
  rw [dropEndWhile_eq_rdropWhile, List.rdropWhile_eq_self_iff]
  exact fun hne => by simp [h _ (List.getLast?_eq_some_getLast hne)]

theorem trimBy_eq_self {as : List α} (hfirst : ∀ a ∈ as.head?, p a = false)
    (hlast : ∀ a ∈ as.getLast?, p a = false) : trimBy p as = as := by
  have hdrop : as.dropWhile p = as := by
    cases as with
    | nil => rfl
    | cons a as => rw [List.dropWhile_cons_of_neg (by simp [hfirst a rfl])]
  rw [trimBy, hdrop, dropEndWhile_eq_self hlast]

theorem dropWhile_trimBy (p : α → Bool) (as : List α) :
    (trimBy p as).dropWhile p = trimBy p as := by
  obtain ⟨after, hdrop, _⟩ := dropEndWhile_append_dropped p (as.dropWhile p)
  rw [trimBy]
  cases htrim : dropEndWhile p (as.dropWhile p) with
  | nil => rfl
  | cons a rest =>
    rw [htrim, List.cons_append] at hdrop
    have ha : p a = false := head?_dropWhile as a (by rw [hdrop]; rfl)
    rw [List.dropWhile_cons_of_neg (by simp [ha])]

theorem trimBy_eq_self_iff {as : List α} : trimBy p as = as ↔
    (∀ a ∈ as.head?, p a = false) ∧ ∀ a ∈ as.getLast?, p a = false := by
  constructor
  · intro h
    constructor
    · intro a ha
      have hdrop := dropWhile_trimBy p as
      rw [h] at hdrop
      exact head?_dropWhile as a (hdrop.symm ▸ ha)
    · intro a ha
      rw [← h] at ha
      exact not_of_getLast?_dropEndWhile ha
  · exact fun h => trimBy_eq_self h.1 h.2

theorem trimBy_eq_nil_iff {as : List α} : trimBy p as = [] ↔ ∀ a ∈ as, p a = true := by
  rw [trimBy, dropEndWhile_eq_nil_iff]
  constructor
  · intro h a ha
    rw [← List.takeWhile_append_dropWhile (p := p) (l := as), List.mem_append] at ha
    exact ha.elim List.mem_takeWhile_imp (h a)
  · exact fun h a ha => h a ((List.dropWhile_sublist p).subset ha)

theorem trim_eq_self_iff {v : String} : trim v = v ↔
    (∀ c ∈ v.toList.head?, isBlank c = false) ∧ ∀ c ∈ v.toList.getLast?, isBlank c = false := by
  rw [← String.toList_inj, toList_trim]
  exact trimBy_eq_self_iff

theorem trimBy_trimBy (p : α → Bool) (as : List α) : trimBy p (trimBy p as) = trimBy p as := by
  rw [trimBy, dropWhile_trimBy]
  exact dropEndWhile_eq_self fun a ha => not_of_getLast?_dropEndWhile ha

theorem dropEndWhile_append_of_all (as : List α) {bs : List α} (hb : ∀ b ∈ bs, p b = true) :
    dropEndWhile p (as ++ bs) = dropEndWhile p as := by
  rw [dropEndWhile_eq_rdropWhile, dropEndWhile_eq_rdropWhile, List.rdropWhile, List.reverse_append,
    List.dropWhile_append_of_pos (by simpa using hb), List.rdropWhile]

/-- What stands in front of an element that stays, stays. -/
theorem dropEndWhile_append_cons (as : List α) {a : α} (ha : p a = false) (bs : List α) :
    dropEndWhile p (as ++ a :: bs) = as ++ a :: dropEndWhile p bs := by
  rw [dropEndWhile_eq_rdropWhile, dropEndWhile_eq_rdropWhile, List.rdropWhile, List.rdropWhile]
  cases h : bs.reverse.dropWhile p with
  | nil => simp [List.dropWhile_append, h, ha]
  | cons b bs' => simp [List.dropWhile_append, h]

/-- Elements at the end that are dropped anyway do not matter. -/
theorem trimBy_append_of_all (as : List α) {bs : List α} (hb : ∀ b ∈ bs, p b = true) :
    trimBy p (as ++ bs) = trimBy p as := by
  rw [trimBy, trimBy, List.dropWhile_append]
  split
  · next hempty =>
    rw [List.isEmpty_iff.mp hempty, List.dropWhile_eq_nil_iff.mpr hb]
  · exact dropEndWhile_append_of_all _ hb

theorem trimBy_prepend_of_all {as : List α} (bs : List α) (ha : ∀ a ∈ as, p a = true) :
    trimBy p (as ++ bs) = trimBy p bs := by
  rw [trimBy, List.dropWhile_append_of_pos ha, trimBy]

theorem dropEndWhile_map {β : Type} (f : α → β) (p : β → Bool) (as : List α) :
    dropEndWhile p (as.map f) = (dropEndWhile (fun a => p (f a)) as).map f := by
  rw [dropEndWhile_eq_rdropWhile, dropEndWhile_eq_rdropWhile, List.rdropWhile, List.rdropWhile,
    ← List.map_reverse, List.dropWhile_map, List.map_reverse]
  rfl

theorem trimBy_map {β : Type} (f : α → β) (p : β → Bool) (as : List α) :
    trimBy p (as.map f) = (trimBy (fun a => p (f a)) as).map f := by
  rw [trimBy, trimBy, List.dropWhile_map, dropEndWhile_map]
  rfl

end TreeDatabase.Text
