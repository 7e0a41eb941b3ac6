import TreeDatabase.Number.Decimal
import TreeDatabase.Proofs.Number.Numeral

/-!
# What is read as a decimal

Digits around a point are a decimal. Of all texts, only the word for "not a number", with or without
a sign, is read as a decimal that is not a number.
-/

namespace TreeDatabase.Number.Decimal

/-- The word for "not a number" in any letter case, with or without a sign. -/
def SpellsNotANumber (cs : List Char) : Prop :=
  ∃ sign word, cs = sign ++ word ∧ (sign = [] ∨ sign = ['+'] ∨ sign = ['-']) ∧
    word.map Char.toLower = "nan".toList

theorem readUnsigned?_eq_notANumber_iff {negative : Bool} {cs : List Char} :
    readUnsigned? negative cs = some notANumber ↔ cs.map Char.toLower = "nan".toList := by
  rw [← String.ofList_inj, String.ofList_toList]
  unfold readUnsigned?
  dsimp only
  split
  · next hnan => simp [hnan]
  · next hnan =>
    simp only [hnan, iff_false]
    split
    · simp
    · rw [Option.map_eq_some_iff]
      rintro ⟨n, _, hn⟩
      split at hn <;> cases hn

theorem read?_eq_notANumber_iff {cs : List Char} :
    read? cs = some notANumber ↔ SpellsNotANumber cs := by
  constructor
  · intro h
    unfold read? at h
    split at h
    · next rest => exact ⟨['-'], rest, rfl, by simp, readUnsigned?_eq_notANumber_iff.mp h⟩
    · next rest => exact ⟨['+'], rest, rfl, by simp, readUnsigned?_eq_notANumber_iff.mp h⟩
    · exact ⟨[], cs, rfl, by simp, readUnsigned?_eq_notANumber_iff.mp h⟩
  · rintro ⟨sign, word, rfl, hsign, hword⟩
    have hread : ∀ negative, readUnsigned? negative word = some notANumber := fun _ =>
      readUnsigned?_eq_notANumber_iff.mpr hword
    rcases hsign with rfl | rfl | rfl
    · unfold read?
      split
      · next rest heq => simp [show word = '-' :: rest from heq] at hword
      · next rest heq => simp [show word = '+' :: rest from heq] at hword
      · exact hread false
    · exact hread false
    · exact hread true

section Point

variable {whole fraction : List Char} (hwhole : ∀ c ∈ whole, c.isDigit = true)
  (hfraction : ∀ c ∈ fraction, c.isDigit = true)
include hwhole hfraction

theorem trimChars_point (hne : whole ≠ []) (hne' : fraction ≠ []) :
    Text.trimChars (whole ++ '.' :: fraction) = whole ++ '.' :: fraction := by
  refine trimChars_of_digits (fun c hc => ?_) fun c hc => ?_
  · rw [List.head?_append_of_ne_nil _ hne] at hc
    exact hwhole c (List.mem_of_mem_head? hc)
  · rw [List.getLast?_append_of_ne_nil _ (List.cons_ne_nil _ _),
      List.getLast?_cons_of_ne_nil hne'] at hc
    exact hfraction c (List.mem_of_getLast? hc)

theorem Numeral.read?_point (hne : whole ≠ []) : Numeral.read? (whole ++ '.' :: fraction) =
    some ⟨whole ++ fraction, -(fraction.length : Int)⟩ := by
  have hpoint : ∀ c ∈ ('.' :: fraction).head?, c.isDigit = false := by simp
  have hend : ∀ c ∈ ([] : List Char).head?, c.isDigit = false := by simp
  obtain ⟨htake, hdrop⟩ := Text.span_of_stop hwhole hpoint
  obtain ⟨htake', hdrop'⟩ := Text.span_of_stop hfraction hend
  rw [List.append_nil] at htake' hdrop'
  have hdigits : whole ++ fraction ≠ [] := by simp [hne]
  simp only [Numeral.read?, htake, hdrop, htake', hdrop', if_neg hdigits]

theorem isSome_read?_point (hne : whole ≠ []) :
    (read? (whole ++ '.' :: fraction)).isSome = true := by
  obtain ⟨c, rest, rfl⟩ := List.exists_cons_of_ne_nil hne
  have hpoint : '.' ∈ (c :: rest ++ '.' :: fraction).map Char.toLower :=
    List.mem_map.mpr ⟨'.', by simp, rfl⟩
  -- The words are without a point, and the first digit is no sign.
  have hword : ∀ word : String, '.' ∉ word.toList →
      String.ofList ((c :: rest ++ '.' :: fraction).map Char.toLower) ≠ word := by
    rintro word hword rfl
    exact hword (by rwa [String.toList_ofList])
  have hunsigned : (readUnsigned? false (c :: rest ++ '.' :: fraction)).isSome = true := by
    unfold readUnsigned?
    dsimp only
    rw [if_neg (hword "nan" (by decide)), if_neg (not_or.mpr
      ⟨hword "inf" (by decide), hword "infinity" (by decide)⟩), Option.isSome_map,
      Numeral.read?_point hwhole hfraction hne]
    rfl
  unfold read?
  split
  · next heq =>
    obtain ⟨rfl, _⟩ := List.cons.inj heq
    cases hwhole '-' List.mem_cons_self
  · next heq =>
    obtain ⟨rfl, _⟩ := List.cons.inj heq
    cases hwhole '+' List.mem_cons_self
  · exact hunsigned

end Point

end TreeDatabase.Number.Decimal
