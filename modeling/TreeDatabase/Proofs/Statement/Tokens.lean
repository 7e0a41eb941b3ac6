import Mathlib.Tactic.Common
import TreeDatabase.Proofs.Text.Runs
import TreeDatabase.Statement.Argument
import TreeDatabase.Token.Lexer

/-!
# What is read as tokens

Words and keywords are runs of word characters, and quoted texts hold no line break. So no name and
no value that is put together from tokens contains one.
-/

namespace TreeDatabase

namespace Text

/-- Whether a text stays on one line. -/
def OneLine (s : String) : Prop := ∀ c ∈ s.toList, Token.isLineBreak c = false

instance (s : String) : Decidable (OneLine s) := List.decidableBAll _ s.toList

theorem oneLine_blank : OneLine "" := by decide

theorem oneLine_iff {s : String} : OneLine s ↔ '\n' ∉ s.toList ∧ '\r' ∉ s.toList := by
  simp only [OneLine, Token.isLineBreak, Bool.or_eq_false_iff, beq_eq_false_iff_ne]
  constructor
  · exact fun h => ⟨fun hc => (h _ hc).1 rfl, fun hc => (h _ hc).2 rfl⟩
  · rintro ⟨hn, hr⟩ c hc
    exact ⟨fun he => hn (he ▸ hc), fun he => hr (he ▸ hc)⟩

/-! ## Parts of lists -/

section Parts

variable {α : Type} {sep p : α → Bool} {as : List α}

theorem sublist_cutAt (sep : α → Bool) (as : List α) :
    ((cutAt sep as).1 ++ (cutAt sep as).2.getD []).Sublist as := by
  induction as with
  | nil => exact List.Sublist.refl _
  | cons a as ih =>
    rw [cutAt]
    split
    · exact List.sublist_cons_self a as
    · exact ih.cons_cons a

theorem sublist_pieces (sep : α → Bool) (as : List α) : (pieces sep as).flatten.Sublist as := by
  induction as with
  | nil => exact List.Sublist.refl _
  | cons a as ih =>
    rw [pieces]
    split
    · exact ih.cons a
    · cases hpieces : pieces sep as with
      | nil => exact absurd hpieces (pieces_ne_nil sep as)
      | cons p ps =>
        rw [hpieces] at ih
        exact ih.cons_cons a

theorem sublist_afterLast (sep : α → Bool) (as : List α) : (afterLast sep as).Sublist as := by
  rw [afterLast, List.getLast?_eq_some_getLast (pieces_ne_nil sep as), Option.getD_some]
  exact (List.sublist_flatten_of_mem (List.getLast_mem _)).trans (sublist_pieces sep as)

theorem sublist_trimBy (p : α → Bool) (as : List α) : (trimBy p as).Sublist as := by
  rw [trimBy, dropEndWhile_eq_rdropWhile]
  exact (List.rdropWhile_prefix p _).sublist.trans (List.dropWhile_sublist p)

theorem mem_of_mem_pieces {piece : List α} (hpiece : piece ∈ pieces sep as) {a : α}
    (ha : a ∈ piece) : a ∈ as :=
  (sublist_pieces sep as).subset (List.mem_flatten.mpr ⟨piece, hpiece, ha⟩)

theorem mem_of_mem_cutAt_fst {a : α} (ha : a ∈ (cutAt sep as).1) : a ∈ as :=
  (sublist_cutAt sep as).subset (List.mem_append_left _ ha)

theorem mem_of_mem_cutAt_snd {rest : List α} {a : α} (hrest : (cutAt sep as).2 = some rest)
    (ha : a ∈ rest) : a ∈ as := by
  refine (sublist_cutAt sep as).subset (List.mem_append_right _ ?_)
  rw [hrest]
  exact ha

theorem mem_of_mem_trimBy {a : α} (ha : a ∈ trimBy p as) : a ∈ as := (sublist_trimBy p as).subset ha

end Parts

end Text

namespace Token

/-- What reading makes sure of in a token. -/
def Lexical : Token → Prop
  | word t => t.toList ≠ [] ∧ ∀ c ∈ t.toList, isWordChar c = true
  | keyword g raw _ =>
    Generator.ofWord? raw = some g ∧ raw.toList ≠ [] ∧ ∀ c ∈ raw.toList, isWordChar c = true
  | quoted t _ => Text.OneLine t
  | time t => Text.OneLine t
  | _ => True

theorem not_isLineBreak_of_isWordChar {c : Char} (h : isWordChar c = true) :
    isLineBreak c = false := by
  rw [isLineBreak, Bool.or_eq_false_iff, beq_eq_false_iff_ne, beq_eq_false_iff_ne]
  constructor
  · rintro rfl
    revert h
    decide
  · rintro rfl
    revert h
    decide

/-- No character between the digits and the last letter is blank. -/
theorem not_isBlank_of_code {c : Char} (hfrom : 48 ≤ c.toNat) (hto : c.toNat ≤ 122) :
    Text.isBlank c = false := by
  simp [Text.isBlank]
  omega

theorem not_isBlank_of_isWordChar {c : Char} (h : isWordChar c = true) :
    Text.isBlank c = false := by
  have hsplit : (((c.isUpper || c.isLower) || c.isDigit) || "-+;_()/\\".toList.contains c) = true :=
    h
  rw [Bool.or_eq_true, Bool.or_eq_true, Bool.or_eq_true, List.contains_iff_mem] at hsplit
  rcases hsplit with ((hupper | hlower) | hdigit) | h
  · obtain ⟨hfrom, hto⟩ : 'A'.val ≤ c.val ∧ c.val ≤ 'Z'.val := of_decide_eq_true hupper
    exact not_isBlank_of_code (Nat.le_trans (by decide) (UInt32.le_iff_toNat_le.mp hfrom))
      (Nat.le_trans (UInt32.le_iff_toNat_le.mp hto) (by decide))
  · obtain ⟨hfrom, hto⟩ := Bool.and_eq_true_iff.mp hlower
    exact not_isBlank_of_code
      (Nat.le_trans (by decide) (UInt32.le_iff_toNat_le.mp (of_decide_eq_true hfrom)))
      (UInt32.le_iff_toNat_le.mp (of_decide_eq_true hto))
  · obtain ⟨hfrom, hto⟩ := Char.isDigit_iff_toNat.mp hdigit
    exact not_isBlank_of_code hfrom (Nat.le_trans hto (by decide))
  · have hpunct : "-+;_()/\\".toList.all (fun d => !Text.isBlank d) = true := by decide
    simpa using List.all_eq_true.mp hpunct c h

theorem Lexical.oneLine {t : Token} (h : t.Lexical) : Text.OneLine t.text := by
  cases t with
  | word t => exact fun c hc => not_isLineBreak_of_isWordChar (h.2 c hc)
  | keyword g raw n => exact fun c hc => not_isLineBreak_of_isWordChar (h.2.2 c hc)
  | quoted t q => exact h
  | time t => exact h
  | dot => decide
  | colon => decide
  | equals => decide
  | comma => decide
  | space => decide

theorem lexical_ofRun {ordinal : Nat} {run : List Char} (hne : run ≠ [])
    (hrun : ∀ c ∈ run, isWordChar c = true) : (ofRun ordinal run).Lexical := by
  rw [ofRun]
  split
  · next g hg => exact ⟨hg, by simpa using hne, by simpa using hrun⟩
  · exact ⟨by simpa using hne, by simpa using hrun⟩

theorem oneLine_timeAhead? {cs digits rest : List Char}
    (h : timeAhead? cs = some (digits, rest)) : Text.OneLine (String.ofList digits) := by
  have hdigit : ∀ c : Char, c.isDigit = true → isLineBreak c = false := by
    intro c hc
    exact not_isLineBreak_of_isWordChar (by simp [isWordChar, Char.isAlphanum, hc])
  unfold timeAhead? at h
  split at h
  · split at h
    · next hall =>
      cases h
      simp only [List.all_cons, List.all_nil, Bool.and_eq_true, and_true] at hall
      intro c hc
      simp only [String.toList_ofList, List.mem_cons, List.not_mem_nil, or_false] at hc
      rcases hc with rfl | rfl | rfl | rfl | rfl | rfl | rfl | rfl
      · exact hdigit _ hall.1
      · exact hdigit _ hall.2.1
      · decide
      · exact hdigit _ hall.2.2.1
      · exact hdigit _ hall.2.2.2.1
      · decide
      · exact hdigit _ hall.2.2.2.2.1
      · exact hdigit _ hall.2.2.2.2.2
    · cases h
  · cases h

theorem lexical_next {total ordinal : Nat} {c : Char} {cs rest : List Char} {t : Token}
    (h : next total ordinal c cs = .ok (t, rest)) : t.Lexical := by
  rw [next] at h
  split at h
  · cases h
    trivial
  · split at h
    · split at h
      · cases h
      · split at h
        · cases h
        · next hnone =>
          cases h
          rw [Lexical, Text.OneLine, String.toList_ofList]
          exact List.findIdx?_eq_none_iff.mp hnone
    · split at h
      · next t' hpunct =>
        cases h
        unfold ofPunctuation? at hpunct
        split at hpunct
        all_goals cases hpunct
        all_goals trivial
      · split at h
        · next hword =>
          split at h
          · next htime =>
            cases h
            exact oneLine_timeAhead? htime
          · cases h
            have hrun : ∀ d ∈ c :: cs.takeWhile isWordChar, isWordChar d = true := by
              intro d hd
              rcases List.mem_cons.mp hd with rfl | hd
              · exact hword
              · exact List.all_eq_true.mp List.all_takeWhile d hd
            exact lexical_ofRun (List.cons_ne_nil _ _) hrun
        · cases h

theorem lexical_scan {total ordinal : Nat} {cs : List Char} {ts : List Token}
    (h : scan total ordinal cs = .ok ts) : ∀ t ∈ ts, t.Lexical := by
  induction hlen : cs.length using Nat.strongRecOn generalizing cs ordinal ts with
  | _ len ih =>
    subst hlen
    cases cs with
    | nil =>
      unfold scan at h
      cases h
      simp
    | cons c rest =>
      unfold scan at h
      split at h
      · cases h
      · next t after hnext =>
        cases hscan : scan total (nextOrdinal ordinal t) after with
        | error fault =>
          rw [hscan] at h
          cases h
        | ok later =>
          rw [hscan] at h
          cases h
          intro u hu
          rcases List.mem_cons.mp hu with rfl | hu
          · exact lexical_next hnext
          · exact ih after.length (length_next hnext) hscan rfl u hu

theorem lexical_tokenize {s : String} {ts : List Token} (h : tokenize s = .ok ts) :
    ∀ t ∈ ts, t.Lexical := by
  rw [tokenize] at h
  split at h
  · cases h
  · next hscan =>
    split at h
    · cases h
    · split at h
      · cases h
      · cases h
        exact lexical_scan hscan

/-! ## Texts put together from tokens -/

theorem oneLine_joinText {ts : List Token} (h : ∀ t ∈ ts, t.Lexical) :
    Text.OneLine (joinText ts) := by
  intro c hc
  rw [joinText, String.toList_ofList] at hc
  obtain ⟨t, ht, hct⟩ := List.mem_flatMap.mp (Text.mem_of_mem_trimBy hc)
  exact (h t ht).oneLine c hct

end Token

end TreeDatabase
