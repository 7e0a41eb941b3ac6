import Mathlib.Data.List.TakeWhile
import TreeDatabase.Proofs.Statement.Tokens

/-!
# Reading texts that are put together

The tokens of two texts written one after the other are the tokens of both, as long as no token can
reach over the boundary. So a text that is put together from tokens is read as these tokens.
-/

namespace TreeDatabase

namespace Text

theorem cutAt_append {α : Type} {sep : α → Bool} {as inside rest : List α}
    (h : cutAt sep as = (inside, some rest)) (bs : List α) :
    cutAt sep (as ++ bs) = (inside, some (rest ++ bs)) := by
  induction as generalizing inside with
  | nil => cases h
  | cons a as ih =>
    rw [cutAt] at h
    rw [List.cons_append, cutAt]
    split at h
    · next ha =>
      cases h
      rw [if_pos ha]
    · next ha =>
      obtain ⟨hinside, hrest⟩ := Prod.mk.inj h
      rw [if_neg ha, ih (Prod.ext rfl hrest), ← hinside]

theorem cutAt_suffix {α : Type} {sep : α → Bool} {as rest : List α}
    (h : (cutAt sep as).2 = some rest) : rest <:+ as := by
  induction as with
  | nil => cases h
  | cons a as ih =>
    rw [cutAt] at h
    split at h
    · cases h
      exact List.suffix_cons _ _
    · exact (ih h).trans (List.suffix_cons _ _)

end Text

namespace Token

/-- Two texts such that no token reaches from the one into the other: no word and no run of blanks
goes on, and no time of day is made at the boundary. -/
structure Apart (cs rest : List Char) : Prop where
  words : ∀ d ∈ cs.getLast?, ∀ c ∈ rest.head?, isWordChar d = true → isWordChar c = false
  blanks : ∀ d ∈ cs.getLast?, ∀ c ∈ rest.head?, Text.isBlank d = true → Text.isBlank c = false
  afterColon : ∀ c ∈ rest.head?, cs.getLast? = some ':' → c.isDigit = false
  beforeColon : ∀ after, rest = ':' :: after → ∀ c ∈ after.head?, c.isDigit = false

theorem Apart.of_suffix {cs after rest : List Char} (h : Apart cs rest) (hs : after <:+ cs) :
    Apart after rest := by
  obtain ⟨before, rfl⟩ := hs
  have hlast : ∀ d ∈ after.getLast?, d ∈ (before ++ after).getLast? := by
    intro d hd
    rw [List.getLast?_append, hd]
    rfl
  exact ⟨fun d hd => h.words d (hlast d hd), fun d hd => h.blanks d (hlast d hd),
    fun c hc hd => h.afterColon c hc (hlast _ hd), h.beforeColon⟩

theorem isWordChar_of_isDigit {c : Char} (h : c.isDigit = true) : isWordChar c = true := by
  simp [isWordChar, Char.isAlphanum, h]

/-! ## One step of reading -/

theorem timeAhead?_eq_some_iff {cs digits rest : List Char} :
    timeAhead? cs = some (digits, rest) ↔ cs = digits ++ rest ∧ ∃ a b c d e f,
      digits = [a, b, ':', c, d, ':', e, f] ∧ [a, b, c, d, e, f].all Char.isDigit = true := by
  constructor
  · intro h
    unfold timeAhead? at h
    split at h
    · next a b c d e f after =>
      split at h
      · next hall =>
        cases h
        exact ⟨rfl, a, b, c, d, e, f, rfl, hall⟩
      · cases h
    · cases h
  · rintro ⟨rfl, a, b, c, d, e, f, rfl, hall⟩
    exact if_pos hall

/-- A time of day does not reach over the boundary. -/
theorem Apart.timeAhead?_append {c : Char} {cs rest : List Char} (h : Apart (c :: cs) rest)
    (hnone : timeAhead? (c :: cs) = none) : timeAhead? (c :: cs ++ rest) = none := by
  rw [Option.eq_none_iff_forall_ne_some]
  rintro ⟨digits, after⟩ htime
  obtain ⟨happend, x₁, x₂, x₃, x₄, x₅, x₆, rfl, hall⟩ := timeAhead?_eq_some_iff.mp htime
  simp only [List.all_cons, List.all_nil, Bool.and_true, Bool.and_eq_true] at hall
  obtain ⟨h₁, h₂, h₃, h₄, h₅, h₆⟩ := hall
  have hwords : ∀ {d e : Char}, (c :: cs).getLast? = some d → rest.head? = some e →
      d.isDigit = true → e.isDigit = true → False := by
    intro d e hd he hdigit hdigit'
    have hfalse := h.words d hd e he (isWordChar_of_isDigit hdigit)
    rw [isWordChar_of_isDigit hdigit'] at hfalse
    cases hfalse
  -- The boundary falls somewhere in the eight characters, or behind them.
  rcases List.append_eq_append_iff.mp happend with ⟨within, hdigits, hrest⟩ | ⟨within, hcs, _⟩
  · rcases cs with _ | ⟨_, _ | ⟨_, _ | ⟨_, _ | ⟨_, _ | ⟨_, _ | ⟨_, _ | ⟨_, cs⟩⟩⟩⟩⟩⟩⟩ <;>
      simp only [List.cons_append, List.nil_append, List.cons.injEq] at hdigits
    · obtain ⟨rfl, rfl⟩ := hdigits
      exact hwords rfl (by simp [hrest]) h₁ h₂
    · obtain ⟨rfl, rfl, rfl⟩ := hdigits
      have := h.beforeColon _ hrest x₃ rfl
      simp [h₃] at this
    · obtain ⟨rfl, rfl, rfl, rfl⟩ := hdigits
      have := h.afterColon x₃ (by simp [hrest]) rfl
      simp [h₃] at this
    · obtain ⟨rfl, rfl, rfl, rfl, rfl⟩ := hdigits
      exact hwords rfl (by simp [hrest]) h₃ h₄
    · obtain ⟨rfl, rfl, rfl, rfl, rfl, rfl⟩ := hdigits
      have := h.beforeColon _ hrest x₅ rfl
      simp [h₅] at this
    · obtain ⟨rfl, rfl, rfl, rfl, rfl, rfl, rfl⟩ := hdigits
      have := h.afterColon x₅ (by simp [hrest]) rfl
      simp [h₅] at this
    · obtain ⟨rfl, rfl, rfl, rfl, rfl, rfl, rfl, rfl⟩ := hdigits
      exact hwords rfl (by simp [hrest]) h₅ h₆
    · obtain ⟨rfl, rfl, rfl, rfl, rfl, rfl, rfl, rfl, hnil⟩ := hdigits
      obtain ⟨rfl, rfl⟩ := List.append_eq_nil_iff.mp hnil.symm
      simp [timeAhead?, h₁, h₂, h₃, h₄, h₅, h₆] at hnone
  · rw [timeAhead?_eq_some_iff.mpr ⟨hcs, x₁, x₂, x₃, x₄, x₅, x₆, rfl, by simp [*]⟩] at hnone
    cases hnone

theorem next_suffix {total ordinal : Nat} {c : Char} {cs after : List Char} {t : Token}
    (h : next total ordinal c cs = .ok (t, after)) : after <:+ c :: cs := by
  have hdrop (p : Char → Bool) : cs.dropWhile p <:+ c :: cs :=
    (List.dropWhile_suffix p).trans (List.suffix_cons c cs)
  rw [next] at h
  split at h
  · cases h
    exact hdrop _
  · split at h
    · split at h
      · cases h
      · next inside rest hcut =>
        split at h
        · cases h
        · cases h
          exact (Text.cutAt_suffix (by rw [hcut])).trans (List.suffix_cons c cs)
    · split at h
      · cases h
        exact List.suffix_cons _ _
      · split at h
        · split at h
          · next htime =>
            cases h
            exact ⟨_, (timeAhead?_eq_some_iff.mp htime).1.symm⟩
          · rw [Except.ok.injEq, Prod.mk.injEq] at h
            obtain ⟨_, rfl⟩ := h
            exact hdrop _
        · cases h

/-- A run of characters does not go on behind a boundary at which it cannot. -/
theorem run_append {p : Char → Bool} {c : Char} {cs rest : List Char} (hc : p c = true)
    (h : ∀ d ∈ (c :: cs).getLast?, ∀ e ∈ rest.head?, p d = true → p e = false) :
    (cs ++ rest).takeWhile p = cs.takeWhile p ∧
      (cs ++ rest).dropWhile p = cs.dropWhile p ++ rest := by
  by_cases hall : ∀ d ∈ c :: cs, p d = true
  · have hstop : ∀ e ∈ rest.head?, p e = false := by
      intro e he
      have hlast : (c :: cs).getLast? = some ((c :: cs).getLast (by simp)) :=
        List.getLast?_eq_some_getLast _
      exact h _ hlast e he (hall _ (List.getLast_mem _))
    have hrest : rest.takeWhile p = [] ∧ rest.dropWhile p = rest := by
      cases rest with
      | nil => exact ⟨rfl, rfl⟩
      | cons e rest => simp [hstop e rfl]
    have hcs : ∀ d ∈ cs, p d = true := fun d hd => hall d (List.mem_cons_of_mem _ hd)
    rw [List.takeWhile_append_of_pos hcs, List.dropWhile_append_of_pos hcs, hrest.1, hrest.2,
      List.takeWhile_eq_self_iff.mpr hcs, List.dropWhile_eq_nil_iff.mpr hcs]
    simp
  · have hdrop : cs.dropWhile p ≠ [] := by
      intro hnil
      exact hall (List.forall_mem_cons.mpr ⟨hc, List.dropWhile_eq_nil_iff.mp hnil⟩)
    have htake : (cs.takeWhile p).length ≠ cs.length := by
      intro hlength
      have hwhole := congrArg List.length (List.takeWhile_append_dropWhile (p := p) (l := cs))
      rw [List.length_append, hlength] at hwhole
      exact hdrop (List.length_eq_zero_iff.mp (by omega))
    rw [List.takeWhile_append, List.dropWhile_append, if_neg htake, if_neg (by simpa using hdrop)]
    exact ⟨rfl, rfl⟩

/-- A step reads the same token when a text goes on behind a boundary that it cannot pass. The
place of the text in a statement does not matter. -/
theorem Apart.next_append {total total' ordinal : Nat} {c : Char} {cs after rest : List Char}
    {t : Token} (h : Apart (c :: cs) rest) (hnext : next total ordinal c cs = .ok (t, after)) :
    next total' ordinal c (cs ++ rest) = .ok (t, after ++ rest) := by
  rw [next] at hnext ⊢
  split at hnext
  · next hblank =>
    cases hnext
    rw [if_pos hblank, (run_append hblank h.blanks).2]
  · next hblank =>
    rw [if_neg hblank]
    split at hnext
    · next hquote =>
      rw [if_pos hquote]
      split at hnext
      · cases hnext
      · next inside behind hcut =>
        rw [Text.cutAt_append hcut]
        dsimp only
        split at hnext
        · cases hnext
        · next hline =>
          cases hnext
          rfl
    · next hquote =>
      rw [if_neg hquote]
      split at hnext
      · cases hnext
        rfl
      · split at hnext
        · next hword =>
          rw [if_pos hword]
          split at hnext
          · next digits behind htime =>
            cases hnext
            obtain ⟨hcs, hdigits⟩ := timeAhead?_eq_some_iff.mp htime
            have hcs' : c :: (cs ++ rest) = digits ++ (after ++ rest) := by
              rw [← List.cons_append, hcs, List.append_assoc]
            rw [timeAhead?_eq_some_iff.mpr ⟨hcs', hdigits⟩]
          · next hnone =>
            rw [Except.ok.injEq, Prod.mk.injEq] at hnext
            obtain ⟨rfl, rfl⟩ := hnext
            obtain ⟨htake, hdrop⟩ := run_append hword h.words
            rw [← List.cons_append, h.timeAhead?_append hnone, htake, hdrop]
        · cases hnext

/-! ## All steps -/

/-- How many keywords came before a text when some tokens came before it. -/
def ordinals (ordinal : Nat) (ts : List Token) : Nat := ts.foldl nextOrdinal ordinal

theorem scan_nil (total ordinal : Nat) : scan total ordinal [] = .ok [] := by
  rw [scan.eq_def]

theorem scan_cons {total ordinal : Nat} {c : Char} {cs after : List Char} {t : Token}
    (h : next total ordinal c cs = .ok (t, after)) : scan total ordinal (c :: cs) =
      (scan total (nextOrdinal ordinal t) after).map (t :: ·) := by
  rw [scan.eq_def]
  dsimp only
  split
  · next hfault =>
    rw [h] at hfault
    cases hfault
  · next hok =>
    rw [h] at hok
    cases hok
    rfl

/-- The tokens of a text, and then those of what follows a boundary. -/
theorem Apart.scan_append {m n ordinal : Nat} {cs rest : List Char} {ts : List Token}
    (h : Apart cs rest) (hscan : scan m ordinal cs = .ok ts) :
    scan n ordinal (cs ++ rest) =
      (scan n (ordinals ordinal ts) rest).map (ts ++ ·) := by
  induction hlen : cs.length using Nat.strongRecOn generalizing cs ordinal ts with
  | _ len ih =>
    subst hlen
    cases cs with
    | nil =>
      rw [scan_nil] at hscan
      cases hscan
      change scan n ordinal rest = (scan n ordinal rest).map ([] ++ ·)
      cases scan n ordinal rest <;> rfl
    | cons c cs =>
      cases hnext : next m ordinal c cs with
      | error fault =>
        rw [scan.eq_def] at hscan
        dsimp only at hscan
        split at hscan
        · cases hscan
        · next hok =>
          rw [hnext] at hok
          cases hok
      | ok step =>
        obtain ⟨t, after⟩ := step
        rw [scan_cons hnext] at hscan
        cases hafter : scan m (nextOrdinal ordinal t) after with
        | error fault =>
          rw [hafter] at hscan
          cases hscan
        | ok later =>
          rw [hafter] at hscan
          cases hscan
          rw [List.cons_append, scan_cons (h.next_append hnext),
            ih after.length (length_next hnext) (h.of_suffix (next_suffix hnext)) hafter rfl]
          change _ = (scan n (ordinals (nextOrdinal ordinal t) later) rest).map
            (t :: later ++ ·)
          cases scan n (ordinals (nextOrdinal ordinal t) later) rest <;> rfl

/-! ## Single tokens -/

theorem ne_colon_of_isWordChar {c : Char} (h : isWordChar c = true) : c ≠ ':' := by
  rintro rfl
  revert h
  decide

theorem not_isQuote_of_isWordChar {c : Char} (h : isWordChar c = true) : isQuote c = false := by
  rw [isQuote, Bool.or_eq_false_iff, beq_eq_false_iff_ne, beq_eq_false_iff_ne]
  constructor
  · rintro rfl
    revert h
    decide
  · rintro rfl
    revert h
    decide

theorem ofPunctuation?_of_isWordChar {c : Char} (h : isWordChar c = true) :
    ofPunctuation? c = none := by
  unfold ofPunctuation?
  split
  all_goals first | rfl | (revert h; decide)

/-- A run of word characters is one token. -/
theorem scan_run {total ordinal : Nat} {run : List Char} (hne : run ≠ [])
    (hrun : ∀ c ∈ run, isWordChar c = true) :
    scan total ordinal run = .ok [ofRun ordinal run] := by
  cases run with
  | nil => exact absurd rfl hne
  | cons c cs =>
    have hc := hrun c List.mem_cons_self
    have hcs : ∀ d ∈ cs, isWordChar d = true := fun d hd => hrun d (List.mem_cons_of_mem _ hd)
    have htime : timeAhead? (c :: cs) = none := by
      rw [Option.eq_none_iff_forall_ne_some]
      rintro ⟨digits, rest⟩ htime
      obtain ⟨hcs, _, _, _, _, _, _, rfl, _⟩ := timeAhead?_eq_some_iff.mp htime
      exact ne_colon_of_isWordChar (hrun ':' (by rw [hcs]; simp)) rfl
    have hnext : next total ordinal c cs = .ok (ofRun ordinal (c :: cs), []) := by
      rw [next, if_neg (by simp [not_isBlank_of_isWordChar hc]),
        if_neg (by simp [not_isQuote_of_isWordChar hc]), ofPunctuation?_of_isWordChar hc]
      dsimp only
      rw [if_pos hc, htime, List.takeWhile_eq_self_iff.mpr hcs, List.dropWhile_eq_nil_iff.mpr hcs]
    rw [scan_cons hnext, scan_nil]
    rfl

/-- A run of word characters that spells no keyword is a word. -/
theorem scan_word {total ordinal : Nat} {w : String} (hne : w ≠ "")
    (hword : ∀ c ∈ w.toList, isWordChar c = true) (hplain : Generator.ofWord? w = none) :
    scan total ordinal w.toList = .ok [word w] := by
  rw [scan_run (by simpa using hne) hword, ofRun, String.ofList_toList, hplain]

theorem scan_blanks {total ordinal : Nat} {cs : List Char} (hne : cs ≠ [])
    (h : ∀ c ∈ cs, Text.isBlank c = true) : scan total ordinal cs = .ok [space] := by
  cases cs with
  | nil => exact absurd rfl hne
  | cons c cs =>
    have hnext : next total ordinal c cs = .ok (space, []) := by
      rw [next, if_pos (h c List.mem_cons_self),
        List.dropWhile_eq_nil_iff.mpr fun d hd => h d (List.mem_cons_of_mem _ hd)]
    rw [scan_cons hnext, scan_nil]
    rfl

/-! ## Boundaries at blanks -/

theorem not_isWordChar_of_isBlank {c : Char} (h : Text.isBlank c = true) :
    isWordChar c = false := by
  cases hword : isWordChar c with
  | false => rfl
  | true =>
    rw [not_isBlank_of_isWordChar hword] at h
    cases h

theorem not_isDigit_of_isBlank {c : Char} (h : Text.isBlank c = true) : c.isDigit = false := by
  cases hdigit : c.isDigit with
  | false => rfl
  | true =>
    rw [not_isBlank_of_isWordChar (isWordChar_of_isDigit hdigit)] at h
    cases h

theorem apart_of_blanks_after {cs rest : List Char}
    (hcs : ∀ d ∈ cs.getLast?, Text.isBlank d = false)
    (hrest : ∀ c ∈ rest.head?, Text.isBlank c = true) : Apart cs rest where
  words := fun _ _ c hc _ => not_isWordChar_of_isBlank (hrest c hc)
  blanks := by
    intro d hd c _ hblank
    rw [hcs d hd] at hblank
    cases hblank
  afterColon := fun c hc _ => not_isDigit_of_isBlank (hrest c hc)
  beforeColon := by
    rintro after rfl
    exact absurd (hrest ':' rfl) (by decide)

theorem apart_of_blanks_before {cs rest : List Char}
    (hcs : ∀ d ∈ cs.getLast?, Text.isBlank d = true)
    (hrest : ∀ c ∈ rest.head?, isWordChar c = true) : Apart cs rest where
  words := by
    intro d hd c _ hword
    rw [not_isWordChar_of_isBlank (hcs d hd)] at hword
    cases hword
  blanks := fun _ _ c hc _ => not_isBlank_of_isWordChar (hrest c hc)
  afterColon := fun c _ hcolon => absurd (hcs ':' hcolon) (by decide)
  beforeColon := by
    rintro after rfl
    exact absurd (hrest ':' rfl) (by decide)

/-! ## Whole statements -/

theorem countInWords_append (c : Char) (ts us : List Token) :
    countInWords c (ts ++ us) = countInWords c ts + countInWords c us := by
  rw [countInWords, List.map_append, Number.total_append]
  rfl

/-- Whether tokens leave the balance of a statement as it is: their parentheses match, and they
hold no colon. -/
structure Neutral (ts : List Token) : Prop where
  parentheses : countInWords '(' ts = countInWords ')' ts
  colons : ts.count colon = 0

theorem tokenize_eq_ok_iff {s : String} {ts : List Token} : tokenize s = .ok ts ↔
    scan s.length 0 s.toList = .ok ts ∧ countInWords '(' ts = countInWords ')' ts ∧
      ts.count colon ≤ 1 := by
  rw [tokenize]
  split
  · next hscan => simp [hscan]
  · next us hscan =>
    rw [hscan, Except.ok.injEq]
    constructor
    · intro h
      split at h
      · cases h
      · next hparentheses =>
        split at h
        · cases h
        · next hcolons =>
          cases h
          exact ⟨rfl, not_not.mp hparentheses, Nat.not_lt.mp hcolons⟩
    · rintro ⟨rfl, hparentheses, hcolons⟩
      rw [if_neg (not_not.mpr hparentheses), if_neg (Nat.not_lt.mpr hcolons)]

theorem tokenize_append {s t : String} {ts later : List Token} (hapart : Apart s.toList t.toList)
    (hs : tokenize s = .ok ts)
    (hlater : ∀ total, scan total (ordinals 0 ts) t.toList = .ok later)
    (hneutral : Neutral later) : tokenize (s ++ t) = .ok (ts ++ later) := by
  obtain ⟨hscan, hparentheses, hcolons⟩ := tokenize_eq_ok_iff.mp hs
  refine tokenize_eq_ok_iff.mpr ⟨?_, ?_, ?_⟩
  · rw [String.toList_append, hapart.scan_append hscan, hlater]
    rfl
  · rw [countInWords_append, countInWords_append, hparentheses, hneutral.parentheses]
  · rw [List.count_append, hneutral.colons]
    exact hcolons

end Token

end TreeDatabase
