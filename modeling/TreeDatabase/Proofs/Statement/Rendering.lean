import Mathlib.Data.List.Chain
import TreeDatabase.Proofs.Statement.Lexing
import TreeDatabase.Proofs.Text.Cuts
import TreeDatabase.Proofs.Text.Runs

/-!
# Writing tokens back

The tokens of a text, written one after the other, are that text with every run of blanks outside
of quotes as a single one. Read again, they are the same tokens. For a token ends where it does by
what follows it, and what can follow it is not changed when blanks are left out.
-/

namespace TreeDatabase

namespace Token

/-! ## Runs of blanks -/

/-- Where a character stands in a text, by the characters before it. -/
inductive Place where
  | outside
  /-- Outside of quotes, right behind a blank. -/
  | behindBlank
  | inside (quote : Char)

namespace Place

def after : Place → Char → Place
  | inside q, c => if c = q then outside else inside q
  | outside, c | behindBlank, c =>
    if Text.isBlank c then behindBlank else if isQuote c then inside c else outside

/-- What is written for a character: for a blank outside of quotes a single space, or nothing when
it goes on a run. -/
def written : Place → Char → List Char
  | inside _, c => [c]
  | outside, c => if Text.isBlank c then [' '] else [c]
  | behindBlank, c => if Text.isBlank c then [] else [c]

end Place

/-- A text with one space for each run of blanks outside of quotes. -/
def collapseFrom : Place → List Char → List Char
  | _, [] => []
  | place, c :: cs => place.written c ++ collapseFrom (place.after c) cs

def collapse (cs : List Char) : List Char := collapseFrom .outside cs

theorem collapseFrom_behindBlank {cs : List Char}
    (h : ∀ c ∈ cs.head?, Text.isBlank c = false) : collapseFrom .behindBlank cs = collapse cs := by
  cases cs with
  | nil => rfl
  | cons c cs =>
    have hc : Text.isBlank c = false := h c rfl
    simp [collapse, collapseFrom, Place.written, Place.after, hc]

theorem collapse_blanks {blanks after : List Char} (hne : blanks ≠ [])
    (hall : ∀ c ∈ blanks, Text.isBlank c = true) (h : ∀ c ∈ after.head?, Text.isBlank c = false) :
    collapse (blanks ++ after) = ' ' :: collapse after := by
  have hrun : ∀ cs : List Char, (∀ c ∈ cs, Text.isBlank c = true) →
      collapseFrom .behindBlank (cs ++ after) = collapse after := by
    intro cs hcs
    induction cs with
    | nil => exact collapseFrom_behindBlank h
    | cons c cs ih =>
      have hc := hcs c List.mem_cons_self
      simp only [List.cons_append, collapseFrom, Place.written, Place.after, if_pos hc,
        List.nil_append]
      exact ih fun d hd => hcs d (List.mem_cons_of_mem _ hd)
  cases blanks with
  | nil => exact absurd rfl hne
  | cons c cs =>
    have hc := hall c List.mem_cons_self
    rw [List.cons_append, collapse, collapseFrom, Place.written, Place.after, if_pos hc, if_pos hc,
      hrun cs fun d hd => hall d (List.mem_cons_of_mem _ hd), List.singleton_append]

/-- Whether a character is copied outside of quotes, and quotes are not entered behind it. -/
def IsCopied (c : Char) : Prop := Text.isBlank c = false ∧ isQuote c = false

theorem collapse_cons {c : Char} (hc : IsCopied c) (cs : List Char) :
    collapse (c :: cs) = c :: collapse cs := by
  simp [collapse, collapseFrom, Place.written, Place.after, hc.1, hc.2]

theorem collapse_append {run : List Char} (hrun : ∀ c ∈ run, IsCopied c) (after : List Char) :
    collapse (run ++ after) = run ++ collapse after := by
  induction run with
  | nil => rfl
  | cons c run ih =>
    rw [List.cons_append, collapse_cons (hrun c List.mem_cons_self),
      ih fun d hd => hrun d (List.mem_cons_of_mem _ hd), List.cons_append]

theorem not_isBlank_of_isQuote {c : Char} (h : isQuote c = true) : Text.isBlank c = false := by
  rw [isQuote, Bool.or_eq_true, beq_iff_eq, beq_iff_eq] at h
  rcases h with rfl | rfl
  · decide
  · decide

theorem collapse_quoted {q : Char} {inside : List Char} (hq : isQuote q = true)
    (hinside : q ∉ inside) (after : List Char) :
    collapse (q :: inside ++ [q] ++ after) = q :: inside ++ [q] ++ collapse after := by
  have hrun : ∀ cs : List Char, q ∉ cs →
      collapseFrom (.inside q) (cs ++ q :: after) = cs ++ q :: collapse after := by
    intro cs hcs
    induction cs with
    | nil => simp [collapseFrom, Place.written, Place.after, collapse]
    | cons c cs ih =>
      obtain ⟨hc, hcs⟩ := not_or.mp (mt List.mem_cons.mpr hcs)
      simp only [List.cons_append, collapseFrom, Place.written, Place.after, if_neg (Ne.symm hc),
        List.nil_append, ih hcs]
  have hstart : collapse (q :: (inside ++ q :: after)) =
      q :: collapseFrom (.inside q) (inside ++ q :: after) := by
    simp [collapse, collapseFrom, Place.written, Place.after, hq, not_isBlank_of_isQuote hq]
  simpa using hstart.trans (congrArg (q :: ·) (hrun inside hinside))

/-- Nothing is put before or between characters that are copied, so that a text begins with those
with which it begins when it is collapsed. -/
theorem prefix_of_prefix_collapse {run cs : List Char} (hrun : ∀ c ∈ run, IsCopied c)
    (h : run <+: collapse cs) : run <+: cs := by
  induction run generalizing cs with
  | nil => exact List.nil_prefix
  | cons d run ih =>
    obtain ⟨hblank, hquote⟩ := hrun d List.mem_cons_self
    cases cs with
    | nil => exact h
    | cons c cs =>
      cases hc : Text.isBlank c with
      | true =>
        simp only [collapse, collapseFrom, Place.written, if_pos hc, List.singleton_append,
          List.cons_prefix_cons] at h
        rw [h.1] at hblank
        exact absurd hblank (by decide)
      | false =>
        cases hc' : isQuote c with
        | true =>
          simp only [collapse, collapseFrom, Place.written, hc, Bool.false_eq_true, if_false,
            List.singleton_append, List.cons_prefix_cons] at h
          rw [h.1, hc'] at hquote
          cases hquote
        | false =>
          rw [collapse_cons ⟨hc, hc'⟩, List.cons_prefix_cons] at h
          rw [List.cons_prefix_cons]
          exact ⟨h.1, ih (fun e he => hrun e (List.mem_cons_of_mem _ he)) h.2⟩

theorem head?_collapse_not_isBlank {cs : List Char} (h : ∀ c ∈ cs.head?, Text.isBlank c = false) :
    ∀ c ∈ (collapse cs).head?, Text.isBlank c = false := by
  cases cs with
  | nil => exact h
  | cons d cs =>
    have hd : Text.isBlank d = false := h d rfl
    intro c hc
    simp only [collapse, collapseFrom, Place.written, hd, Bool.false_eq_true, if_false,
      List.singleton_append, List.head?_cons, Option.mem_def, Option.some.injEq] at hc
    rw [← hc]
    exact hd

/-! ## What is read -/

def IsTime (digits : List Char) : Prop :=
  ∃ a b c d e f, digits = [a, b, ':', c, d, ':', e, f] ∧
    [a, b, c, d, e, f].all Char.isDigit = true

/-- One step of reading after some keywords: the token, the characters that it is read from and
those behind it, which tell that it ends there. -/
inductive Reads (ordinal : Nat) : Token → List Char → List Char → Prop where
  | space {blanks after : List Char} (ne : blanks ≠ []) (all : ∀ c ∈ blanks, Text.isBlank c = true)
      (stop : ∀ c ∈ after.head?, Text.isBlank c = false) : Reads ordinal space blanks after
  | quoted {q : Char} {inside after : List Char} (quote : isQuote q = true) (closed : q ∉ inside)
      (line : ∀ c ∈ inside, isLineBreak c = false) :
      Reads ordinal (quoted (String.ofList inside) q) (q :: inside ++ [q]) after
  | punctuation {c : Char} {t : Token} {after : List Char} (sign : ofPunctuation? c = some t) :
      Reads ordinal t [c] after
  | time {digits after : List Char} (isTime : IsTime digits) :
      Reads ordinal (time (String.ofList digits)) digits after
  | run {run after : List Char} (ne : run ≠ []) (all : ∀ c ∈ run, isWordChar c = true)
      (stop : ∀ c ∈ after.head?, isWordChar c = false)
      (untimed : ∀ digits, IsTime digits → ¬ digits <+: run ++ after) :
      Reads ordinal (ofRun ordinal run) run after

theorem isCopied_of_isWordChar {c : Char} (h : isWordChar c = true) : IsCopied c :=
  ⟨not_isBlank_of_isWordChar h, not_isQuote_of_isWordChar h⟩

theorem isCopied_of_mem_isTime {digits : List Char} (h : IsTime digits) :
    ∀ c ∈ digits, IsCopied c := by
  obtain ⟨x₁, x₂, x₃, x₄, x₅, x₆, rfl, hall⟩ := h
  have hdigit : ∀ c ∈ [x₁, x₂, x₃, x₄, x₅, x₆], IsCopied c := fun c hc =>
    isCopied_of_isWordChar (isWordChar_of_isDigit (List.all_eq_true.mp hall c hc))
  intro c hc
  by_cases hcolon : c = ':'
  · rw [hcolon]
    exact ⟨by decide, by decide⟩
  · refine hdigit c ?_
    simp only [List.mem_cons, List.not_mem_nil, or_false, hcolon, false_or] at hc ⊢
    exact hc

theorem timeAhead?_eq_none_iff {cs : List Char} :
    timeAhead? cs = none ↔ ∀ digits, IsTime digits → ¬ digits <+: cs := by
  rw [Option.eq_none_iff_forall_ne_some]
  constructor
  · rintro h digits htime ⟨rest, hrest⟩
    exact h ⟨digits, rest⟩ (timeAhead?_eq_some_iff.mpr ⟨hrest.symm, htime⟩)
  · rintro h ⟨digits, rest⟩ htime
    obtain ⟨hcs, hdigits⟩ := timeAhead?_eq_some_iff.mp htime
    exact h digits hdigits ⟨rest, hcs.symm⟩

theorem ofPunctuation?_eq_some {c : Char} {t : Token} (h : ofPunctuation? c = some t) :
    t.render = [c] ∧ IsCopied c := by
  unfold ofPunctuation? at h
  split at h
  all_goals cases h
  all_goals exact ⟨rfl, by decide, by decide⟩

theorem reads_of_next {total ordinal : Nat} {c : Char} {cs after : List Char} {t : Token}
    (h : next total ordinal c cs = .ok (t, after)) :
    ∃ read, c :: cs = read ++ after ∧ Reads ordinal t read after := by
  have hsplit : ∀ p : Char → Bool, c :: cs = c :: cs.takeWhile p ++ cs.dropWhile p := fun p => by
    rw [List.cons_append, List.takeWhile_append_dropWhile]
  have hall : ∀ p : Char → Bool, p c = true → ∀ d ∈ c :: cs.takeWhile p, p d = true := fun p hc =>
    List.forall_mem_cons.mpr ⟨hc, List.all_eq_true.mp List.all_takeWhile⟩
  rw [next] at h
  split at h
  · next hblank =>
    cases h
    exact ⟨_, hsplit _,
      .space (List.cons_ne_nil _ _) (hall _ hblank) (Text.head?_dropWhile _)⟩
  · split at h
    · next hquote =>
      split at h
      · cases h
      · next inside rest hcut =>
        split at h
        · cases h
        · next hline =>
          cases h
          obtain ⟨rfl, hclosed⟩ := Text.cutAt_eq_some_iff.mp hcut
          exact ⟨c :: inside ++ [c], by simp,
            .quoted hquote hclosed (List.findIdx?_eq_none_iff.mp hline)⟩
    · split at h
      · next hsign =>
        cases h
        exact ⟨[c], rfl, .punctuation hsign⟩
      · split at h
        · next hword =>
          split at h
          · next htime =>
            cases h
            obtain ⟨hcs, hdigits⟩ := timeAhead?_eq_some_iff.mp htime
            exact ⟨_, hcs, .time hdigits⟩
          · next hnone =>
            rw [Except.ok.injEq, Prod.mk.injEq] at h
            obtain ⟨rfl, rfl⟩ := h
            refine ⟨_, hsplit _,
              .run (List.cons_ne_nil _ _) (hall _ hword) (Text.head?_dropWhile _) ?_⟩
            rw [← hsplit]
            exact timeAhead?_eq_none_iff.mp hnone
        · cases h

theorem Reads.next {total ordinal : Nat} {c : Char} {cs read after : List Char} {t : Token}
    (h : Reads ordinal t read after) (hread : c :: cs = read ++ after) :
    next total ordinal c cs = .ok (t, after) := by
  rw [Token.next]
  cases h with
  | space ne all stop =>
    obtain ⟨d, blanks, rfl⟩ := List.exists_cons_of_ne_nil ne
    rw [List.cons_append] at hread
    obtain ⟨rfl, rfl⟩ := List.cons.inj hread
    obtain ⟨hc, hblanks⟩ := List.forall_mem_cons.mp all
    rw [if_pos hc, (Text.span_of_stop hblanks stop).2]
  | @quoted q inside _ quote closed line =>
    rw [List.cons_append, List.cons_append, List.append_assoc, List.singleton_append] at hread
    obtain ⟨rfl, rfl⟩ := List.cons.inj hread
    rw [if_neg (by simp [not_isBlank_of_isQuote quote]), if_pos quote,
      Text.cutAt_eq_some_iff.mpr ⟨rfl, closed⟩]
    dsimp only
    rw [List.findIdx?_eq_none_iff.mpr line]
  | punctuation sign =>
    rw [List.singleton_append] at hread
    obtain ⟨rfl, rfl⟩ := List.cons.inj hread
    obtain ⟨_, hblank, hquote⟩ := ofPunctuation?_eq_some sign
    rw [if_neg (by simp [hblank]), if_neg (by simp [hquote]), sign]
  | time isTime =>
    have htime := timeAhead?_eq_some_iff.mpr ⟨hread, isTime⟩
    have hc : isWordChar c = true := by
      obtain ⟨_, _, _, _, _, _, rfl, hdigits⟩ := isTime
      rw [(List.cons.inj hread).1]
      exact isWordChar_of_isDigit (List.all_eq_true.mp hdigits _ List.mem_cons_self)
    obtain ⟨hblank, hquote⟩ := isCopied_of_isWordChar hc
    rw [if_neg (by simp [hblank]), if_neg (by simp [hquote]), ofPunctuation?_of_isWordChar hc]
    dsimp only
    rw [if_pos hc, htime]
  | run ne all stop untimed =>
    have hnone := timeAhead?_eq_none_iff.mpr untimed
    rw [← hread] at hnone
    obtain ⟨d, run, rfl⟩ := List.exists_cons_of_ne_nil ne
    rw [List.cons_append] at hread
    obtain ⟨rfl, rfl⟩ := List.cons.inj hread
    obtain ⟨hc, hrun⟩ := List.forall_mem_cons.mp all
    obtain ⟨hblank, hquote⟩ := isCopied_of_isWordChar hc
    obtain ⟨htake, hdrop⟩ := Text.span_of_stop hrun stop
    rw [if_neg (by simp [hblank]), if_neg (by simp [hquote]), ofPunctuation?_of_isWordChar hc]
    dsimp only
    rw [if_pos hc, hnone]
    dsimp only
    rw [htake, hdrop]

theorem Reads.ne_nil {ordinal : Nat} {t : Token} {read after : List Char}
    (h : Reads ordinal t read after) : read ≠ [] := by
  cases h with
  | space ne all stop => exact ne
  | quoted quote closed line => exact List.cons_ne_nil _ _
  | punctuation sign => exact List.cons_ne_nil _ _
  | time isTime =>
    obtain ⟨_, _, _, _, _, _, rfl, _⟩ := isTime
    exact List.cons_ne_nil _ _
  | run ne all stop untimed => exact ne

/-- All steps of reading, after some keywords. -/
inductive ReadsAll : Nat → List Char → List Token → Prop where
  | nil (ordinal : Nat) : ReadsAll ordinal [] []
  | cons {ordinal : Nat} {read after : List Char} {t : Token} {ts : List Token}
      (step : Reads ordinal t read after) (later : ReadsAll (nextOrdinal ordinal t) after ts) :
      ReadsAll ordinal (read ++ after) (t :: ts)

theorem readsAll_of_scan {total ordinal : Nat} {cs : List Char} {ts : List Token}
    (h : scan total ordinal cs = .ok ts) : ReadsAll ordinal cs ts := by
  induction hlen : cs.length using Nat.strongRecOn generalizing cs ordinal ts with
  | _ len ih =>
    subst hlen
    rw [scan.eq_def] at h
    split at h
    · cases h
      exact .nil ordinal
    · next c cs =>
      split at h
      · cases h
      · next t after hnext =>
        cases hscan : scan total (nextOrdinal ordinal t) after with
        | error fault =>
          rw [hscan] at h
          cases h
        | ok later =>
          rw [hscan] at h
          cases h
          obtain ⟨read, hread, hstep⟩ := reads_of_next hnext
          rw [hread]
          exact .cons hstep (ih after.length (length_next hnext) hscan rfl)

theorem ReadsAll.scan {total ordinal : Nat} {cs : List Char} {ts : List Token}
    (h : ReadsAll ordinal cs ts) : scan total ordinal cs = .ok ts := by
  induction h with
  | nil ordinal => exact scan_nil total ordinal
  | @cons ordinal read after t ts step later ih =>
    obtain ⟨c, cs, hcs⟩ := List.exists_cons_of_ne_nil
      (List.append_ne_nil_of_left_ne_nil step.ne_nil after)
    rw [hcs, scan_cons (step.next hcs.symm), ih]
    rfl

/-! ## What is read again -/

theorem render_ofRun (ordinal : Nat) (run : List Char) : (ofRun ordinal run).render = run := by
  rw [ofRun]
  split
  · exact String.toList_ofList
  · exact String.toList_ofList

/-- The token is written for the characters that it is read from. -/
theorem Reads.collapse_append {ordinal : Nat} {t : Token} {read after : List Char}
    (h : Reads ordinal t read after) : collapse (read ++ after) = t.render ++ collapse after := by
  cases h with
  | space ne all stop => exact collapse_blanks ne all stop
  | quoted quote closed line =>
    rw [collapse_quoted quote closed, render, String.toList_ofList]
  | punctuation sign =>
    obtain ⟨hrender, hcopied⟩ := ofPunctuation?_eq_some sign
    rw [hrender, List.singleton_append, collapse_cons hcopied, List.singleton_append]
  | time isTime =>
    rw [Token.collapse_append (isCopied_of_mem_isTime isTime)]
    exact congrArg (· ++ _) String.toList_ofList.symm
  | run ne all stop untimed =>
    rw [Token.collapse_append fun c hc => isCopied_of_isWordChar (all c hc), render_ofRun]

/-- A token is read again from what is written for it. -/
theorem Reads.collapsed {ordinal : Nat} {t : Token} {read after : List Char}
    (h : Reads ordinal t read after) : Reads ordinal t t.render (collapse after) := by
  cases h with
  | space ne all stop =>
    exact .space (List.cons_ne_nil _ _) (List.forall_mem_singleton.mpr rfl)
      (head?_collapse_not_isBlank stop)
  | quoted quote closed line =>
    rw [render, String.toList_ofList]
    exact .quoted quote closed line
  | punctuation sign =>
    rw [(ofPunctuation?_eq_some sign).1]
    exact .punctuation sign
  | time isTime =>
    rw [render, text, String.toList_ofList]
    · exact .time isTime
    · exact fun _ _ heq => by cases heq
  | run ne all stop untimed =>
    rw [render_ofRun]
    refine .run ne all ?_ ?_
    · intro c hc
      obtain ⟨cs, hcs⟩ := List.head?_eq_some_iff.mp hc
      cases hword : isWordChar c with
      | false => rfl
      | true =>
        have hcopied : ∀ d ∈ [c], IsCopied d := by
          simpa using isCopied_of_isWordChar hword
        obtain ⟨later, rfl⟩ := prefix_of_prefix_collapse hcopied ⟨cs, by rw [hcs]; rfl⟩
        rw [← hword]
        exact (stop c rfl)
    · intro digits htime hprefix
      rw [← Token.collapse_append fun c hc => isCopied_of_isWordChar (all c hc)] at hprefix
      exact untimed digits htime
        (prefix_of_prefix_collapse (isCopied_of_mem_isTime htime) hprefix)

theorem ReadsAll.flatMap_render {ordinal : Nat} {cs : List Char} {ts : List Token}
    (h : ReadsAll ordinal cs ts) : ts.flatMap render = collapse cs := by
  induction h with
  | nil ordinal => rfl
  | cons step later ih => rw [List.flatMap_cons, ih, step.collapse_append]

theorem ReadsAll.collapsed {ordinal : Nat} {cs : List Char} {ts : List Token}
    (h : ReadsAll ordinal cs ts) : ReadsAll ordinal (collapse cs) ts := by
  induction h with
  | nil ordinal => exact .nil ordinal
  | cons step later ih =>
    rw [step.collapse_append]
    exact .cons step.collapsed ih

/-! ## Keywords and boundaries -/

def keyword? : Token → Option (Generator × Nat)
  | keyword g _ n => some (g, n)
  | _ => none

/-- The keywords among tokens, each with its number. -/
def keywords (ts : List Token) : List (Generator × Nat) := ts.filterMap keyword?

/-- Whether a token is a run of word characters, which a keyword is like a word. -/
def isRun : Token → Bool
  | word _ | keyword _ _ _ => true
  | _ => false

/-- Whether a token can stand behind another one: neither are two of them runs of blanks nor runs of
word characters. -/
def CanFollow (t u : Token) : Prop :=
  ¬ (t.isSpace = true ∧ u.isSpace = true) ∧ ¬ (t.isRun = true ∧ u.isRun = true)

theorem ofPunctuation?_kind {c : Char} {t : Token} (h : ofPunctuation? c = some t) :
    t.isSpace = false ∧ t.isRun = false := by
  unfold ofPunctuation? at h
  split at h
  all_goals cases h
  all_goals exact ⟨rfl, rfl⟩

theorem isSpace_ofRun (ordinal : Nat) (run : List Char) : (ofRun ordinal run).isSpace = false := by
  rw [ofRun]
  split
  · rfl
  · rfl

theorem Reads.of_isSpace {ordinal : Nat} {t : Token} {read after : List Char}
    (h : Reads ordinal t read after) (ht : t.isSpace = true) :
    (∀ c ∈ read, Text.isBlank c = true) ∧ ∀ c ∈ after.head?, Text.isBlank c = false := by
  cases h with
  | space ne all stop => exact ⟨all, stop⟩
  | quoted quote closed line => cases ht
  | punctuation sign =>
    rw [(ofPunctuation?_kind sign).1] at ht
    cases ht
  | time isTime => cases ht
  | run ne all stop untimed =>
    rw [isSpace_ofRun] at ht
    cases ht

theorem Reads.of_isRun {ordinal : Nat} {t : Token} {read after : List Char}
    (h : Reads ordinal t read after) (ht : t.isRun = true) :
    (∀ c ∈ read, isWordChar c = true) ∧ ∀ c ∈ after.head?, isWordChar c = false := by
  cases h with
  | space ne all stop => cases ht
  | quoted quote closed line => cases ht
  | punctuation sign =>
    rw [(ofPunctuation?_kind sign).2] at ht
    cases ht
  | time isTime => cases ht
  | run ne all stop untimed => exact ⟨all, stop⟩

/-- A run that has stopped does not go on in what is read next. -/
theorem Reads.not_stop {ordinal : Nat} {t : Token} {read after : List Char} {p : Char → Bool}
    (h : Reads ordinal t read after) (hall : ∀ c ∈ read, p c = true) :
    ¬ ∀ c ∈ (read ++ after).head?, p c = false := by
  obtain ⟨c, cs, rfl⟩ := List.exists_cons_of_ne_nil h.ne_nil
  intro hstop
  have hc := hall c List.mem_cons_self
  rw [hstop c rfl] at hc
  cases hc

theorem Reads.canFollow {ordinal ordinal' : Nat} {t u : Token} {read read' after : List Char}
    (h : Reads ordinal t read (read' ++ after)) (hu : Reads ordinal' u read' after) :
    CanFollow t u :=
  ⟨fun ⟨ht, hu'⟩ => hu.not_stop (hu.of_isSpace hu').1 (h.of_isSpace ht).2,
    fun ⟨ht, hu'⟩ => hu.not_stop (hu.of_isRun hu').1 (h.of_isRun ht).2⟩

theorem ReadsAll.isChain {ordinal : Nat} {cs : List Char} {ts : List Token}
    (h : ReadsAll ordinal cs ts) : ts.IsChain CanFollow := by
  induction h with
  | nil ordinal => exact .nil
  | cons step later ih =>
    refine ih.cons fun u hu => ?_
    cases later with
    | nil => cases hu
    | cons step' later' =>
      cases hu
      exact step.canFollow step'

/-- A keyword carries the number of those before it, and no other token counts. -/
theorem Reads.keyword?_cases {ordinal : Nat} {t : Token} {read after : List Char}
    (h : Reads ordinal t read after) :
    (∃ g, t.keyword? = some (g, ordinal) ∧ nextOrdinal ordinal t = ordinal + 1) ∨
      t.keyword? = none ∧ nextOrdinal ordinal t = ordinal := by
  cases h with
  | space ne all stop => exact .inr ⟨rfl, rfl⟩
  | quoted quote closed line => exact .inr ⟨rfl, rfl⟩
  | punctuation sign =>
    have hrun := (ofPunctuation?_kind sign).2
    cases t with
    | keyword g raw n => cases hrun
    | _ => exact .inr ⟨rfl, rfl⟩
  | time isTime => exact .inr ⟨rfl, rfl⟩
  | run ne all stop untimed =>
    rw [ofRun]
    split
    · next g _ => exact .inl ⟨g, rfl, rfl⟩
    · exact .inr ⟨rfl, rfl⟩

theorem ReadsAll.ordinals {ordinal : Nat} {cs : List Char} {ts : List Token}
    (h : ReadsAll ordinal cs ts) :
    (keywords ts).map Prod.snd = List.range' ordinal (keywords ts).length := by
  induction h with
  | nil ordinal => rfl
  | @cons ordinal read after t ts step later ih =>
    rw [keywords] at ih ⊢
    rcases step.keyword?_cases with ⟨g, ht, hnext⟩ | ⟨ht, hnext⟩
    · rw [List.filterMap_cons_some ht, List.map_cons, List.length_cons, List.range'_succ, ← hnext,
        ← ih]
    · rw [hnext] at ih
      rw [List.filterMap_cons_none ht, ← ih]

/-! ## Whole statements -/

/-- The keywords of a text are counted from zero. -/
theorem ordinals_of_tokenize {s : String} {ts : List Token} (h : tokenize s = .ok ts) :
    (keywords ts).map Prod.snd = List.range (keywords ts).length := by
  rw [List.range_eq_range']
  exact (readsAll_of_scan (tokenize_eq_ok_iff.mp h).1).ordinals

/-- What the tokens of a text tell of it: nothing but the lengths of its runs of blanks is lost. -/
structure Faithful (s : String) (ts : List Token) : Prop where
  rendered : ts.flatMap render = collapse s.toList
  reread : tokenize (String.ofList (ts.flatMap render)) = .ok ts
  ordinals : (keywords ts).map Prod.snd = List.range (keywords ts).length
  boundaries : ts.IsChain CanFollow

/-- The tokens of every text that has some, written back and read again. -/
theorem faithful_of_tokenize {s : String} {ts : List Token} (h : tokenize s = .ok ts) :
    Faithful s ts := by
  obtain ⟨hscan, hparentheses, hcolons⟩ := tokenize_eq_ok_iff.mp h
  have hreads := readsAll_of_scan hscan
  refine ⟨hreads.flatMap_render, tokenize_eq_ok_iff.mpr ⟨?_, hparentheses, hcolons⟩,
    ordinals_of_tokenize h, hreads.isChain⟩
  rw [hreads.flatMap_render, String.toList_ofList]
  exact hreads.collapsed.scan

/-- Runs of blanks in and out of quotes, a time of day with a word behind it, two keywords and a
quote of the other kind in quotes. -/
theorem faithful_keyword_time_and_quotes :
    let s := "write  NEWID\t= '\"  x' 12:00:00pm   ,lastName"
    let ts := [word "write", space, keyword .newId "NEWID" 0, space, equals, space,
      quoted "\"  x" '\'', space, time "12:00:00", word "pm", space, comma,
      keyword .lastName "lastName" 1]
    tokenize s = .ok ts ∧ Faithful s ts ∧
      String.ofList (ts.flatMap render) = "write NEWID = '\"  x' 12:00:00pm ,lastName" := by
  intro s ts
  have htokens : tokenize s = .ok ts := by decide +kernel
  exact ⟨htokens, faithful_of_tokenize htokens, by decide +kernel⟩

end Token

end TreeDatabase
