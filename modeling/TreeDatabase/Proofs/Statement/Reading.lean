import TreeDatabase.Proofs.Statement.Tokens
import TreeDatabase.Statement.Parser

/-!
# How statements are read

Each step of reading keeps the verb and the list of faults in agreement. A statement without a
fault is a comment, a verb alone, or the parts that its clauses consist of, as the checks at the end
leave them.
-/

namespace TreeDatabase.Statement

open Token

/-! ## Faults and the verb -/

theorem verb_addFaults {s : Statement} {fs : List Fault} :
    (s.addFaults fs).verb = if fs = [] then s.verb else .error := by
  have herror : ∀ (gs : List Fault) (t : Statement), t.verb = .error →
      (gs.foldl addFault t).verb = .error := by
    intro gs
    induction gs with
    | nil => exact fun t h => h
    | cons g gs ih => exact fun t _ => ih _ rfl
  cases fs with
  | nil => rfl
  | cons f fs => exact herror fs _ rfl

/-- Faults of which none is recorded change nothing. -/
theorem addFaults_of_ne_error {s : Statement} {fs : List Fault}
    (h : (s.addFaults fs).verb ≠ .error) : fs = [] ∧ s.addFaults fs = s ∧ s.verb ≠ .error := by
  rw [verb_addFaults] at h
  split at h
  · next hfs => exact ⟨hfs, by rw [hfs]; rfl, h⟩
  · exact absurd rfl h

theorem retarget_cases (s : Statement) : (s.verb = .write ∧ s.beginsAtRules = true ∧
      s.retarget = { s with verb := .enforce }) ∨
    (¬ (s.verb = .write ∧ s.beginsAtRules = true) ∧ s.retarget = s) := by
  rw [retarget]
  by_cases h : s.verb = .write ∧ s.beginsAtRules = true
  · exact .inl ⟨h.1, h.2, by rw [if_pos h]⟩
  · exact .inr ⟨h, by rw [if_neg h]⟩

/-- A condition is read by steps each of which adds to the filter or records a fault. -/
theorem withCondition_induction {motive : Statement → Prop} {s : Statement} (ts : List Token)
    (start : motive s) (filter : ∀ t f, motive t → motive { t with filter := f })
    (fault : ∀ t f, motive t → motive (addFault t f)) : motive (s.withCondition ts) := by
  have hfold : ∀ (items : List (List Token)) (t : Statement), motive t →
      motive (items.foldl Condition.addItem t) := by
    intro items
    induction items with
    | nil => exact fun t ht => ht
    | cons item items ih =>
      intro t ht
      rw [List.foldl_cons]
      apply ih
      rw [Condition.addItem]
      split
      · exact filter _ _ ht
      · exact fault _ _ ht
  rw [withCondition]
  split
  · exact fault _ _ start
  · exact hfold _ s start

/-- A statement has faults just when its verb says so, and no two of them have one message. -/
structure Settled (s : Statement) : Prop where
  verb : s.verb = .error ↔ s.faults ≠ []
  messages : s.messages.Nodup

theorem settled_of_faults_eq_nil {s : Statement} (hfaults : s.faults = [])
    (hverb : s.verb ≠ .error) : s.Settled := by
  constructor
  · exact ⟨fun he => absurd he hverb, fun hne => absurd hfaults hne⟩
  · rw [messages, hfaults]
    exact List.nodup_nil

namespace Settled

variable {s t : Statement}

/-- Only the verb and the faults matter. -/
theorem congr (h : s.Settled) (hverb : t.verb = .error ↔ s.verb = .error)
    (hfaults : t.faults = s.faults) : t.Settled := by
  constructor
  · rw [hverb, hfaults]
    exact h.verb
  · rw [Statement.messages, hfaults]
    exact h.messages

theorem addFault (h : s.Settled) (f : Fault) : (s.addFault f).Settled := by
  by_cases hany : s.faults.any (·.message == f.message) = true
  · have hfaults : (s.addFault f).faults = s.faults := by simp [Statement.addFault, hany]
    have hne : s.faults ≠ [] := by
      intro hnil
      simp [hnil] at hany
    constructor
    · rw [hfaults]
      exact ⟨fun _ => hne, fun _ => rfl⟩
    · rw [Statement.messages, hfaults]
      exact h.messages
  · have hfaults : (s.addFault f).faults = s.faults ++ [f] := by simp [Statement.addFault, hany]
    have hnew : f.message ∉ s.messages := by
      intro hmem
      obtain ⟨g, hg, hmessage⟩ := List.mem_map.mp hmem
      exact hany (List.any_eq_true.mpr ⟨g, hg, by simpa using hmessage⟩)
    constructor
    · rw [hfaults]
      exact ⟨fun _ => by simp, fun _ => rfl⟩
    · rw [Statement.messages, hfaults, List.map_append, List.map_singleton]
      refine List.nodup_append.mpr ⟨h.messages, by simp, ?_⟩
      intro m hm n hn heq
      rw [heq, List.mem_singleton.mp hn] at hm
      exact hnew hm

theorem addFaults (h : s.Settled) (fs : List Fault) : (s.addFaults fs).Settled := by
  induction fs generalizing s with
  | nil => exact h
  | cons f fs ih => exact ih (h.addFault f)

theorem withArgument (h : s.Settled) (a : Argument) : (s.withArgument a).Settled := by
  rw [Statement.withArgument]
  apply Settled.addFaults
  exact h.congr Iff.rfl rfl

theorem withCondition (h : s.Settled) (ts : List Token) : (s.withCondition ts).Settled :=
  withCondition_induction ts h (fun _ _ ht => ht.congr Iff.rfl rfl) fun _ f ht => ht.addFault f

theorem retarget (h : s.Settled) : s.retarget.Settled := by
  rcases s.retarget_cases with ⟨hwrite, _, hr⟩ | ⟨_, hr⟩
  · rw [hr]
    exact h.congr (by simp [hwrite]) rfl
  · rw [hr]
    exact h

theorem settleSites (h : s.Settled) : s.settleSites.Settled := by
  rw [Statement.settleSites]
  split
  · exact h.congr Iff.rfl rfl
  · exact h

theorem validate (h : s.Settled) : s.validate.Settled := by
  have hchecked := ((h.addFaults s.pathFaults).retarget).addFaults
    (s.addFaults s.pathFaults).retarget.argumentFaults
  rw [Statement.validate]
  split
  · exact (hchecked.addFaults _).settleSites
  · exact hchecked.addFault _

end Settled

theorem sublist_of_takeRepetitions {ts rest : List Token} {n : Nat}
    (h : Clauses.takeRepetitions ts = .ok (rest, n)) : rest.Sublist ts := by
  unfold Clauses.takeRepetitions at h
  split at h
  · cases h
    exact List.Sublist.refl _
  · dsimp only at h
    cases hcount : Clauses.repetitions (Text.cutAt Clauses.isRepetition ts).1
        ((Text.cutAt Clauses.isRepetition ts).2.getD []) with
    | error fault =>
      rw [hcount] at h
      cases h
    | ok k =>
      rw [hcount] at h
      cases h
      exact ((Text.sublist_trimBy Token.isSpace _).trans (List.sublist_append_left _ _)).trans
        (Text.sublist_cutAt Clauses.isRepetition ts)
  · cases h

theorem clauses_of_ofTokens? {ts : List Token} {clauses : Clauses}
    (h : Clauses.ofTokens? ts = some clauses) :
    clauses.verb ∈ Verb.operations ∧ clauses.argument.Sublist ts := by
  rw [Clauses.ofTokens?] at h
  split at h
  · next w rest htrim =>
    have htrimmed : (trimSpaces ts).Sublist ts := Text.sublist_trimBy Token.isSpace ts
    rw [htrim] at htrimmed
    have hargument : (trimSpaces rest).Sublist ts :=
      (Text.sublist_trimBy Token.isSpace rest).trans
        ((List.sublist_cons_self _ _).trans htrimmed)
    split at h
    · obtain ⟨verb, hverb, rfl⟩ := Option.map_eq_some_iff.mp h
      have hmem : verb ∈ Verb.operations := List.mem_of_find?_eq_some hverb
      dsimp only
      split
      · exact ⟨hmem, hargument⟩
      · exact ⟨hmem, (((Text.sublist_trimBy Token.isSpace _).trans
          (List.sublist_append_left _ _)).trans
            (Text.sublist_cutAt Clauses.isCondition _)).trans hargument⟩
    · cases h
  · cases h

theorem ne_error_of_mem_operations {verb : Verb} (h : verb ∈ Verb.operations) :
    verb ≠ .error := by
  rintro rfl
  revert h
  decide

/-! ## Stages of reading -/

/-- What is read of a text: it without blanks at its ends and without a terminator. -/
def body (text : String) : String :=
  String.ofList (stripTerminator (Text.trimChars text.toList))

/-- A text is divided into clauses and a number of repetitions. -/
def Divides (text : String) (n : Nat) (clauses : Clauses) : Prop :=
  ∃ ts rest, tokenize (String.ofList (unescape text.toList)) = .ok ts ∧
    Clauses.takeRepetitions ts = .ok (rest, n) ∧ Clauses.ofTokens? rest = some clauses

theorem Divides.verb {text : String} {n : Nat} {clauses : Clauses}
    (h : Divides text n clauses) : clauses.verb ∈ Verb.operations := by
  obtain ⟨_, _, _, _, hclauses⟩ := h
  exact (clauses_of_ofTokens? hclauses).1

/-- A text that is no operation: it is blank, or a comment. -/
def IsRemark (text : String) : Prop :=
  text = "" ∨ Text.isBasicLatin text = true ∧
    Vocabulary.commentMarker.toList <+: unescape text.toList

/-- A text is a remark, it has a fault before there are clauses, or its clauses are read. -/
theorem parse_stages (text : String) :
    (IsRemark (body text) ∧ parse text = { text := body text }) ∨
    (∃ n f, parse text = addFault { text := body text, repetitions := n } f) ∨
    ∃ n clauses, Divides (body text) n clauses ∧
      parse text = (withClauses { text := body text, repetitions := n } clauses).validate := by
  rw [parse, ofText]
  rw [show String.ofList (stripTerminator (Text.trimChars text.toList)) = body text from rfl]
  generalize body text = text
  dsimp only
  split
  · next hblank => exact .inl ⟨.inl hblank, rfl⟩
  split
  · exact .inr (.inl ⟨1, _, rfl⟩)
  split
  · next hlatin hmarker =>
    exact .inl ⟨.inr ⟨by simpa using hlatin, List.isPrefixOf_iff_prefix.mp hmarker⟩, rfl⟩
  split
  · exact .inr (.inl ⟨1, _, rfl⟩)
  · next ts hts =>
    rw [interpret]
    split
    · exact .inr (.inl ⟨1, _, rfl⟩)
    · next rest n htake =>
      dsimp only
      split
      · exact .inr (.inl ⟨n, _, rfl⟩)
      · next clauses hclauses =>
        exact .inr (.inr ⟨n, clauses, ⟨ts, rest, hts, htake, hclauses⟩, rfl⟩)

theorem settled_withClauses {s : Statement} {clauses : Clauses} (hfaults : s.faults = [])
    (hverb : clauses.verb ∈ Verb.operations) : (s.withClauses clauses).Settled := by
  have hs : { s with verb := clauses.verb }.Settled :=
    settled_of_faults_eq_nil hfaults (ne_error_of_mem_operations hverb)
  rw [withClauses]
  dsimp only
  split
  · split
    · exact hs
    · exact hs.addFault _
  · split
    · exact hs.withArgument _
    · exact (hs.withArgument _).withCondition _

theorem settled_parse (text : String) : (parse text).Settled := by
  have hs : ∀ n, ({ text := body text, repetitions := n } : Statement).Settled := fun _ =>
    settled_of_faults_eq_nil rfl (by simp)
  rcases parse_stages text with ⟨_, heq⟩ | ⟨n, f, heq⟩ | ⟨n, clauses, hdivides, heq⟩
  · rw [heq]
    exact hs 1
  · rw [heq]
    exact (hs n).addFault f
  · rw [heq]
    exact (settled_withClauses rfl hdivides.verb).validate

/-! ## Statements without faults -/

theorem settleSites_verb (s : Statement) : s.settleSites.verb = s.verb := by
  rw [settleSites]
  split <;> rfl

/-- What the checks at the end of reading make sure of. -/
theorem validate_of_ne_error {s : Statement} (h : s.validate.verb ≠ .error) :
    s.validate = s.retarget.settleSites ∧ s.pathFaults = [] ∧ s.retarget.argumentFaults = [] ∧
      s.retarget.hasValidNames = true ∧ s.retarget.verbFaults = [] := by
  rw [validate] at h ⊢
  split at h
  · next hvalid =>
    rw [if_pos hvalid]
    rw [settleSites_verb] at h
    obtain ⟨hverb, heq, hchecked⟩ := addFaults_of_ne_error h
    obtain ⟨hargument, heq', hretarget⟩ := addFaults_of_ne_error hchecked
    have hpath : (s.addFaults s.pathFaults).verb ≠ .error := by
      rw [retarget] at hretarget
      split at hretarget
      · next hwrite =>
        rw [hwrite.1]
        decide
      · exact hretarget
    obtain ⟨hpath, heq'', _⟩ := addFaults_of_ne_error hpath
    rw [heq, heq', heq'']
    rw [heq''] at hargument hvalid hverb
    exact ⟨rfl, hpath, hargument, hvalid, hverb⟩
  · exact absurd rfl h

theorem withCondition_of_ne_error {s : Statement} {ts : List Token}
    (h : (s.withCondition ts).verb ≠ .error) :
    (∃ f, s.withCondition ts = { s with filter := f }) ∧ s.verb ≠ .error := by
  revert h
  refine withCondition_induction
    (motive := fun t => t.verb ≠ .error → (∃ f, t = { s with filter := f }) ∧ s.verb ≠ .error)
    ts (fun h => ⟨⟨s.filter, rfl⟩, h⟩) (fun t f ht h => ?_) fun t f _ h => absurd rfl h
  obtain ⟨⟨_, rfl⟩, hs⟩ := ht h
  exact ⟨⟨f, rfl⟩, hs⟩

/-- The parts that clauses consist of, and a filter, before the checks at the end of reading. -/
def ofParts (text : String) (n : Nat) (clauses : Clauses) (filter : Filter) : Statement :=
  let a := Argument.ofTokens clauses.argument
  { text, verb := clauses.verb, repetitions := n, parents := a.parents
    selectedName := a.selectedName, selectedValue := a.selectedValue
    children := a.children.entries, sites := a.sites, filter }

/-- How a text becomes a statement without faults. -/
inductive Reading (text : String) : Statement → Prop
  | comment : Reading text { text }
  | bare {n : Nat} {clauses : Clauses} (divides : Divides text n clauses)
      (verb : clauses.verb.isBare = true) :
      Reading text { text, verb := clauses.verb, repetitions := n }
  | data {n : Nat} {clauses : Clauses} (divides : Divides text n clauses)
      (verb : clauses.verb.isBare = false)
      (argument : (Argument.ofTokens clauses.argument).faults = [])
      (children : (Argument.ofTokens clauses.argument).children.faults = []) (filter : Filter) :
      Reading text (ofParts text n clauses filter).validate

theorem Divides.lexical {text : String} {n : Nat} {clauses : Clauses}
    (h : Divides text n clauses) : ∀ t ∈ clauses.argument, t.Lexical := by
  obtain ⟨ts, rest, hts, htake, hclauses⟩ := h
  intro t ht
  exact lexical_tokenize hts t
    ((sublist_of_takeRepetitions htake).subset ((clauses_of_ofTokens? hclauses).2.subset ht))

theorem readRepeatCount_bounds {raw : String} {n : Nat} (h : readRepeatCount raw = .ok n) :
    1 ≤ n ∧ n ≤ maxRepeatCount := by
  rw [readRepeatCount] at h
  split at h
  · cases h
  · split at h
    · cases h
    · cases h
    · next k hzero hk =>
      split at h
      · cases h
      · next hle =>
        cases h
        have hpos : n ≠ 0 := fun hn => hzero hn
        omega

theorem takeRepetitions_bounds {ts rest : List Token} {n : Nat}
    (h : Clauses.takeRepetitions ts = .ok (rest, n)) : 1 ≤ n ∧ n ≤ maxRepeatCount := by
  unfold Clauses.takeRepetitions at h
  split at h
  · cases h
    decide
  · dsimp only at h
    cases hcount : Clauses.repetitions (Text.cutAt Clauses.isRepetition ts).1
        ((Text.cutAt Clauses.isRepetition ts).2.getD []) with
    | error fault =>
      rw [hcount] at h
      cases h
    | ok k =>
      rw [hcount] at h
      cases h
      rw [Clauses.repetitions] at hcount
      split at hcount
      · exact readRepeatCount_bounds hcount
      · cases hcount
  · cases h

theorem Divides.repetitions {text : String} {n : Nat} {clauses : Clauses}
    (h : Divides text n clauses) : 1 ≤ n ∧ n ≤ maxRepeatCount := by
  obtain ⟨_, _, _, htake, _⟩ := h
  exact takeRepetitions_bounds htake

theorem withArgument_of_ne_error {s : Statement} {a : Argument}
    (h : (s.withArgument a).verb ≠ .error) : a.faults = [] ∧ a.children.faults = [] ∧
      s.withArgument a = { s with
        parents := a.parents
        selectedName := a.selectedName
        selectedValue := a.selectedValue
        children := a.children.entries
        sites := a.sites } := by
  rw [withArgument] at h ⊢
  obtain ⟨hfaults, heq, _⟩ := addFaults_of_ne_error h
  obtain ⟨hpath, hchildren⟩ := List.append_eq_nil_iff.mp hfaults
  exact ⟨hpath, hchildren, heq⟩

/-- Clauses that give no fault are a verb alone, or an argument and a condition without faults. -/
theorem withClauses_of_ne_error {text : String} {n : Nat} {clauses : Clauses}
    (h : (withClauses { text, repetitions := n } clauses).verb ≠ .error) :
    (clauses.verb.isBare = true ∧
      withClauses { text, repetitions := n } clauses =
        { text, verb := clauses.verb, repetitions := n }) ∨
    (clauses.verb.isBare = false ∧ (Argument.ofTokens clauses.argument).faults = [] ∧
      (Argument.ofTokens clauses.argument).children.faults = [] ∧ ∃ f,
        withClauses { text, repetitions := n } clauses = ofParts text n clauses f) := by
  rw [withClauses] at h ⊢
  dsimp only at h ⊢
  split at h
  · next hbare =>
    left
    rw [if_pos hbare]
    split at h
    · next hargument => exact ⟨hbare, by rw [if_pos hargument]⟩
    · exact absurd rfl h
  · next hbare =>
    right
    rw [if_neg hbare]
    refine ⟨by simpa using hbare, ?_⟩
    split at h
    · next hnone =>
      obtain ⟨hfaults, hchildren, heq⟩ := withArgument_of_ne_error h
      simp only [heq]
      exact ⟨hfaults, hchildren, _, rfl⟩
    · next ts hsome =>
      obtain ⟨⟨f, hf⟩, hne⟩ := withCondition_of_ne_error h
      obtain ⟨hfaults, hchildren, heq⟩ := withArgument_of_ne_error hne
      rw [heq] at hf
      simp only [heq]
      exact ⟨hfaults, hchildren, f, hf⟩

theorem validate_of_isBare {s : Statement} (hbare : s.verb.isBare = true)
    (h : s.validate.verb ≠ .error) : s.validate = s := by
  have hother : ∀ verb, verb.isBare = false → s.verb ≠ verb := by
    intro verb hverb heq
    rw [heq, hverb] at hbare
    cases hbare
  have hwrite := hother .write rfl
  have hrename := hother .rename rfl
  have henforce := hother .enforce rfl
  rw [(validate_of_ne_error h).1, retarget, if_neg (by simp [hwrite]), settleSites,
    if_neg (by simp [hrename, henforce])]

theorem verb_ne_error_of_validate {s : Statement} (h : s.validate.verb ≠ .error) :
    s.verb ≠ .error := by
  rw [(validate_of_ne_error h).1, settleSites_verb, retarget] at h
  intro herror
  rw [if_neg (by simp [herror])] at h
  exact h herror

/-- A statement without faults was read in one of three ways. -/
theorem reading_parse {text : String} (h : (parse text).verb ≠ .error) :
    Reading (body text) (parse text) := by
  rcases parse_stages text with ⟨_, heq⟩ | ⟨n, f, heq⟩ | ⟨n, clauses, hdivides, heq⟩
  · rw [heq]
    exact .comment
  · rw [heq] at h
    exact absurd rfl h
  · rw [heq] at h ⊢
    rcases withClauses_of_ne_error (verb_ne_error_of_validate h) with
      ⟨hbare, heq⟩ | ⟨hdata, hfaults, hchildren, f, heq⟩
    · rw [heq] at h ⊢
      rw [validate_of_isBare hbare h]
      exact .bare hdivides hbare
    · rw [heq]
      exact .data hdivides hdata hfaults hchildren f

end TreeDatabase.Statement
