import TreeDatabase.Proofs.Engine.Reading
import TreeDatabase.Proofs.Statement.Sites

/-!
# Answered keywords

A resolver is asked once for each keyword site of a statement that was read, in the order of the
text. Its answers fill the fields of the sites and nothing else, and a statement is carried out only
when the names of its children are different.
-/

namespace TreeDatabase

namespace Statement

/-! ## Filled fields -/

/-- A text in a field leaves all other fields as they are. -/
theorem field?_setField_of_ne (s : Statement) {field other : Field} (h : field ≠ other)
    (text : String) : (s.setField field text).field? other = s.field? other := by
  have hmodify : ∀ (i j : Nat) (f : String × String → String × String)
      (part : String × String → String), (i = j → ∀ c, part (f c) = part c) →
      (s.children.modify i f)[j]?.map part = s.children[j]?.map part := by
    intro i j f part hpart
    rw [List.getElem?_modify]
    cases s.children[j]? with
    | none => rfl
    | some c =>
      by_cases hij : i = j
      · simp [hij, hpart hij]
      · simp [hij]
  cases field with
  | selectedName => cases other <;> first | rfl | exact absurd rfl h
  | selectedValue => cases other <;> first | rfl | exact absurd rfl h
  | childName i =>
    cases other with
    | selectedName => rfl
    | selectedValue => rfl
    | childName j => exact hmodify i j _ _ fun hij => absurd (congrArg Field.childName hij) h
    | childValue j => exact hmodify i j _ _ fun _ _ => rfl
  | childValue i =>
    cases other with
    | selectedName => rfl
    | selectedValue => rfl
    | childName j => exact hmodify i j _ _ fun _ _ => rfl
    | childValue j => exact hmodify i j _ _ fun hij => absurd (congrArg Field.childValue hij) h

theorem field?_setField_self {s : Statement} {field : Field} {written : String}
    (h : s.field? field = some written) (text : String) :
    (s.setField field text).field? field = some text := by
  cases field with
  | selectedName => rfl
  | selectedValue => rfl
  | childName i =>
    obtain ⟨child, hchild, _⟩ := Option.map_eq_some_iff.mp h
    simp [setField, field?, hchild]
  | childValue i =>
    obtain ⟨child, hchild, _⟩ := Option.map_eq_some_iff.mp h
    simp [setField, field?, hchild]

/-- An answer in the field of a site, which without an answer stays as it is written. -/
def fillSite (s : Statement) (filling : KeywordSite × Option String) : Statement :=
  match filling.2 with
  | some text => s.setField filling.1.field text
  | none => s

/-- What no keyword fills. -/
def frame (s : Statement) : Statement :=
  { s with selectedName := "", selectedValue := none, children := [] }

section Fillings

variable {s : Statement} {fillings : List (KeywordSite × Option String)}

theorem frame_fillSite (s : Statement) (filling : KeywordSite × Option String) :
    (s.fillSite filling).frame = s.frame ∧
      (s.fillSite filling).children.length = s.children.length := by
  rw [fillSite]
  split
  · cases filling.1.field <;> simp [setField, frame]
  · exact ⟨rfl, rfl⟩

theorem frame_foldl_fillSite (s : Statement) (fillings : List (KeywordSite × Option String)) :
    (fillings.foldl fillSite s).frame = s.frame ∧
      (fillings.foldl fillSite s).children.length = s.children.length := by
  induction fillings generalizing s with
  | nil => exact ⟨rfl, rfl⟩
  | cons filling fillings ih =>
    obtain ⟨hframe, hlength⟩ := ih (s.fillSite filling)
    obtain ⟨hframe', hlength'⟩ := s.frame_fillSite filling
    exact ⟨hframe.trans hframe', hlength.trans hlength'⟩

theorem field?_foldl_of_ne {field : Field} (h : ∀ filling ∈ fillings, filling.1.field ≠ field) :
    (fillings.foldl fillSite s).field? field = s.field? field := by
  induction fillings generalizing s with
  | nil => rfl
  | cons filling fillings ih =>
    obtain ⟨hne, hrest⟩ := List.forall_mem_cons.mp h
    rw [List.foldl_cons, ih hrest, fillSite]
    split
    · exact s.field?_setField_of_ne hne _
    · rfl

/-- Of fillings of different fields each one stays. -/
theorem field?_foldl_of_mem (hnodup : (fillings.map (·.1.field)).Nodup)
    {filling : KeywordSite × Option String} (hmem : filling ∈ fillings) {written : String}
    (hwritten : s.field? filling.1.field = some written) :
    (fillings.foldl fillSite s).field? filling.1.field = some (filling.2.getD written) := by
  induction fillings generalizing s with
  | nil => cases hmem
  | cons first fillings ih =>
    obtain ⟨hfirst, hnodup⟩ := List.nodup_cons.mp hnodup
    have hother : ∀ later ∈ fillings, later.1.field ≠ first.1.field := fun later hlater heq =>
      hfirst (List.mem_map.mpr ⟨later, hlater, heq⟩)
    rw [List.foldl_cons]
    rcases List.mem_cons.mp hmem with rfl | hmem
    · rw [field?_foldl_of_ne hother, fillSite]
      cases filling.2 with
      | none => exact hwritten
      | some text => exact field?_setField_self hwritten text
    · refine ih hnodup hmem ?_
      rw [fillSite]
      split
      · rw [s.field?_setField_of_ne (hother filling hmem).symm]
        exact hwritten
      · exact hwritten

end Fillings

/-! ## Answers -/

/-- A statement in which the answers of a resolver, one for each site, have taken their places. -/
structure Answered (s t : Statement) (answers : List (Option String)) : Prop where
  length : answers.length = s.sites.length
  filled : ∀ (i : Nat) (site : KeywordSite) (answer : Option String), s.sites[i]? = some site →
    answers[i]? = some answer → ∃ written, s.field? site.field = some written ∧
      t.field? site.field = some (answer.getD written)
  kept : ∀ field, (∀ site ∈ s.sites, site.field ≠ field) → t.field? field = s.field? field
  children : t.children.length = s.children.length
  parents : t.parents = s.parents
  filter : t.filter = s.filter
  repetitions : t.repetitions = s.repetitions
  format : t.format = s.format
  sites : t.sites = s.sites
  text : t.text = s.text
  /-- The statement is as good as before, or the names of two children coincide. -/
  verdict : (t.childNames.Nodup ∧ t.verb = s.verb ∧ t.faults = s.faults) ∨
    (¬ t.childNames.Nodup ∧ t.verb = .error ∧ t.faults = (s.addFault .duplicateChildren).faults)

end Statement

namespace Resolver

variable {σ : Type}

/-- What a resolver answers to requests that are put one after the other. -/
def answers (r : Resolver σ) (store : Store) :
    List KeywordRequest → σ → List (Option String) × σ
  | [], state => ([], state)
  | request :: requests, state =>
    let (answer, state) := r.resolve request store state
    let (later, state) := answers r store requests state
    (answer :: later, state)

theorem length_answers (r : Resolver σ) (store : Store) (requests : List KeywordRequest)
    (state : σ) : (r.answers store requests state).1.length = requests.length := by
  induction requests generalizing state with
  | nil => rfl
  | cons request requests ih => simp [answers, ih]

theorem foldl_fill (r : Resolver σ) (store : Store) (sites : List KeywordSite) (s : Statement)
    (state : σ) : sites.foldl (r.fill store) (s, state) =
      ((sites.zip (r.answers store (sites.map KeywordSite.request) state).1).foldl
        Statement.fillSite s, (r.answers store (sites.map KeywordSite.request) state).2) := by
  induction sites generalizing s state with
  | nil => rfl
  | cons site sites ih =>
    have hfill : r.fill store (s, state) site =
        (s.fillSite (site, (r.resolve site.request store state).1),
          (r.resolve site.request store state).2) := by
      rw [fill, Statement.fillSite]
      dsimp only
      split
      · next hresolve => rw [hresolve]
      · next hresolve => rw [hresolve]
    rw [List.foldl_cons, hfill, ih]
    rfl

end Resolver

namespace Statement

variable {s : Statement} {text : String}

/-- Sites that stand in the order of the text need no sorting. -/
theorem SitesIn.orderedSites (h : s.SitesIn text) : Resolver.orderedSites s = s.sites := by
  obtain ⟨ts, hts, hsub⟩ := h.inOrder
  have hlt := List.pairwise_map.mp (SitesAmong.increasing hts hsub)
  exact List.mergeSort_of_pairwise (hlt.imp fun h => by simpa using Nat.le_of_lt h)

theorem SitesIn.answered (h : s.SitesIn text) {answers : List (Option String)}
    (hlength : answers.length = s.sites.length) {verb : Verb} {faults : List Fault}
    {filled : Statement} (hfilled : (s.sites.zip answers).foldl fillSite s = filled)
    (hverdict : (filled.childNames.Nodup ∧ verb = s.verb ∧ faults = s.faults) ∨
      (¬ filled.childNames.Nodup ∧ verb = .error ∧
        faults = (s.addFault .duplicateChildren).faults)) :
    s.Answered { filled with verb, faults } answers := by
  have hfields : (s.sites.zip answers).map (·.1.field) = s.sites.map (·.field) := by
    have hsites := List.map_fst_zip (Nat.le_of_eq hlength.symm)
    conv_rhs => rw [← hsites, List.map_map]
    rfl
  have hfield : ∀ field, { filled with verb, faults }.field? field = filled.field? field := by
    intro field
    cases field <;> rfl
  obtain ⟨hframe, hchildren⟩ := frame_foldl_fillSite s (s.sites.zip answers)
  rw [hfilled] at hframe hchildren
  constructor
  · exact hlength
  · intro i site answer hsite hanswer
    have hmem : (site, answer) ∈ s.sites.zip answers :=
      List.mem_of_getElem? (List.getElem?_zip_eq_some.mpr ⟨hsite, hanswer⟩)
    obtain ⟨written, hwritten⟩ :=
      Option.isSome_iff_exists.mp (h.exist site (List.mem_of_getElem? hsite))
    refine ⟨written, hwritten, ?_⟩
    rw [hfield, ← hfilled]
    exact field?_foldl_of_mem (hfields ▸ h.apart) hmem hwritten
  · intro field hother
    rw [hfield, ← hfilled]
    exact field?_foldl_of_ne fun filling hmem => hother _ (List.of_mem_zip hmem).1
  · exact hchildren
  · exact (congrArg Statement.parents hframe :)
  · exact (congrArg Statement.filter hframe :)
  · exact (congrArg Statement.repetitions hframe :)
  · exact (congrArg Statement.format hframe :)
  · exact (congrArg Statement.sites hframe :)
  · exact (congrArg Statement.text hframe :)
  · exact hverdict

/-- The resolver is asked for the sites one after the other. -/
theorem SitesIn.apply_eq {σ : Type} (h : s.SitesIn text) (hok : s.isError = false)
    (hsites : s.sites ≠ []) (r : Resolver σ) (store : Store) (state : σ) :
    r.apply store s state =
      let asked := r.answers store (s.sites.map KeywordSite.request) state
      let filled := (s.sites.zip asked.1).foldl fillSite s
      (if Resolver.hasRepeats filled.childNames then filled.addFault .duplicateChildren
        else filled, asked.2) := by
  rw [Resolver.apply, if_neg (by simp [hok, hsites]), h.orderedSites, r.foldl_fill]

/-- The answers take the places of the sites. -/
theorem SitesIn.apply {σ : Type} (h : s.SitesIn text) (hok : s.isError = false)
    (hsites : s.sites ≠ []) (r : Resolver σ) (store : Store) (state : σ) :
    (r.apply store s state).2 = (r.answers store (s.sites.map KeywordSite.request) state).2 ∧
      s.Answered (r.apply store s state).1
        (r.answers store (s.sites.map KeywordSite.request) state).1 := by
  have hlength := r.length_answers store (s.sites.map KeywordSite.request) state
  rw [List.length_map] at hlength
  rw [h.apply_eq hok hsites]
  generalize r.answers store (s.sites.map KeywordSite.request) state = asked at hlength ⊢
  refine ⟨rfl, ?_⟩
  dsimp only
  generalize hfilled : (s.sites.zip asked.1).foldl fillSite s = filled
  have hframe : filled.frame = s.frame := hfilled ▸ (frame_foldl_fillSite s _).1
  have hverb : filled.verb = s.verb := (congrArg Statement.verb hframe :)
  have hfaults : filled.faults = s.faults := (congrArg Statement.faults hframe :)
  split
  · next hrepeats =>
    refine h.answered hlength hfilled (.inr ⟨?_, rfl, ?_⟩)
    · rw [← Resolver.hasRepeats_eq_false_iff, hrepeats]
      exact Bool.noConfusion
    · rw [addFault, hfaults]
  · next hrepeats =>
    rw [Bool.not_eq_true, Resolver.hasRepeats_eq_false_iff] at hrepeats
    exact h.answered hlength hfilled (.inl ⟨hrepeats, hverb, hfaults⟩)

theorem Answered.isError_iff {t : Statement} {answers : List (Option String)}
    (h : s.Answered t answers) (hok : s.isError = false) :
    t.isError = true ↔ ¬ t.childNames.Nodup := by
  rcases h.verdict with ⟨hnodup, hverb, _⟩ | ⟨hrepeats, hverb, _⟩
  · rw [isError, hverb, ← isError, hok]
    simp [hnodup]
  · simp [isError, hverb, hrepeats]

end Statement

/-! ## Executed statements -/

namespace Engine

variable {σ : Type} {r : Resolver σ} {e : Engine σ} {s : Statement}

/-- The statement with answered keywords that an execution carries out, if it comes to that. -/
def executed? (r : Resolver σ) (e : Engine σ) (s : Statement) : Option Statement :=
  match sessionResponse? s with
  | some _ => none
  | none =>
    let resolved := (r.apply e.store s e.resolverState).1
    if resolved.isError then none else some resolved

theorem executed?_eq_some_iff {resolved : Statement} : e.executed? r s = some resolved ↔
    sessionResponse? s = none ∧ (r.apply e.store s e.resolverState).1 = resolved ∧
      resolved.isError = false := by
  rw [executed?]
  cases sessionResponse? s with
  | some response => simp
  | none =>
    simp only [true_and]
    split
    · next herror =>
      constructor
      · exact fun heq => by cases heq
      · rintro ⟨rfl, hok⟩
        rw [herror] at hok
        cases hok
    · next hok =>
      rw [Option.some.injEq]
      constructor
      · rintro rfl
        exact ⟨rfl, by simpa using hok⟩
      · exact And.left

/-- An execution carries out the one statement, or leaves the store as it is. -/
theorem run_eq_of_executed? (r : Resolver σ) (e : Engine σ) (s : Statement) :
    match e.executed? r s with
    | some resolved => e.run r s =
        { e with resolverState := (r.apply e.store s e.resolverState).2 }.perform resolved
    | none => (e.run r s).1.store = e.store := by
  rw [executed?, run]
  cases sessionResponse? s with
  | some response => rfl
  | none =>
    dsimp only
    split
    · next heq =>
      split at heq
      · cases heq
      · next hok =>
        cases heq
        rw [if_neg hok]
    · next heq =>
      split at heq
      · next herror => rw [if_pos herror]
      · cases heq

theorem verb_ne_error_of_executed? {resolved : Statement} (h : e.executed? r s = some resolved) :
    s.verb ≠ .error := by
  intro herror
  simp [executed?, sessionResponse?, herror] at h

/-- The fields, sites and children of a statement do not depend on the format of the engine. -/
theorem sitesIn_parse (e : Engine σ) {text : String} (hok : (e.parse text).isError = false)
    (hsites : (e.parse text).sites ≠ []) : (e.parse text).SitesIn text := by
  have hparse := @Statement.sitesIn_parse text
  rw [parse] at hok hsites ⊢
  generalize Statement.parse text = s at hparse hok hsites ⊢
  have hsitesIn := hparse (by simpa [Statement.isError] using hok) hsites
  exact ⟨hsitesIn.inOrder, hsitesIn.apart, hsitesIn.exist⟩

/-- What is carried out of a text has children with different names. -/
theorem nodup_childNames_of_executed? (e e' : Engine σ) {text : String} {resolved : Statement}
    (h : e'.executed? r (e.parse text) = some resolved) : resolved.childNames.Nodup := by
  obtain ⟨_, happly, haccepted⟩ := executed?_eq_some_iff.mp h
  have hverb := verb_ne_error_of_executed? h
  by_cases hsites : (e.parse text).sites = []
  · rw [Resolver.apply_of_sites_eq_nil hsites] at happly
    rw [← happly]
    exact (distinctChildren_parse hverb).nodup hsites
  · have hok : (e.parse text).isError = false := by simp [Statement.isError, hverb]
    have hanswered := ((e.sitesIn_parse hok hsites).apply hok hsites r e'.store e'.resolverState).2
    rw [happly] at hanswered
    rcases hanswered.verdict with ⟨hnodup, _⟩ | ⟨_, herror, _⟩
    · exact hnodup
    · simp [Statement.isError, herror] at haccepted

/-- In a text that is read without a fault, a resolver is asked once for each keyword site, in the
order of the text. Its answers take the places of the sites and of nothing else, which is an error
if names of children coincide then. What is carried out of a text has children with different
names. -/
theorem answers_keywords (r : Resolver σ) (e : Engine σ) (text : String) :
    ((e.parse text).isError = false → (e.parse text).sites ≠ [] →
      let s := e.parse text
      let asked := r.answers e.store (s.sites.map KeywordSite.request) e.resolverState
      let resolved := r.apply e.store s e.resolverState
      s.SitesIn text ∧ resolved.2 = asked.2 ∧ s.Answered resolved.1 asked.1 ∧
        (resolved.1.isError = true ↔ ¬ resolved.1.childNames.Nodup)) ∧
    ∀ e' : Engine σ, match e'.executed? r (e.parse text) with
      | some resolved => resolved.childNames.Nodup ∧ e'.run r (e.parse text) =
          { e' with resolverState := (r.apply e'.store (e.parse text) e'.resolverState).2 }.perform
            resolved
      | none => (e'.run r (e.parse text)).1.store = e'.store := by
  constructor
  · intro hok hsites
    have hsitesIn := e.sitesIn_parse hok hsites
    have happly := hsitesIn.apply hok hsites r e.store e.resolverState
    exact ⟨hsitesIn, happly.1, happly.2, happly.2.isError_iff hok⟩
  · intro e'
    have hrun := run_eq_of_executed? r e' (e.parse text)
    split
    · next resolved hexecuted =>
      rw [hexecuted] at hrun
      exact ⟨nodup_childNames_of_executed? e e' hexecuted, hrun⟩
    · next hnone =>
      rw [hnone] at hrun
      exact hrun

/-- A resolver that keeps what it is asked, and has no answer for dates. The sites are of all kinds,
and two names of children are keywords. -/
theorem answers_keywords_of_all_fields :
    let r : Resolver (List KeywordRequest) := ⟨fun request _ asked =>
      (if request.generator = .date then none else some (Number.numeral asked.length),
        asked ++ [request])⟩
    let e : Engine (List KeywordRequest) := { resolverState := [] }
    let s := e.parse "write p.Newid = LastName: Text = Integer 5, b = Date, newid 7 = 'x'"
    let resolved := r.apply e.store s e.resolverState
    s.isError = false ∧ s.sites.length = 6 ∧ resolved.2 = [⟨.newId, none, .selectedName⟩,
        ⟨.lastName, none, .selectedValue⟩, ⟨.text, none, .childName 0⟩,
        ⟨.integer, some "5", .childValue 0⟩, ⟨.date, none, .childValue 1⟩,
        ⟨.newId, some "7", .childName 2⟩] ∧
      s.Answered resolved.1 [some "0", some "1", some "2", some "3", none, some "5"] ∧
      e.executed? r s = some resolved.1 ∧ resolved.1.childNames.Nodup := by
  intro r e s resolved
  have hs : s = ⟨.write, "Newid", some "LastName", ["p"],
      [("Text", "Integer 5"), ("b", "Date"), ("newid 7", "x")], {}, 1, .basic, [],
      [⟨.newId, none, .selectedName, 0⟩, ⟨.lastName, none, .selectedValue, 1⟩,
        ⟨.text, none, .childName 0, 2⟩, ⟨.integer, some "5", .childValue 0, 3⟩,
        ⟨.date, none, .childValue 1, 4⟩, ⟨.newId, some "7", .childName 2, 5⟩],
      "write p.Newid = LastName: Text = Integer 5, b = Date, newid 7 = 'x'"⟩ := by
    decide +kernel
  have hok : s.isError = false := by rw [hs]; rfl
  have hsites : s.sites ≠ [] := by rw [hs]; exact List.cons_ne_nil _ _
  have hanswers : r.answers e.store (s.sites.map KeywordSite.request) e.resolverState =
      ([some "0", some "1", some "2", some "3", none, some "5"],
        [⟨.newId, none, .selectedName⟩, ⟨.lastName, none, .selectedValue⟩,
          ⟨.text, none, .childName 0⟩, ⟨.integer, some "5", .childValue 0⟩,
          ⟨.date, none, .childValue 1⟩, ⟨.newId, some "7", .childName 2⟩]) := by
    rw [hs]
    decide +kernel
  obtain ⟨hkeywords, hexecuted⟩ := answers_keywords r e
    "write p.Newid = LastName: Text = Integer 5, b = Date, newid 7 = 'x'"
  obtain ⟨hsitesIn, hstate, hanswered, _⟩ := hkeywords hok hsites
  have haccepted : resolved.1.isError = false := by
    have happly : resolved = _ := Statement.SitesIn.apply_eq (s := s) hsitesIn hok hsites r _ _
    rw [happly, hanswers, hs]
    decide +kernel
  have hresolved : e.executed? r s = some resolved.1 :=
    executed?_eq_some_iff.mpr ⟨by rw [hs]; rfl, rfl, haccepted⟩
  have hnames := hexecuted e
  rw [hresolved] at hnames
  rw [hanswers] at hstate hanswered
  exact ⟨hok, by rw [hs]; rfl, hstate, hanswered, hresolved, hnames.1⟩

end Engine

end TreeDatabase
