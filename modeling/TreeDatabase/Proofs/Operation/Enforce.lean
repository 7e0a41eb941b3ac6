import TreeDatabase.Proofs.Ruleset.Persisted
import TreeDatabase.Proofs.Ruleset.Subtree

/-!
# Definitions of rules

A definition that is not refused writes the rules that it gives into one ruleset and completes it
with defaults. It touches nothing outside this ruleset and is never interrupted.
-/

namespace TreeDatabase

open Store

namespace Statement

variable {s : Statement}

/-! ## The path of a definition -/

theorem behindRoot_of_count {above below : List String}
    (hparents : s.parents = above ++ Vocabulary.ruleSubtree :: below)
    (hbegins : s.beginsAtRules = true) (hcount : s.parents.count Vocabulary.ruleSubtree ≤ 1) :
    behindRoot s.parents = Vocabulary.ruleSubtree :: below := by
  have habove : Vocabulary.ruleSubtree ∉ above := by
    rw [hparents, List.count_append, List.count_cons_self] at hcount
    rw [← List.count_eq_zero]
    omega
  rw [beginsAtRules, hparents] at hbegins
  rw [hparents]
  rcases above with _ | ⟨first, _ | ⟨second, rest⟩⟩
  · rfl
  · rw [List.mem_singleton] at habove
    have hroot : first = Vocabulary.root := by simpa [Ne.symm habove] using hbegins
    rw [hroot]
    rfl
  · simp only [List.mem_cons, not_or] at habove
    simp [Ne.symm habove.1, Ne.symm habove.2.1] at hbegins

/-- Where a definition is written: a ruleset below the rule node, or a rule below its ruleset. -/
inductive Defining (s : Statement) (ruleset : String) : Prop
  | ruleset (path : behindRoot s.parents = [Vocabulary.ruleSubtree])
      (name : s.selectedName = ruleset) (value : s.selectedValue.getD "" = "")
  | rule (path : behindRoot s.parents = [Vocabulary.ruleSubtree, ruleset])
      (name : Vocabulary.isRuleName s.selectedName = true) (children : s.children = [])

theorem ne_kind_of_not_bad {name : String} (h : isBadRulesetName name = false)
    (kind : RuleKind) : name ≠ kind.name := by
  rintro rfl
  revert h
  cases kind <;> decide

theorem isRuleName_of_not_bad {name : String} (h : isBadRulesetName name = false) :
    Vocabulary.isRuleName name = false := by
  rw [← Bool.not_eq_true]
  intro hrule
  obtain ⟨kind, hkind⟩ := Vocabulary.exists_kind_of_isRuleName hrule
  exact ne_kind_of_not_bad h kind hkind.symm

namespace Admitted

/-- What a definition that was admitted looks like. -/
theorem defining (ha : s.Admitted) (hverb : s.verb = .enforce) :
    ∃ ruleset, Ruleset.target? s = some ruleset ∧ isBadRulesetName ruleset = false ∧
      isNodeName ruleset = true ∧ Text.OneLine ruleset ∧ s.Defining ruleset ∧
      ∀ child ∈ s.children, Vocabulary.isRuleName child.1 = true := by
  have hbegins := (ha.beginsAtRules (.inr hverb)).mpr hverb
  have hne : s.parents ≠ [] := by
    intro hnil
    rw [Statement.beginsAtRules, hnil] at hbegins
    cases hbegins
  have hfaults := ha.verbFaults
  rw [Statement.verbFaults, hverb] at hfaults
  simp only [enforceFaults, hne, ↓reduceIte, List.append_eq_nil_iff, List.map_eq_nil_iff,
    faultIf_eq_nil] at hfaults
  obtain ⟨⟨hpath, hchildren⟩, hunknown⟩ := hfaults
  have hrules : ∀ child ∈ s.children, Vocabulary.isRuleName child.1 = true := by
    intro child hchild
    rw [List.filter_eq_nil_iff] at hunknown
    simpa using hunknown child.1 (List.mem_map_of_mem hchild)
  have hcount : s.parents.count Vocabulary.ruleSubtree ≤ 1 := by
    have := ha.count_rules
    rw [hierarchy, List.count_append] at this
    omega
  have hlast := List.dropLast_concat_getLast hne
  generalize s.parents.dropLast = before at hlast
  generalize s.parents.getLast hne = last at hlast
  rw [← hlast, List.reverse_append, List.reverse_singleton, List.singleton_append,
    rulePathFaults] at hpath
  have htarget : Ruleset.target? s = if last = Vocabulary.ruleSubtree then some s.selectedName
      else if Vocabulary.isRuleName s.selectedName then some last else none := by
    rw [Ruleset.target?, ← hlast, List.getLast?_concat, Option.bind_some]
  split at hpath
  · next hl =>
    rw [List.append_eq_nil_iff, faultIf_eq_nil, faultIf_eq_nil] at hpath
    refine ⟨s.selectedName, by rw [htarget, if_pos hl], hpath.1, ha.isNodeName_selectedName,
      ha.oneLine.selectedName, .ruleset ?_ rfl (by simpa using hpath.2), hrules⟩
    exact behindRoot_of_count (by rw [← hlast, hl]) hbegins hcount
  · next hl =>
    rw [List.append_eq_nil_iff, faultIf_eq_nil, faultIf_eq_nil, Bool.or_eq_false_iff] at hpath
    obtain ⟨hname, hhead, hbad⟩ := hpath
    have hrule : Vocabulary.isRuleName s.selectedName = true := by simpa using hname
    obtain ⟨above, habove⟩ : ∃ above, before = above ++ [Vocabulary.ruleSubtree] := by
      rw [List.head?_reverse, bne_eq_false_iff_eq] at hhead
      exact List.getLast?_eq_some_iff.mp hhead
    have hmem : last ∈ s.parents := by
      rw [← hlast]
      simp
    refine ⟨last, by rw [htarget, if_neg hl, if_pos hrule], hbad, ha.isNodeName_parent last hmem,
      ha.oneLine.parents last hmem, .rule ?_ hrule ?_, hrules⟩
    · have hparents : s.parents = above ++ Vocabulary.ruleSubtree :: [last] := by
        rw [← hlast, habove, List.append_assoc]
        rfl
      exact behindRoot_of_count hparents hbegins hcount
    · rw [hrule, Bool.true_and] at hchildren
      simpa using hchildren

end Admitted

end Statement

/-! ## Completing a ruleset -/

namespace Store

variable {s : Store}

theorem name_kind_inj {kind kind' : RuleKind} (h : kind.name = kind'.name) : kind = kind' := by
  have := RuleKind.ofName?_name kind
  rw [h, RuleKind.ofName?_name, Option.some_inj] at this
  exact this.symm

/-- Rules of the given kinds that were missing got their defaults, and the others kept their
values. -/
structure Completed (s : Store) (ruleset : NodeId) (kinds : List RuleKind) (t : Store)
    (count : Nat) (ws : List NodeWrite) : Prop where
  writes : s.Writes ws t
  places : ∀ w ∈ ws, w.parent = ruleset ∧ ∃ kind : RuleKind, w.name = kind.name ∧
    ∀ v, w.value = some v → v = kind.default
  values : ∀ kind, t.valueOf? ruleset kind.name =
    if kind ∈ kinds then some ((s.valueOf? ruleset kind.name).getD kind.default)
    else s.valueOf? ruleset kind.name
  unchanged : count = 0 → t = s

theorem Coherent.addDefaults_completed (h : Coherent s) {ruleset : NodeId} {n : Node}
    (hn : s.get? ruleset = some n) (kinds : List RuleKind) :
    ∃ t count ws, s.addDefaults ruleset kinds = .ok (t, count) ∧
      s.Completed ruleset kinds t count ws := by
  induction kinds generalizing s n with
  | nil => exact ⟨s, 0, [], rfl, .refl, by simp, by simp, fun _ => rfl⟩
  | cons kind kinds ih =>
    obtain ⟨t, id, created, hok, ht, hwrote, hcreated, hsame⟩ :=
      h.insertOrGetChild_wrote hn (isNodeName_kind kind) kind.default
    let w : NodeWrite := ⟨ruleset, kind.name, if created then some kind.default else none, id⟩
    have hw : s.Writes [w] t := .single h hwrote ht
    obtain ⟨m, hm, _⟩ := hw.kept hn
    obtain ⟨u, count, ws, hrest, hws, hplaces, hvalues, hcount⟩ := ih ht hm
    have hfirst : t.valueOf? ruleset kind.name =
        some ((s.valueOf? ruleset kind.name).getD kind.default) := by
      rw [hwrote.valueOf? h ht, if_pos ⟨rfl, rfl⟩]
      cases created with
      | true => rw [(valueOf?_eq_none_iff h).mpr (hcreated.mp rfl)]; rfl
      | false =>
        cases hv : s.valueOf? ruleset kind.name with
        | none => exact absurd (hcreated.mpr ((valueOf?_eq_none_iff h).mp hv)) (by simp)
        | some v => rfl
    have hother : ∀ other, other ≠ kind →
        t.valueOf? ruleset other.name = s.valueOf? ruleset other.name := by
      intro other hne
      rw [hwrote.valueOf? h ht, if_neg fun heq => hne (name_kind_inj heq.2).symm]
    refine ⟨u, (if created then 1 else 0) + count, w :: ws, ?_, hw.trans hws, ?_, ?_, ?_⟩
    · simp only [Store.addDefaults, hok, bind, Except.bind, hrest, pure, Except.pure]
    · intro w' hw'
      rcases List.mem_cons.mp hw' with rfl | hw'
      · refine ⟨rfl, kind, rfl, fun v hv => ?_⟩
        cases created with
        | true => exact (Option.some_inj.mp hv).symm
        | false => cases hv
      · exact hplaces w' hw'
    · intro other
      rw [hvalues]
      by_cases he : other = kind
      · subst he
        rw [hfirst, if_pos List.mem_cons_self]
        split <;> rfl
      · simp only [hother other he, List.mem_cons, he, false_or]
    · intro hzero
      cases created with
      | true => simp at hzero
      | false =>
        rw [hcount (by simpa using hzero), hsame rfl]

end Store

namespace Statement

variable {s : Statement}

/-! ## Writing the rules that are given -/

/-- A write stands where the definition of a ruleset may write. -/
inductive InRuleset (t : Store) (ruleset : String) (w : NodeWrite) : Prop
  | rules (parent : w.parent = root) (name : w.name = Vocabulary.ruleSubtree)
  | ruleset (parent : t.child? root Vocabulary.ruleSubtree = some w.parent)
      (name : w.name = ruleset)
  | rule (parent : t.ruleset? ruleset = some w.parent)
      (name : Vocabulary.isRuleName w.name = true)

theorem InRuleset.kept {t u : Store} {ruleset : String} {w : NodeWrite} {ws : List NodeWrite}
    (hw : InRuleset t ruleset w) (h : t.Coherent) (hws : t.Writes ws u) :
    InRuleset u ruleset w := by
  cases hw with
  | rules parent name => exact .rules parent name
  | ruleset parent name => exact .ruleset (hws.child?_kept h parent) name
  | rule parent name => exact .rule (hws.ruleset?_kept h parent) name

theorem foldl_assign_of_not_mem {name : String} {children : List (String × String)}
    (h : name ∉ children.map Prod.fst) (id : NodeId) (v : Option String) :
    (children.map fun c => (id, c.1, givenValue c)).foldl (valueAfter id name) v = v := by
  induction children with
  | nil => rfl
  | cons child children ih =>
    rw [List.map_cons, List.mem_cons, not_or] at h
    rw [List.map_cons, List.foldl_cons, valueAfter, if_neg fun heq => h.1 heq.2.symm]
    exact ih h.2

/-- Of assignments to different names, the one to a name gives the value. -/
theorem foldl_assign {name : String} {children : List (String × String)}
    (h : (children.map Prod.fst).count name ≤ 1) (id : NodeId) (v : Option String) :
    ((children.filter (·.2 ≠ "")).map fun c => (id, c.1, givenValue c)).foldl
      (valueAfter id name) v = ((children.lookup name).filter (· ≠ "")).or v := by
  induction children with
  | nil => rfl
  | cons child children ih =>
    rw [List.map_cons, List.count_cons] at h
    by_cases hname : child.1 = name
    · have hrest : name ∉ (children.filter (·.2 ≠ "")).map Prod.fst := by
        intro hmem
        obtain ⟨c, hc, rfl⟩ := List.mem_map.mp hmem
        have hin : c.1 ∈ children.map Prod.fst := List.mem_map_of_mem (List.mem_filter.mp hc).1
        have := List.count_pos_iff.mpr hin
        simp only [hname, beq_self_eq_true, ↓reduceIte] at h
        omega
      have hlookup : (child :: children).lookup name = some child.2 := by
        rw [List.lookup_cons, ← hname, beq_self_eq_true]
      rw [hlookup]
      by_cases hblank : child.2 = ""
      · rw [List.filter_cons_of_neg (by simp [hblank]), foldl_assign_of_not_mem hrest]
        simp [hblank, Option.filter]
      · rw [List.filter_cons_of_pos (by simp [hblank]), List.map_cons, List.foldl_cons, valueAfter,
          if_pos ⟨rfl, hname⟩, foldl_assign_of_not_mem hrest, givenValue, if_neg hblank]
        simp [hblank, Option.filter]
    · have hlookup : (child :: children).lookup name = children.lookup name := by
        rw [List.lookup_cons, beq_false_of_ne (Ne.symm hname)]
      rw [hlookup, ← ih (by omega), List.filter_cons]
      split
      · rw [List.map_cons, List.foldl_cons, valueAfter, if_neg fun heq => hname heq.2]
      · rfl

/-- The value that a definition leaves to a rule, from the one it has before. -/
def ruleValue (s : Statement) (kind : RuleKind) (value : Option String) : String :=
  (Ruleset.assigned? s kind).getD (value.getD kind.default)

/-- What is known when the rules of a definition are written. -/
structure Definable (s : Statement) (ruleset : String) (store : Store) : Prop where
  admitted : s.Admitted
  bad : isBadRulesetName ruleset = false
  name : isNodeName ruleset = true
  line : Text.OneLine ruleset
  defining : s.Defining ruleset
  children : ∀ child ∈ s.children, Vocabulary.isRuleName child.1 = true
  /-- A rule is defined on its own only in a ruleset that is there. -/
  exists_ruleset : Vocabulary.isRuleName s.selectedName = true →
    ∃ id, store.ruleset? ruleset = some id
  /-- A rule that is given no value on its own is one whose default is blank. -/
  default : ∀ kind : RuleKind, s.selectedName = kind.name → s.selectedValue = none →
    kind.default = ""

/-- Part of a definition has been written, into the ruleset of a name. -/
structure Defined (s : Statement) (ruleset : String) (p q : Progress) (id : NodeId)
    (ws : List NodeWrite) : Prop where
  progresses : Progresses p q ws
  found : q.store.ruleset? ruleset = some id
  places : ∀ w ∈ ws, InRuleset q.store ruleset w
  lines : ∀ w ∈ ws, ∀ v, w.value = some v → Text.OneLine v
  /-- Only rules are given values. -/
  blanks : ∀ w ∈ ws, Vocabulary.isRuleName w.name = false → w.value.getD "" = ""
  values : ∀ kind : RuleKind, (q.store.valueOf? id kind.name).getD kind.default =
    s.ruleValue kind (p.store.valueOf? id kind.name)

namespace Definable

variable {ruleset : String} {store : Store}

theorem path_names (hd : s.Definable ruleset store) :
    Vocabulary.wildcard ∉ s.parents ∧ Vocabulary.root ∉ behindRoot s.parents ∧
      s.selectedName ≠ Vocabulary.wildcard := by
  have hkeyword : Vocabulary.isKeyword ruleset = false := by
    have := hd.bad
    rw [isBadRulesetName, Bool.or_eq_false_iff] at this
    exact this.2
  have hwild : ruleset ≠ Vocabulary.wildcard := by
    rintro rfl
    revert hkeyword
    decide
  have hroot : ruleset ≠ Vocabulary.root := by
    rintro rfl
    revert hkeyword
    decide
  have hparents : Vocabulary.wildcard ∉ behindRoot s.parents →
      Vocabulary.wildcard ∉ s.parents :=
    fun hnot hmem => hnot (mem_behindRoot hmem (by decide))
  cases hd.defining with
  | ruleset path name _ =>
    rw [path] at hparents ⊢
    exact ⟨hparents (by decide), by decide, name ▸ hwild⟩
  | rule path name _ =>
    rw [path] at hparents ⊢
    refine ⟨hparents ?_, ?_, ?_⟩
    · simp only [List.mem_cons, List.not_mem_nil, or_false, not_or]
      exact ⟨by decide, hwild.symm⟩
    · simp only [List.mem_cons, List.not_mem_nil, or_false, not_or]
      exact ⟨by decide, hroot.symm⟩
    · intro he
      rw [he] at name
      revert name
      decide

/-- The node of a ruleset is written without a value. -/
theorem selectedValue_eq_blank (hd : s.Definable ruleset store) (hname : s.selectedName = ruleset) :
    s.selectedValue.getD "" = "" := by
  cases hd.defining with
  | ruleset _ _ value => exact value
  | rule _ name _ =>
    rw [hname, isRuleName_of_not_bad hd.bad] at name
    cases name

/-- A definition of a whole ruleset assigns the values of its children that are not blank. -/
theorem assigned?_eq (hd : s.Definable ruleset store) (hname : s.selectedName = ruleset)
    (kind : RuleKind) :
    Ruleset.assigned? s kind = (s.children.lookup kind.name).filter (· ≠ "") := by
  have hkind : s.selectedName ≠ kind.name := by
    rw [hname]
    exact ne_kind_of_not_bad hd.bad kind
  rw [Ruleset.assigned?, if_neg hkind]
  rfl

theorem write_ruleset (hd : s.Definable ruleset store) (h : store.Coherent) {rules : NodeId}
    (hrules : store.child? root Vocabulary.ruleSubtree = some rules)
    (hname : s.selectedName = ruleset) {p : Progress} (hp : p.store = store) : ∃ q id ws,
      s.withoutBlankChildren.writeTarget rules p s.selectedName = .ok q ∧
      s.Defined ruleset p q id ws := by
  subst hp
  obtain ⟨above, n, _, _, hn, _⟩ := h.child?_iff.mp hrules
  obtain ⟨q, id, ws, hq, hprogress, hrequests⟩ := writeTarget_spec (s := s.withoutBlankChildren)
    (fun child hchild => hd.admitted.isNodeName_child child (List.mem_filter.mp hchild).1)
    h hn hd.admitted.isNodeName_selectedName
  have hcoherent := hprogress.writes.coherent h
  have hrules' := hprogress.writes.child?_kept h hrules
  have hid : q.store.child? rules s.selectedName = some id :=
    hprogress.writes.child?_of_mem List.mem_cons_self
  have hruleset : q.store.ruleset? ruleset = some id := by
    rw [ruleset?, hrules', Option.bind_some, ← hname, hid]
  have hne : rules ≠ id := by
    obtain ⟨m, _, hm, hmem, _⟩ := hcoherent.child?_iff.mp hid
    rintro rfl
    exact hcoherent.not_below_child hm hmem .self
  have hws : ∀ w ∈ ws, ∃ child ∈ s.children, child.2 ≠ "" ∧
      w.request = (id, child.1, givenValue child) := by
    intro w hw
    have hmem : w.request ∈ ws.map (·.request) := List.mem_map_of_mem hw
    rw [hrequests] at hmem
    obtain ⟨child, hchild, heq⟩ := List.mem_map.mp hmem
    obtain ⟨hchild, hne⟩ := List.mem_filter.mp hchild
    exact ⟨child, hchild, by simpa using hne, heq.symm⟩
  refine ⟨q, id, _, hq, hprogress, hruleset, ?_, ?_, ?_, ?_⟩
  · intro w hw
    rcases List.mem_cons.mp hw with rfl | hw
    · exact .ruleset hrules' hname
    · obtain ⟨child, hchild, _, hrequest⟩ := hws w hw
      rw [NodeWrite.request, Prod.mk.injEq, Prod.mk.injEq] at hrequest
      exact .rule (hrequest.1 ▸ hruleset) (hrequest.2.1 ▸ hd.children child hchild)
  · intro w hw v hv
    rcases List.mem_cons.mp hw with rfl | hw
    · exact hd.admitted.oneLine.selectedValue v hv
    · obtain ⟨child, hchild, hblank, hrequest⟩ := hws w hw
      rw [NodeWrite.request, hv, givenValue, if_neg hblank] at hrequest
      simp only [Prod.mk.injEq, Option.some_inj] at hrequest
      exact hrequest.2.2 ▸ (hd.admitted.oneLine.children child hchild).2
  · intro w hw hrule
    rcases List.mem_cons.mp hw with rfl | hw
    · exact hd.selectedValue_eq_blank hname
    · obtain ⟨child, hchild, _, hrequest⟩ := hws w hw
      have hchildName : w.name = child.1 := congrArg (fun request => request.2.1) hrequest
      rw [hchildName, hd.children child hchild] at hrule
      cases hrule
  · intro kind
    have hfold : q.store.valueOf? id kind.name =
        ((s.children.lookup kind.name).filter (· ≠ "")).or (p.store.valueOf? id kind.name) := by
      rw [hprogress.writes.valueOf?, List.map_cons, List.foldl_cons, hrequests, valueAfter,
        if_neg fun heq => hne heq.1]
      exact foldl_assign (hd.admitted.count_kind kind) id _
    rw [hfold, ruleValue, hd.assigned?_eq hname]
    cases (s.children.lookup kind.name).filter (· ≠ "") <;> rfl

theorem write_rule (hd : s.Definable ruleset store) (h : store.Coherent) {id : NodeId}
    (hid : store.ruleset? ruleset = some id)
    (hname : Vocabulary.isRuleName s.selectedName = true) (hchildren : s.children = [])
    {p : Progress} (hp : p.store = store) : ∃ q ws,
      s.withoutBlankChildren.writeTarget id p s.selectedName = .ok q ∧
      s.Defined ruleset p q id ws := by
  subst hp
  obtain ⟨_, _, hchild⟩ := Option.bind_eq_some_iff.mp hid
  obtain ⟨n, hn, _⟩ := h.child?_iff_parent.mp hchild
  obtain ⟨q, _, ws, hq, hprogress, hrequests⟩ := writeTarget_spec (s := s.withoutBlankChildren)
    (fun child hchild => hd.admitted.isNodeName_child child (List.mem_filter.mp hchild).1)
    h hn hd.admitted.isNodeName_selectedName
  have hws : ws = [] := by
    rw [withoutBlankChildren, hchildren] at hrequests
    exact List.map_eq_nil_iff.mp hrequests
  subst hws
  have hid' := hprogress.writes.ruleset?_kept h hid
  refine ⟨q, _, hq, hprogress, hid', ?_, ?_, ?_, ?_⟩
  · intro w hw
    rw [List.mem_singleton.mp hw]
    exact .rule hid' hname
  · intro w hw v hv
    rw [List.mem_singleton.mp hw] at hv
    exact hd.admitted.oneLine.selectedValue v hv
  · intro w hw hrule
    rw [List.mem_singleton.mp hw] at hrule
    exact absurd hname (by simp [hrule])
  · intro kind
    have hassigned : Ruleset.assigned? s kind =
        if s.selectedName = kind.name then s.selectedValue else none := by
      rw [Ruleset.assigned?, childValue?, hchildren]
      split
      · next hv => exact hv.symm
      · next hv => exact hv.symm
    have hvalue : q.store.valueOf? id kind.name =
        if s.selectedName = kind.name
        then some (s.selectedValue.getD ((p.store.valueOf? id kind.name).getD ""))
        else p.store.valueOf? id kind.name := by
      rw [hprogress.writes.valueOf?]
      simp [NodeWrite.request, valueAfter, withoutBlankChildren]
    rw [hvalue, ruleValue, hassigned]
    split
    · next heq =>
      cases hv : s.selectedValue with
      | some v => rfl
      | none => rw [hd.default kind heq hv]; rfl
    · rfl

/-- Writing the rules of a definition below the parents that its path finds. -/
theorem write_given (hd : s.Definable ruleset store) (h : store.Coherent) {rules : NodeId}
    (hrules : store.child? root Vocabulary.ruleSubtree = some rules) {p : Progress}
    (hp : p.store = store) : ∃ q id ws,
      ((store.resolvePath s.parents true).map Prod.snd).foldlM
        s.withoutBlankChildren.writeBelow p = .ok q ∧
      s.Defined ruleset p q id ws := by
  obtain ⟨hwild, hroot, hselected⟩ := hd.path_names
  have hbelow : ∀ parent, s.withoutBlankChildren.writeBelow p parent =
      s.withoutBlankChildren.writeTarget parent p s.selectedName := by
    intro parent
    rw [writeBelow, writtenNames, if_neg (by exact hselected)]
    exact bind_pure _
  cases hd.defining with
  | ruleset path name _ =>
    obtain ⟨q, id, ws, hq, hdefined⟩ := hd.write_ruleset h hrules name hp
    refine ⟨q, id, ws, ?_, hdefined⟩
    rw [h.resolvePath_of_leads hwild hroot (path ▸ h.leads_singleton_iff.mpr hrules),
      List.foldlM_cons, hbelow, hq]
    rfl
  | rule path name children =>
    obtain ⟨id, hid⟩ := hd.exists_ruleset name
    obtain ⟨q, ws, hq, hdefined⟩ := hd.write_rule h hid name children hp
    refine ⟨q, id, ws, ?_, hdefined⟩
    rw [h.resolvePath_of_leads hwild hroot (path ▸ h.leads_ruleset_iff.mpr hid), List.foldlM_cons,
      hbelow, hq]
    rfl

end Definable

end Statement

/-! ## The check of a definition -/

namespace Ruleset

open Statement

variable {s : Statement} {store : Store} {ruleset : String}

theorem eq_nil_of_eraseDups {α : Type} [BEq α] {l : List α} (h : l.eraseDups = []) : l = [] := by
  cases l with
  | nil => rfl
  | cons a l =>
    rw [List.eraseDups_cons] at h
    cases h

/-- What the check of a definition makes sure of. -/
structure Checked (store : Store) (ruleset : String) (s : Statement) : Prop where
  rulesetExists : Vocabulary.isRuleName s.selectedName = true →
    store.rulesetExists ruleset = true
  definitions : ∀ d ∈ definitions store ruleset s, definitionViolation? d.1 d.2
    (orDefault .type (effective store .type ruleset s)) (effective store .max ruleset s)
    (effective store .min ruleset s) = none
  governed : ∀ t, ValueType.ofName? (orDefault .type (effective store .type ruleset s)) = some t →
    governedViolations store ruleset s t = []

theorem checked_of_enforceViolations (htarget : target? s = some ruleset)
    (h : enforceViolations store s = []) : Checked store ruleset s := by
  rw [enforceViolations, htarget] at h
  dsimp only at h
  split at h
  · cases h
  · next hexists =>
    split at h
    · next hwrong =>
      exact absurd h hwrong
    · next hwrong =>
      refine ⟨?_, ?_, ?_⟩
      · intro hrule
        rw [hrule] at hexists
        simpa using hexists
      · have hnone := eq_nil_of_eraseDups (not_not.mp hwrong)
        rw [List.filterMap_eq_nil_iff] at hnone
        exact hnone
      · intro t ht
        rw [ht] at h
        exact h

theorem mem_definitions_of_selected {kind : RuleKind} (hname : s.selectedName = kind.name) :
    (kind, s.selectedValue.getD "") ∈ definitions store ruleset s := by
  rw [definitions, hname, RuleKind.ofName?_name]
  dsimp only
  split
  · exact List.mem_append_left _ (List.mem_singleton_self _)
  · exact List.mem_singleton_self _

theorem Checked.default (hc : Checked store ruleset s) {kind : RuleKind}
    (hname : s.selectedName = kind.name) (hvalue : s.selectedValue = none) :
    kind.default = "" := by
  have hnone := hc.definitions _ (mem_definitions_of_selected hname)
  rw [hvalue] at hnone
  cases kind with
  | max => rfl
  | min => rfl
  | type => exact absurd hnone (by simp [definitionViolation?]; decide)
  | required => simp [definitionViolation?] at hnone
  | key => simp [definitionViolation?] at hnone
  | unique => simp [definitionViolation?] at hnone

end Ruleset

namespace Statement

open Ruleset

variable {s : Statement}

/-! ## The whole definition -/

/-- What a definition does that is not refused. -/
structure Enforced (s : Statement) (ruleset : String) (store t : Store) (ws : List NodeWrite) :
    Prop where
  checked : Checked store ruleset s
  defining : s.Defining ruleset
  bad : isBadRulesetName ruleset = false
  name : isNodeName ruleset = true
  line : Text.OneLine ruleset
  writes : store.Writes ws t
  places : ∀ w ∈ ws, InRuleset t ruleset w
  lines : ∀ w ∈ ws, ∀ v, w.value = some v → Text.OneLine v
  blanks : ∀ w ∈ ws, Vocabulary.isRuleName w.name = false → w.value.getD "" = ""
  values : ∀ kind, persisted? t ruleset kind =
    some (s.ruleValue kind (persisted? store ruleset kind))

theorem Defined.enforced {store store₁ t : Store} {ruleset : String} {id rules : NodeId}
    {value : Option String} {ws defaults : List NodeWrite} {q : Progress} {count : Nat}
    (h : store.Coherent) (hchecked : Checked store ruleset s)
    (hd : s.Definable ruleset store₁)
    (hw : store.Writes [⟨root, Vocabulary.ruleSubtree, value, rules⟩] store₁)
    (hvalue : value.getD "" = "") (hdefined : s.Defined ruleset { store := store₁ } q id ws)
    (hcompleted : q.store.Completed id RuleKind.all t count defaults) :
    s.Enforced ruleset store t
      ([⟨root, Vocabulary.ruleSubtree, value, rules⟩] ++ ws ++ defaults) := by
  have h₁ := hw.coherent h
  have h₂ := hdefined.progresses.writes.coherent h₁
  have hall := (hw.trans hdefined.progresses.writes).trans hcompleted.writes
  have hid := hcompleted.writes.ruleset?_kept h₂ hdefined.found
  refine ⟨hchecked, hd.defining, hd.bad, hd.name, hd.line, hall, ?_, ?_, ?_, ?_⟩
  · intro w hw'
    rcases List.mem_append.mp hw' with hw' | hw'
    · rcases List.mem_append.mp hw' with hw' | hw'
      · rw [List.mem_singleton.mp hw']
        exact .rules rfl rfl
      · exact (hdefined.places w hw').kept h₂ hcompleted.writes
    · obtain ⟨hparent, kind, hkind, _⟩ := hcompleted.places w hw'
      exact .rule (hparent ▸ hid)
        (by rw [hkind, Vocabulary.isRuleName, RuleKind.ofName?_name]; rfl)
  · intro w hw' v hv
    rcases List.mem_append.mp hw' with hw' | hw'
    · rcases List.mem_append.mp hw' with hw' | hw'
      · rw [List.mem_singleton.mp hw'] at hv
        have hv' : value = some v := hv
        have hblank : v = "" := by rwa [hv', Option.getD_some] at hvalue
        exact hblank ▸ Text.oneLine_blank
      · exact hdefined.lines w hw' v hv
    · obtain ⟨_, kind, _, hdefault⟩ := hcompleted.places w hw'
      rw [hdefault v hv]
      cases kind <;> decide
  · intro w hw' hrule
    rcases List.mem_append.mp hw' with hw' | hw'
    · rcases List.mem_append.mp hw' with hw' | hw'
      · rw [List.mem_singleton.mp hw']
        exact hvalue
      · exact hdefined.blanks w hw' hrule
    · obtain ⟨_, kind, hkind, _⟩ := hcompleted.places w hw'
      rw [hkind, Vocabulary.isRuleName, RuleKind.ofName?_name] at hrule
      cases hrule
  · intro kind
    have hroot : root ≠ id := by
      obtain ⟨_, _, hchild⟩ := Option.bind_eq_some_iff.mp hdefined.found
      obtain ⟨m, _, hm, hmem, _⟩ := h₂.child?_iff.mp hchild
      exact (h₂.tree.ne_root_of_mem_children hm hmem).symm
    have hstart : store₁.valueOf? id kind.name = store.valueOf? id kind.name := by
      refine hw.valueOf?_of_not_mem fun w hw' hparent => ?_
      rw [List.mem_singleton.mp hw'] at hparent
      exact absurd hparent hroot
    rw [persisted?_eq (hall.coherent h) hd.name, hid, Option.bind_some, hcompleted.values,
      if_pos (RuleKind.mem_all kind), hdefined.values, persisted?_of_writes h hall hd.name hid]
    exact congrArg (fun v => some (s.ruleValue kind v)) hstart

/-- A definition that has changed nothing found the rule node. -/
theorem Defined.rules_exist {store store₁ : Store} {ruleset : String} {id rules : NodeId}
    {value : Option String} {ws : List NodeWrite} {q : Progress} (h : store.Coherent)
    (hwrote : store.Wrote root Vocabulary.ruleSubtree value store₁ rules) (h₁ : store₁.Coherent)
    (hdefined : s.Defined ruleset { store := store₁ } q id ws) (hsame : q.store = store₁) :
    store.child? root Vocabulary.ruleSubtree ≠ none := by
  intro hnone
  obtain ⟨m, hm, hname, hpar, _, hnew⟩ := hwrote.written h
  have hchild := hwrote.child?_eq h
  rw [hnone] at hchild
  have hfresh : store.get? rules = none := by
    cases hn : store.get? rules with
    | none => rfl
    | some n =>
      rw [hn] at hchild
      cases hchild
  have hfound := hdefined.found
  rw [hsame, ruleset?, h₁.child?_iff_parent.mpr ⟨m, hm, hpar, hname⟩, Option.bind_some,
    h₁.child?_iff] at hfound
  obtain ⟨m', _, hm', hmem, _⟩ := hfound
  rw [hm] at hm'
  cases hm'
  rw [(hnew hfresh).2] at hmem
  cases hmem

/-- The steps of a definition that is not refused: the rule node, the rules that are given, and the
defaults of the others. -/
structure Steps (s : Statement) (store : Store) where
  ruleset : String
  target : target? s = some ruleset
  checked : Checked store ruleset s
  begun : Store
  rules : NodeId
  ensured : store.ensureRuleSubtree = .ok (begun, rules)
  definable : s.Definable ruleset begun
  given : Progress
  writes : ((begun.resolvePath s.parents true).map Prod.snd).foldlM
    s.withoutBlankChildren.writeBelow { store := begun } = .ok given
  id : NodeId
  ws : List NodeWrite
  defined : s.Defined ruleset { store := begun } given id ws
  completed : Store
  count : Nat
  defaults : List NodeWrite
  completes : given.store.Completed id RuleKind.all completed count defaults
  ends : given.store.ensureDefaultRuleset ruleset = .ok (completed, count)

/-- A definition that would break nothing goes through all its steps. -/
theorem Admitted.nonempty_steps (ha : s.Admitted) (hverb : s.verb = .enforce) {store : Store}
    (h : store.Coherent) (hnone : enforceViolations store s = []) : Nonempty (s.Steps store) := by
  obtain ⟨ruleset, htarget, hbad, hname, hline, hdefining, hchildren⟩ := ha.defining hverb
  have hchecked := checked_of_enforceViolations htarget hnone
  obtain ⟨r, hr, _⟩ := h.tree.root
  obtain ⟨begun, rules, created, hok, h₁, hwrote, _⟩ :=
    h.insertOrGetChild_wrote hr isNodeName_ruleSubtree ""
  let w : NodeWrite :=
    ⟨root, Vocabulary.ruleSubtree, if created then some "" else none, rules⟩
  have hw : store.Writes [w] begun := .single h hwrote h₁
  have hd : s.Definable ruleset begun := by
    refine ⟨ha, hbad, hname, hline, hdefining, hchildren, ?_,
      fun kind hk hv => hchecked.default hk hv⟩
    intro hrule
    have hexists := hchecked.rulesetExists hrule
    rw [rulesetExists, h.lookup_ruleset hname, Option.isSome_iff_exists] at hexists
    obtain ⟨id, hid⟩ := hexists
    exact ⟨id, hw.ruleset?_kept h hid⟩
  obtain ⟨given, id, ws, hgiven, hdefined⟩ := hd.write_given h₁
    (hw.child?_of_mem (List.mem_singleton_self w)) (p := { store := begun }) rfl
  have h₂ := hdefined.progresses.writes.coherent h₁
  obtain ⟨_, _, hchild⟩ := Option.bind_eq_some_iff.mp hdefined.found
  obtain ⟨n, hn, _⟩ := h₂.child?_iff_parent.mp hchild
  obtain ⟨completed, count, defaults, hadd, hcompleted⟩ :=
    h₂.addDefaults_completed hn RuleKind.all
  have hensured : store.ensureRuleSubtree = .ok (begun, rules) := by
    rw [Store.ensureRuleSubtree, hok]
    rfl
  have hends : given.store.ensureDefaultRuleset ruleset = .ok (completed, count) := by
    rw [Store.ensureDefaultRuleset, h₂.lookup_ruleset hname, hdefined.found]
    exact hadd
  exact ⟨⟨ruleset, htarget, hchecked, begun, rules, hensured, hd, given, hgiven, id, ws, hdefined,
    completed, count, defaults, hcompleted, hends⟩⟩

/-- What a definition that is not refused answers. -/
def enforcedResponse (ruleset : String) (p : Progress) (count : Nat) : Response :=
  { verb := .enforce
    count := p.count
    summary := "Rules set for " ++ ruleset ++ "."
    changed := p.changed || count != 0 }

/-- A definition is what its steps lead to. -/
theorem enforce_of_steps {store begun t : Store} {ruleset : String} {rules : NodeId} {p : Progress}
    {count : Nat} (htarget : target? s = some ruleset) (hnone : enforceViolations store s = [])
    (hensured : store.ensureRuleSubtree = .ok (begun, rules))
    (hwrites : ((begun.resolvePath s.parents true).map Prod.snd).foldlM
      s.withoutBlankChildren.writeBelow { store := begun } = .ok p)
    (hends : p.store.ensureDefaultRuleset ruleset = .ok (t, count)) :
    s.enforce store = .ok (t, enforcedResponse ruleset p count) := by
  rw [enforce]
  simp only [hnone, ne_eq, not_true_eq_false, ↓reduceIte, htarget, Option.getD_some, hensured,
    Store.orInterrupt, Except.mapError, bind, Except.bind, hwrites, hends]
  rfl

/-- The rule node was there, or it was written. -/
theorem Steps.begins {store : Store} (steps : s.Steps store) (h : store.Coherent) :
    ∃ created, steps.begun.Coherent ∧ store.Wrote root Vocabulary.ruleSubtree
        (if created then some "" else none) steps.begun steps.rules ∧
      (created = true ↔ store.child? root Vocabulary.ruleSubtree = none) ∧
      (created = false → steps.begun = store) := by
  obtain ⟨r, hr, _⟩ := h.tree.root
  obtain ⟨begun, rules, created, hok, hcoherent, hwrote, hcreated, hunchanged⟩ :=
    h.insertOrGetChild_wrote hr isNodeName_ruleSubtree ""
  have hensured := steps.ensured
  rw [Store.ensureRuleSubtree, hok] at hensured
  obtain ⟨rfl, rfl⟩ := Prod.mk.inj (Except.ok.inj hensured)
  exact ⟨created, hcoherent, hwrote, hcreated, hunchanged⟩

/-- A definition that would break nothing writes the rules that it gives and completes the ruleset.
It is never interrupted. -/
theorem Admitted.enforce_of_checked (ha : s.Admitted) (hverb : s.verb = .enforce) {store : Store}
    (h : store.Coherent) (hnone : enforceViolations store s = []) :
    ∃ t response ruleset ws, s.enforce store = .ok (t, response) ∧ target? s = some ruleset ∧
      s.Enforced ruleset store t ws ∧ response.isError = false ∧
      (response.changed = false → t = store) := by
  obtain ⟨steps⟩ := ha.nonempty_steps hverb h hnone
  obtain ⟨created, hbegun, hwrote, hcreated, hunchanged⟩ := steps.begins h
  have henforced := steps.defined.enforced h steps.checked steps.definable
    (.single h hwrote hbegun) (by cases created <;> rfl) steps.completes
  refine ⟨steps.completed, enforcedResponse steps.ruleset steps.given steps.count, steps.ruleset,
    _, enforce_of_steps steps.target hnone steps.ensured steps.writes steps.ends, steps.target,
    henforced, rfl, fun hfalse => ?_⟩
  obtain ⟨hchanged, hcount⟩ := Bool.or_eq_false_iff.mp hfalse
  have hsame := (steps.defined.progresses.changed hchanged).2
  have hrules := steps.defined.rules_exist h hwrote hbegun hsame
  have hnot : created = false := by
    rw [← Bool.not_eq_true]
    exact fun he => hrules (hcreated.mp he)
  rw [steps.completes.unchanged (by simpa using hcount), hsame]
  exact hunchanged hnot

theorem enforce_of_violations {store : Store} (h : enforceViolations store s ≠ []) :
    s.enforce store = .ok (store, s.refuse (enforceViolations store s)) := by
  rw [enforce, if_pos h]

/-- A definition is refused for what it would break, or is carried out. -/
theorem Admitted.enforce_cases (ha : s.Admitted) (hverb : s.verb = .enforce) {store : Store}
    (h : store.Coherent) :
    (∃ violations, s.enforce store = .ok (store, s.refuse violations)) ∨
    ∃ t response ruleset ws, s.enforce store = .ok (t, response) ∧
      s.Enforced ruleset store t ws ∧ (response.changed = false → t = store) := by
  by_cases hnone : enforceViolations store s = []
  · obtain ⟨t, response, ruleset, ws, hok, _, henforced, _, hchanged⟩ :=
      ha.enforce_of_checked hverb h hnone
    exact .inr ⟨t, response, ruleset, ws, hok, henforced, hchanged⟩
  · exact .inl ⟨_, enforce_of_violations hnone⟩

end Statement

end TreeDatabase
