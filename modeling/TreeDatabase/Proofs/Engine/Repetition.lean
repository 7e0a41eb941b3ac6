import Mathlib.Data.List.Induction
import TreeDatabase.Engine
import TreeDatabase.Proofs.Statement.Repetition

/-!
# Repetitions

A text that asks for repetitions does what the text alone does when it is executed as often, one
execution after the other until one answers an error. Its tallies count the answers.
-/

namespace TreeDatabase

/-! ## Tallies -/

theorem eraseDups_concat {α : Type} [DecidableEq α] (as : List α) (a : α) :
    (as ++ [a]).eraseDups = if a ∈ as then as.eraseDups else as.eraseDups ++ [a] := by
  rw [List.eraseDups_append]
  by_cases h : a ∈ as
  · simp [List.removeAll, h]
  · simp [List.removeAll, h, List.eraseDups_cons]

theorem nodup_eraseDups {α : Type} [DecidableEq α] (as : List α) : as.eraseDups.Nodup := by
  induction as using List.reverseRecOn with
  | nil => exact List.nodup_nil
  | append_singleton as a ih =>
    rw [eraseDups_concat]
    split
    · exact ih
    · next h =>
      have hfresh : ∀ b ∈ as.eraseDups, ∀ c ∈ [a], b ≠ c := by
        intro b hb c hc hbc
        rw [hbc, List.mem_singleton.mp hc, List.mem_eraseDups] at hb
        exact h hb
      exact List.nodup_append.mpr ⟨ih, List.pairwise_singleton _ a, hfresh⟩

namespace Tally

/-- The tallies of responses: the distinct ones in the order in which they came, each with the
number of times it came. -/
def ofResponses (rs : List Response) : List Tally := rs.eraseDups.map fun r => ⟨r, rs.count r⟩

theorem record_of_not_mem {r : Response} {rs : List Response} (times : Response → Nat)
    (h : r ∉ rs) : record r (rs.map fun x => ⟨x, times x⟩) =
      rs.map (fun x => ⟨x, times x⟩) ++ [⟨r, 1⟩] := by
  induction rs with
  | nil => rfl
  | cons x rs ih =>
    rw [List.mem_cons, not_or] at h
    rw [List.map_cons, record, if_neg fun heq => h.1 heq.symm, ih h.2, List.cons_append]

theorem record_of_mem {r : Response} {rs : List Response} (times : Response → Nat)
    (hnodup : rs.Nodup) (h : r ∈ rs) : record r (rs.map fun x => ⟨x, times x⟩) =
      rs.map fun x => ⟨x, times x + if r = x then 1 else 0⟩ := by
  induction rs with
  | nil => cases h
  | cons x rs ih =>
    obtain ⟨hx, hnodup⟩ := List.nodup_cons.mp hnodup
    rw [List.map_cons, List.map_cons, record]
    by_cases heq : r = x
    · subst heq
      have hothers : ∀ y ∈ rs, (if r = y then 1 else 0) = 0 := by
        intro y hy
        rw [if_neg]
        rintro rfl
        exact hx hy
      rw [if_pos rfl, if_pos rfl]
      congr 1
      exact List.map_congr_left fun y hy => by rw [hothers y hy, Nat.add_zero]
    · rw [if_neg (Ne.symm heq), if_neg heq, ih hnodup ((List.mem_cons.mp h).resolve_left heq),
        Nat.add_zero]

/-- To record one more response is to tally all of them. -/
theorem record_ofResponses (r : Response) (rs : List Response) :
    record r (ofResponses rs) = ofResponses (rs ++ [r]) := by
  have hcount : ∀ x, (rs ++ [r]).count x = rs.count x + if r = x then 1 else 0 := by
    intro x
    simp only [List.count_append, List.count_singleton, beq_iff_eq]
  rw [ofResponses, ofResponses, eraseDups_concat]
  simp only [hcount]
  split
  · next h => exact record_of_mem _ (nodup_eraseDups rs) (List.mem_eraseDups.mpr h)
  · next h =>
    have hothers : ∀ x ∈ rs.eraseDups, (if r = x then 1 else 0) = 0 := by
      intro x hx
      rw [if_neg]
      rintro rfl
      exact h (List.mem_eraseDups.mp hx)
    rw [record_of_not_mem _ fun hr => h (List.mem_eraseDups.mp hr), List.map_append, List.map_cons,
      List.map_nil, List.count_eq_zero.mpr h, if_pos rfl]
    congr 1
    exact List.map_congr_left fun x hx => by rw [hothers x hx, Nat.add_zero]

theorem total_record (weight : Response → Nat) (r : Response) (ts : List Tally) :
    Number.total ((record r ts).map fun t => weight t.response * t.times) =
      Number.total (ts.map fun t => weight t.response * t.times) + weight r := by
  induction ts with
  | nil => simp [record, Number.total]
  | cons t ts ih =>
    rw [record]
    split
    · next heq =>
      subst heq
      simp only [List.map_cons, Number.total_cons, Nat.mul_succ]
      omega
    · rw [List.map_cons, Number.total_cons, ih, List.map_cons, Number.total_cons, Nat.add_assoc]

theorem total_ofResponses (weight : Response → Nat) (rs : List Response) :
    Number.total ((ofResponses rs).map fun t => weight t.response * t.times) =
      Number.total (rs.map weight) := by
  induction rs using List.reverseRecOn with
  | nil => rfl
  | append_singleton rs r ih =>
    rw [← record_ofResponses, total_record, ih, List.map_append, Number.total_append]
    rfl

/-- When only the last response may be an error, only the last tally may be one. -/
theorem isError_of_mem_dropLast {rs : List Response}
    (h : ∀ r ∈ rs.dropLast, r.isError = false) {t : Tally} (ht : t ∈ (ofResponses rs).dropLast) :
    t.response.isError = false := by
  rcases List.eq_nil_or_concat rs with rfl | ⟨init, last, rfl⟩
  · cases ht
  · rw [List.concat_eq_append] at h ht
    rw [List.dropLast_concat] at h
    rw [ofResponses, eraseDups_concat, ← List.map_dropLast] at ht
    obtain ⟨r, hr, rfl⟩ := List.mem_map.mp ht
    split at hr
    · exact h r (List.mem_eraseDups.mp (List.dropLast_subset _ hr))
    · rw [List.dropLast_concat] at hr
      exact h r (List.mem_eraseDups.mp hr)

end Tally

/-! ## Statements that differ in their text and their repetitions -/

namespace Statement

variable (s : Statement) (text : String) (n : Nat)

theorem reread_refuse (violations : List Violation) :
    (s.reread text n).refuse violations = s.refuse violations := by
  rw [refuse, refuse, reread_addFaults]
  rfl

/-- What a statement does to a store does not depend on its text and its repetitions. -/
theorem reread_executeOn (store : Store) :
    (s.reread text n).executeOn store = s.executeOn store := by
  have hwrite : (s.reread text n).write store = s.write store := by
    rw [write, write, reread_refuse]
    rfl
  have henforce : (s.reread text n).enforce store = s.enforce store := by
    rw [enforce, enforce, reread_refuse]
    rfl
  have hverb : (s.reread text n).verb = s.verb := rfl
  rw [executeOn, executeOn, hverb, hwrite, henforce]
  cases s.verb <;> rfl

end Statement

namespace Resolver

variable {σ : Type} (r : Resolver σ) (store : Store) (s : Statement) (text : String) (n : Nat)

theorem reread_fill (current : Statement × σ) (site : KeywordSite) :
    r.fill store (current.1.reread text n, current.2) site =
      ((r.fill store current site).1.reread text n, (r.fill store current site).2) := by
  have hset : ∀ (s : Statement) (field : Field) (given : String),
      (s.reread text n).setField field given = (s.setField field given).reread text n := by
    intro s field given
    cases field <;> rfl
  rw [fill, fill]
  dsimp only
  cases r.resolve site.request store current.2 with
  | mk given state =>
    cases given with
    | none => rfl
    | some given => exact Prod.ext (hset current.1 site.field given) rfl

theorem reread_apply (state : σ) : r.apply store (s.reread text n) state =
    ((r.apply store s state).1.reread text n, (r.apply store s state).2) := by
  have hfold : ∀ (sites : List KeywordSite) (current : Statement × σ),
      sites.foldl (r.fill store) (current.1.reread text n, current.2) =
        ((sites.foldl (r.fill store) current).1.reread text n,
          (sites.foldl (r.fill store) current).2) := by
    intro sites
    induction sites with
    | nil => exact fun current => rfl
    | cons site sites ih =>
      intro current
      rw [List.foldl_cons, List.foldl_cons, reread_fill, ih]
  have hskip : ((s.reread text n).isError || (s.reread text n).sites.isEmpty) =
      (s.isError || s.sites.isEmpty) := rfl
  have hsites : orderedSites (s.reread text n) = orderedSites s := rfl
  rw [apply, apply, hskip, hsites, hfold _ (s, state)]
  split
  · rfl
  · dsimp only
    rw [apply_ite (Statement.reread · text n)]
    rfl

end Resolver

namespace Engine

variable {σ : Type} (r : Resolver σ) (e : Engine σ)

/-! ## One execution -/

theorem run_reread (s : Statement) (text : String) (n : Nat) :
    e.run r (s.reread text n) = e.run r s := by
  have hperform : ∀ (e : Engine σ) (s : Statement), e.perform (s.reread text n) = e.perform s := by
    intro e s
    rw [perform, perform, Statement.reread_executeOn]
    rfl
  have hsession : sessionResponse? (s.reread text n) = sessionResponse? s := rfl
  rw [run, run, hsession]
  split
  · rfl
  · rw [Resolver.reread_apply]
    dsimp only
    rw [hperform]
    rfl

/-- Whether the last statement changed the store does not matter for the next one. -/
theorem run_persist (s : Statement) (persist : Bool) : { e with persist }.run r s =
    ({ (e.run r s).1 with persist }, (e.run r s).2) := by
  rw [run, run]
  split
  · rfl
  · dsimp only
    split
    · rfl
    · rw [perform, perform]
      dsimp only
      split <;> rfl

theorem run_format (s : Statement) : (e.run r s).1.format = e.format := by
  rw [run]
  split
  · rfl
  · dsimp only
    split
    · rfl
    · rw [perform]
      split <;> rfl

/-- A statement that is executed once gives one response. -/
theorem execute_eq_run {text : String} (h : (Statement.parse text).repetitions = 1) :
    e.execute r text =
      ({ (e.run r (e.parse text)).1 with persist := (e.run r (e.parse text)).2.changed },
        ⟨e.parse text, [⟨(e.run r (e.parse text)).2, 1⟩]⟩) := by
  have hparse : (e.parse text).repetitions = 1 := by
    rw [← h, parse]
  rw [execute]
  generalize e.parse text = s at hparse
  dsimp only
  rw [hparse, runTimes, run_persist]
  generalize e.run r s = ran
  dsimp only [Bool.false_or, runTimes, Tally.record]
  split <;> rfl

/-! ## Executions one after the other -/

/-- Executes a text up to `n` times, and not again after an error. The replies are given in their
order, each with whether the store was changed then. -/
def executeTimes (text : String) : (n : Nat) → Engine σ → Engine σ × List (Reply × Bool)
  | 0, e => (e, [])
  | n + 1, e =>
    let (executed, reply) := e.execute r text
    if reply.isError then (executed, [(reply, executed.persist)])
    else
      let (last, replies) := executeTimes text n executed
      (last, (reply, executed.persist) :: replies)

/-- The responses that replies consist of. -/
def responses (replies : List (Reply × Bool)) : List Response :=
  replies.flatMap fun given => given.1.tallies.map Tally.response

theorem parse_execute {text : String} (h : (Statement.parse text).repetitions = 1) :
    (e.execute r text).1.parse text = e.parse text := by
  rw [execute_eq_run r e h, parse, parse]
  dsimp only
  rw [run_format]

/-- The repetition of a statement goes on as its single executions do. -/
theorem runTimes_reread {text : String} (h : (Statement.parse text).repetitions = 1)
    (other : String) (m n : Nat) (persist : Bool) (seen : List Response) :
    runTimes r ((e.parse text).reread other m) n { e with persist } (Tally.ofResponses seen) =
      ({ (executeTimes r text n e).1 with
          persist := persist || (executeTimes r text n e).2.any Prod.snd },
        Tally.ofResponses (seen ++ responses (executeTimes r text n e).2)) := by
  induction n generalizing e persist seen with
  | zero => rw [runTimes, executeTimes, responses, List.flatMap_nil, List.append_nil, List.any_nil,
      Bool.or_false]
  | succ n ih =>
    have hparse := parse_execute r e h
    have hexecute := execute_eq_run r e h
    rw [runTimes, run_persist, run_reread, executeTimes]
    generalize e.execute r text = executed at hparse hexecute
    generalize e.run r (e.parse text) = ran at hexecute
    subst hexecute
    dsimp only at hparse ⊢
    have herror : (Reply.mk (e.parse text) [⟨ran.2, 1⟩]).isError = ran.2.isError := by
      simp [Reply.isError]
    rw [herror, Tally.record_ofResponses]
    split
    · simp [responses]
    · rw [← hparse, ih]
      simp [responses, Bool.or_assoc]

/-- Every execution gives one response, and only the last one may be an error. -/
theorem executeTimes_replies {text : String} (h : (Statement.parse text).repetitions = 1)
    (n : Nat) :
    (∀ given ∈ (executeTimes r text n e).2, ∃ response, given.1.tallies = [⟨response, 1⟩]) ∧
      ∀ given ∈ (executeTimes r text n e).2.dropLast, given.1.isError = false := by
  induction n generalizing e with
  | zero => simp [executeTimes]
  | succ n ih =>
    have htally : ∃ response, (e.execute r text).2.tallies = [⟨response, 1⟩] := by
      rw [execute_eq_run r e h]
      exact ⟨_, rfl⟩
    rw [executeTimes]
    dsimp only
    split
    · simpa using htally
    · next herror =>
      obtain ⟨htallies, herrors⟩ := ih (e.execute r text).1
      refine ⟨List.forall_mem_cons.mpr ⟨htally, htallies⟩, ?_⟩
      intro given hgiven
      generalize (executeTimes r text n (e.execute r text).1).2 = replies at hgiven herrors
      cases replies with
      | nil => cases hgiven
      | cons next replies =>
        rcases List.mem_cons.mp hgiven with rfl | hgiven
        · simpa using herror
        · exact herrors given hgiven

/-- A reply to one execution says the same as its response. -/
theorem reply_of_tally {reply : Reply} {response : Response}
    (h : reply.tallies = [⟨response, 1⟩]) :
    reply.isError = response.isError ∧ reply.count = response.count := by
  rw [Reply.isError, Reply.count, h]
  simp [Number.total]

/-- The responses of single executions, counted together and looked at for errors. -/
theorem responses_of_tallies {replies : List (Reply × Bool)}
    (htallies : ∀ given ∈ replies, ∃ response, given.1.tallies = [⟨response, 1⟩])
    (herrors : ∀ given ∈ replies.dropLast, given.1.isError = false) :
    (responses replies).length = replies.length ∧
      Number.total ((responses replies).map Response.count) =
        Number.total (replies.map fun given => given.1.count) ∧
      ∀ response ∈ (responses replies).dropLast, response.isError = false := by
  induction replies with
  | nil => simp [responses]
  | cons given replies ih =>
    obtain ⟨⟨response, hresponse⟩, htallies⟩ := List.forall_mem_cons.mp htallies
    obtain ⟨herror, hcount⟩ := reply_of_tally hresponse
    have hcons : responses (given :: replies) = response :: responses replies := by
      rw [responses, List.flatMap_cons, hresponse]
      rfl
    rw [hcons]
    cases replies with
    | nil => simp [responses, hcount]
    | cons next replies =>
      rw [List.dropLast_cons_cons, List.forall_mem_cons] at herrors
      obtain ⟨hlength, htotal, hresponses⟩ := ih htallies herrors.2
      have hne : responses (next :: replies) ≠ [] := by
        rw [← List.length_pos_iff, hlength]
        exact Nat.succ_pos _
      refine ⟨congrArg Nat.succ hlength, ?_, ?_⟩
      · rw [List.map_cons, Number.total_cons, htotal, ← hcount]
        rfl
      · rw [List.dropLast_cons_of_ne_nil hne, List.forall_mem_cons, ← herror]
        exact ⟨herrors.1, hresponses⟩

/-- A text that asks for repetitions leaves the store, the state of the resolver and the session as
its executions one after the other do, and its tallies are those of their responses. -/
theorem execute_repeated {text : String} (h : Statement.Repeatable text) {n : Nat} (hpos : 1 ≤ n)
    (hmax : n ≤ 9999999) :
    let whole := e.execute r (Statement.repeated text n)
    let single := executeTimes r text n e
    whole.1.store = single.1.store ∧ whole.1.resolverState = single.1.resolverState ∧
      whole.1.exited = single.1.exited ∧ whole.1.persist = single.2.any Prod.snd ∧
      (∀ given ∈ single.2, ∃ response, given.1.tallies = [⟨response, 1⟩]) ∧
      whole.2.tallies = Tally.ofResponses (responses single.2) ∧
      Number.total (whole.2.tallies.map Tally.times) = single.2.length ∧
      (∀ t ∈ whole.2.tallies.dropLast, t.response.isError = false) ∧
      whole.2.count = Number.total (single.2.map fun given => given.1.count) := by
  have hparse : e.parse (Statement.repeated text n) =
      (e.parse text).reread (Statement.body (Statement.repeated text n)) n := by
    rw [parse, h.parse_repeated hpos hmax]
    rfl
  have hrepetitions : (e.parse (Statement.repeated text n)).repetitions = n := by
    rw [hparse]
    rfl
  have hrun := runTimes_reread r e h.repetitions (Statement.body (Statement.repeated text n)) n n
    false []
  rw [← hparse, List.nil_append, Bool.false_or, show Tally.ofResponses [] = [] from rfl] at hrun
  obtain ⟨htallies, herrors⟩ := executeTimes_replies r e h.repetitions n
  obtain ⟨hlength, htotal, hlast⟩ := responses_of_tallies htallies herrors
  intro whole single
  have hwhole : whole = ({ single.1 with persist := single.2.any Prod.snd },
      ⟨e.parse (Statement.repeated text n), Tally.ofResponses (responses single.2)⟩) := by
    change e.execute r (Statement.repeated text n) = _
    rw [execute]
    dsimp only
    rw [hrepetitions, hrun]
  rw [hwhole]
  dsimp only
  refine ⟨rfl, rfl, rfl, rfl, htallies, rfl, ?_, fun t ht => Tally.isError_of_mem_dropLast hlast ht,
    ?_⟩
  · have htimes := Tally.total_ofResponses (fun _ => 1) (responses single.2)
    rw [Number.total_map_one, hlength] at htimes
    simpa using htimes
  · rw [← htotal, ← Tally.total_ofResponses, Reply.count]

theorem execute_repeated_quoted :
    Statement.Repeatable " write a.b = \"2 Times\": c  " ∧
      (Engine.execute .literal { resolverState := () }
        (Statement.repeated " write a.b = \"2 Times\": c  " 3)).1.store =
        (executeTimes .literal " write a.b = \"2 Times\": c  " 3
          { resolverState := () }).1.store := by
  have h : Statement.Repeatable " write a.b = \"2 Times\": c  " :=
    ⟨by decide +kernel, by decide +kernel, by decide +kernel, by decide +kernel, by decide +kernel⟩
  exact ⟨h, (execute_repeated .literal { resolverState := () } h (by decide) (by decide)).1⟩

/-- A blank that is not Basic Latin does not matter behind a statement, but in front of a number of
repetitions it is refused. -/
theorem execute_repeated_foreign_blank :
    (Statement.parse "write a\u00a0").isError = false ∧
    (Statement.parse "write a\u00a0").verb ≠ .comment ∧
    Statement.asksRepetition "write a\u00a0" = false ∧
    ¬ Statement.Terminated "write a\u00a0" ∧
    (Engine.execute .literal { resolverState := () }
      (Statement.repeated "write a\u00a0" 1)).1.store ≠
        (executeTimes .literal "write a\u00a0" 1 { resolverState := () }).1.store := by
  refine ⟨by decide +kernel, by decide +kernel, by decide +kernel, by decide +kernel, fun heq => ?_⟩
  have hchild : (executeTimes .literal "write a\u00a0" 1
      { resolverState := () }).1.store.child? Store.root "a" ≠ none := by
    decide +kernel
  rw [← heq] at hchild
  exact hchild (by decide +kernel)

end Engine

end TreeDatabase
