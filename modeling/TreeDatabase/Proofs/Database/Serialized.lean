import Mathlib.Data.List.Nodup
import Mathlib.Data.List.Perm.Subperm
import TreeDatabase.Proofs.Database.Stages

/-!
# Serialized access

Whatever the order in which callers and their service take their steps, the requests are answered as
they are when one is executed after the other, in the order in which they entered the queue.
-/

namespace TreeDatabase

open Service

/-- The steps that are left until a request is answered. -/
def Stage.stepsLeft : Stage → Nat
  | idle => 0
  | taken _ => 3
  | saving _ _ => 2
  | answering _ _ => 1

/-- An open service takes a request when there is room in the queue. -/
theorem Service.submit_eq_some_iff {σ : Type} {s s' : Service σ} (h : s.isOpen = true)
    {caller ticket : Nat} {request : Request} :
    s.submit caller request = some (s', ticket) ↔ s.queue.length < capacity ∧
      s' = { s with
        queue := s.queue ++ [⟨s.nextTicket, caller, request⟩]
        nextTicket := s.nextTicket + 1 } ∧ ticket = s.nextTicket := by
  rw [submit, h, Bool.not_true, if_neg Bool.false_ne_true]
  by_cases hroom : s.queue.length < capacity
  · rw [if_pos hroom, Option.some_inj, Prod.mk.injEq, eq_comm, @eq_comm _ s.nextTicket]
    exact (and_iff_right hroom).symm
  · rw [if_neg hroom]
    exact iff_of_false (nofun) (fun h => hroom h.1)

/-- A service answers the oldest request of its queue. -/
theorem Service.run_serve {σ W : Type} {b : Backend (StateM W)} {r : Resolver σ} {s : Service σ}
    {p : Pending} {queue : List Pending} (h : s.queue = p :: queue) (w : W) :
    (s.serve b r).run w =
      let ran := (answer b r s.database p.request).run w
      ({ s with database := ran.1.1, queue, answers := (p.ticket, ran.1.2) :: s.answers },
        ran.2) := by
  rw [serve, h, StateT.run_bind]
  rfl

namespace System

variable {σ W : Type} {b : Backend (StateM W)} {r : Resolver σ} {held : Database σ × W}
  {s t : System σ W}

/-! ## What every step keeps -/

/-- What a caller has asked has entered the queue in the same order, and was answered in it, up to
the one request that the caller waits for. -/
structure Tracked (s : System σ W) (c : Nat) : Prop where
  asked : s.askedBy c = (s.enteredBy c).map Pending.request ++ (s.callers c).sent
  entered : s.enteredBy c = (s.receivedBy c).map Prod.fst ++ (s.callers c).awaited c

/-- What does not concern a caller keeps it tracked. -/
theorem Tracked.congr {c : Nat} (h : s.Tracked c) (hcaller : t.callers c = s.callers c)
    (hasked : t.askedBy c = s.askedBy c) (hentered : t.enteredBy c = s.enteredBy c)
    (hreceived : t.receivedBy c = s.receivedBy c) : t.Tracked c where
  asked := by rw [hasked, hentered, hcaller, h.asked]
  entered := by rw [hentered, hreceived, hcaller, h.entered]

/-- What holds of a system that began with a database and a world. -/
structure Sound (b : Backend (StateM W)) (r : Resolver σ) (held : Database σ × W)
    (s : System σ W) : Prop where
  isOpen : s.service.isOpen = true
  fresh : ∀ p ∈ s.entered, p.ticket < s.service.nextTicket
  distinct : (s.entered.map Pending.ticket).Nodup
  /-- Of the requests that have entered, the oldest were answered, and the latest wait. -/
  served : ∃ done, s.entered = done ++ s.stage.current ++ s.service.queue ∧
    s.service.answers.reverse = answersTo b r held done ∧
    s.stage.Follows b r (after b r held done) s.service.database s.world
  tracked : ∀ c, s.Tracked c
  received : ∀ given ∈ s.received, (given.1.ticket, given.2) ∈ s.service.answers

theorem sound_start (db : Database σ) (w : W) : Sound b r (db, w) (start db w) where
  isOpen := rfl
  fresh := List.forall_mem_nil _
  distinct := List.nodup_nil
  served := ⟨[], rfl, rfl, rfl⟩
  tracked := by
    refine fun c => ⟨?_, ?_⟩
    · change [] = [] ++ (if c = 0 then Caller.ready else .absent).sent
      split <;> rfl
    · change [] = [] ++ (if c = 0 then Caller.ready else .absent).awaited c
      split <;> rfl
  received := List.forall_mem_nil _

/-- A caller that waits for the same as before changes nothing. -/
theorem Sound.setCaller (h : Sound b r held s) {c : Nat} {caller : Caller}
    (hsent : caller.sent = (s.callers c).sent)
    (hawaited : caller.awaited c = (s.callers c).awaited c) :
    Sound b r held (s.setCaller c caller) where
  isOpen := h.isOpen
  fresh := h.fresh
  distinct := h.distinct
  served := h.served
  tracked := by
    intro d
    rcases eq_or_ne d c with rfl | hne
    · have hd := h.tracked d
      rw [← callers_setCaller_self s d caller] at hsent hawaited
      exact ⟨hd.asked.trans (congrArg (_ ++ ·) hsent.symm),
        hd.entered.trans (congrArg (_ ++ ·) hawaited.symm)⟩
    · exact (h.tracked d).congr (callers_setCaller_of_ne s hne caller) rfl rfl rfl
  received := h.received

theorem Sound.ask (h : Sound b r held s) {c : Nat} (hready : s.callers c = .ready) (call : Call) :
    Sound b r held { s.setCaller c (.sending call) with asked := s.asked ++ [(c, call)] } where
  isOpen := h.isOpen
  fresh := h.fresh
  distinct := h.distinct
  served := h.served
  tracked := by
    intro d
    rcases eq_or_ne d c with rfl | hne
    · obtain ⟨hasked, hentered⟩ := h.tracked d
      rw [hready] at hasked hentered
      constructor
      · show _ = _ ++ ((s.setCaller d _).callers d).sent
        rw [callers_setCaller_self, askedBy, List.filter_append, List.map_append]
        exact congrArg₂ (· ++ ·) (hasked.trans (List.append_nil _)) (by simp [Caller.sent])
      · simpa [receivedBy, enteredBy, Caller.awaited] using hentered
    · refine (h.tracked d).congr (callers_setCaller_of_ne s hne _) ?_ rfl rfl
      simp [askedBy, hne.symm]
  received := h.received

theorem Sound.acts (h : Sound b r held s) (ht : Acts s t) : Sound b r held t := by
  cases ht with
  | clone _ absent =>
    exact h.setCaller (by rw [absent]; rfl) (by rw [absent]; rfl)
  | release ready =>
    exact h.setCaller (by rw [ready]; rfl) (by rw [ready]; rfl)
  | ask ready call => exact h.ask ready call

theorem Sound.enter (h : Sound b r held s) {c : Nat} {call : Call} {service : Service σ}
    {ticket : Nat} (hsending : s.callers c = .sending call)
    (hroom : s.service.submit c call.request = some (service, ticket)) :
    Sound b r held { s.setCaller c (.awaiting call ticket) with
      service
      entered := s.entered ++ [⟨ticket, c, call.request⟩] } := by
  obtain ⟨-, rfl, rfl⟩ := (Service.submit_eq_some_iff h.isOpen).mp hroom
  refine ⟨h.isOpen, ?fresh, ?distinct, ?served, ?tracked, h.received⟩
  case fresh =>
    intro p hp
    rcases List.mem_append.mp hp with hp | hp
    · exact Nat.lt_succ_of_lt (h.fresh p hp)
    · rw [List.mem_singleton.mp hp]
      exact Nat.lt_succ_self _
  case distinct =>
    rw [List.map_append, List.map_singleton]
    refine List.Nodup.append h.distinct (List.nodup_singleton _)
      (List.disjoint_singleton.mpr fun hmem => ?_)
    obtain ⟨p, hp, hticket⟩ := List.mem_map.mp hmem
    exact Nat.ne_of_lt (h.fresh p hp) hticket
  case served =>
    obtain ⟨done, hentered, hanswers, hstage⟩ := h.served
    refine ⟨done, ?_, hanswers, hstage⟩
    show s.entered ++ _ = done ++ s.stage.current ++ (s.service.queue ++ _)
    rw [hentered, List.append_assoc _ s.service.queue]
  case tracked =>
    intro d
    rcases eq_or_ne d c with rfl | hne
    · obtain ⟨hasked, hentered⟩ := h.tracked d
      rw [hsending] at hasked hentered
      constructor
      · simpa [askedBy, enteredBy, Caller.sent] using hasked
      · simpa [receivedBy, enteredBy, Caller.awaited] using hentered
    · refine (h.tracked d).congr (callers_setCaller_of_ne s hne _) rfl ?_ rfl
      simp [enteredBy, hne.symm]

theorem Sound.take (h : Sound b r held s) {p : Pending} {queue : List Pending}
    (hidle : s.stage = .idle) (hwaiting : s.service.queue = p :: queue) :
    Sound b r held { s with service := { s.service with queue }, stage := .taken p } := by
  obtain ⟨done, hentered, hanswers, hstage⟩ := h.served
  refine { h with
    served := ⟨done, ?_, hanswers, ?_⟩
    tracked := fun c => (h.tracked c).congr rfl rfl rfl rfl }
  · rw [hentered, hidle, hwaiting, List.append_assoc, List.append_assoc]
    rfl
  · rwa [hidle] at hstage

theorem Sound.compute (h : Sound b r held s) {p : Pending} (htaken : s.stage = .taken p) :
    Sound b r held { s with
      service := { s.service with database := (Stage.compute r s.service.database p).1 }
      stage := (Stage.compute r s.service.database p).2 } := by
  obtain ⟨done, hentered, hanswers, hstage⟩ := h.served
  have hfollows := Stage.follows_compute (b := b) (r := r) s.service.database s.world p
  have hcurrent : (Stage.compute r s.service.database p).2.current = [p] := by
    obtain ⟨_, hnext⟩ | ⟨_, hnext⟩ := Stage.compute_cases r s.service.database p
    · rw [hnext, Stage.current]
    · rw [hnext, Stage.current]
  refine { h with
    served := ⟨done, ?_, hanswers, ?_⟩
    tracked := fun c => (h.tracked c).congr rfl rfl rfl rfl }
  · rw [hentered, htaken, hcurrent]
    rfl
  · rw [htaken] at hstage
    rwa [show after b r held done = (s.service.database, s.world) from hstage]

theorem Sound.save (h : Sound b r held s) {p : Pending} {reply : Option Reply}
    (hsaving : s.stage = .saving p reply) {saved : Except StorageFault Unit} {world : W}
    (hflush : (s.service.database.flush b).run.run s.world = (saved, world)) :
    Sound b r held { s with world, stage := .answering p (Stage.answerTo saved reply) } := by
  obtain ⟨done, hentered, hanswers, hstage⟩ := h.served
  rw [hsaving] at hentered hstage
  exact { h with
    served := ⟨done, hentered, hanswers, Stage.follows_save hstage hflush⟩
    tracked := fun c => (h.tracked c).congr rfl rfl rfl rfl }

theorem Sound.answer (h : Sound b r held s) {p : Pending} {a : Answer}
    (hanswering : s.stage = .answering p a) :
    Sound b r held { s with
      service := { s.service with answers := (p.ticket, a) :: s.service.answers }
      stage := .idle } := by
  obtain ⟨done, hentered, hanswers, hstage⟩ := h.served
  rw [hanswering] at hentered hstage
  have hrun : (Service.answer b r (after b r held done).1 p.request).run (after b r held done).2 =
      ((s.service.database, a), s.world) := hstage
  refine { h with
    served := ⟨done ++ [p], ?_, ?_, ?_⟩
    tracked := fun c => (h.tracked c).congr rfl rfl rfl rfl
    received := fun given hgiven => List.mem_cons_of_mem _ (h.received given hgiven) }
  · rw [hentered]
    exact congrArg (· ++ _) (List.append_nil _).symm
  · rw [List.reverse_cons, hanswers, answersTo_append, answersTo, hrun]
    rfl
  · rw [after_append, after, hrun]
    rfl

theorem Sound.receive (h : Sound b r held s) {c : Nat} {call : Call} {ticket : Nat} {a : Answer}
    (hawaiting : s.callers c = .awaiting call ticket)
    (hanswered : s.service.answer? ticket = some a) :
    Sound b r held { s.setCaller c call.returned with
      received := s.received ++ [(⟨ticket, c, call.request⟩, a)] } := by
  refine ⟨h.isOpen, h.fresh, h.distinct, h.served, ?tracked, ?received⟩
  case tracked =>
    intro d
    rcases eq_or_ne d c with rfl | hne
    · obtain ⟨hasked, hentered⟩ := h.tracked d
      rw [hawaiting] at hasked hentered
      rw [Caller.awaited] at hentered
      constructor
      · simpa [askedBy, enteredBy] using hasked.trans (List.append_nil _)
      · simpa [receivedBy, enteredBy] using hentered
    · refine (h.tracked d).congr (callers_setCaller_of_ne s hne _) rfl rfl ?_
      simp [receivedBy, hne.symm]
  case received =>
    intro given hgiven
    rcases List.mem_append.mp hgiven with hgiven | hgiven
    · exact h.received given hgiven
    · rw [List.mem_singleton.mp hgiven]
      obtain ⟨before, behind, hsplit, -⟩ := List.lookup_eq_some_iff.mp hanswered
      show _ ∈ s.service.answers
      rw [hsplit]
      exact List.mem_append_right _ List.mem_cons_self

theorem Sound.serves (h : Sound b r held s) (ht : Serves b r s t) : Sound b r held t := by
  cases ht with
  | enter sending room => exact h.enter sending room
  | take idle waiting => exact h.take idle waiting
  | compute taken => exact h.compute taken
  | save saving flush => exact h.save saving flush
  | answer answering => exact h.answer answering
  | receive awaiting answered => exact h.receive awaiting answered

theorem Sound.reaches (h : Sound b r held s) (ht : Reaches b r s t) : Sound b r held t := by
  induction ht with
  | refl => exact h
  | tail _ step ih => exact step.elim ih.acts ih.serves

theorem reaches_of_serves (ht : Relation.ReflTransGen (Serves b r) s t) : Reaches b r s t :=
  Relation.ReflTransGen.mono (fun _ _ => Or.inr) _ _ ht

/-! ## One request in one go -/

/-- The stages of a request, one right after the other, are what a service does at once. -/
theorem serves_serve {p : Pending} {queue : List Pending} {service : Service σ} {world : W}
    (hidle : s.stage = .idle) (hwaiting : s.service.queue = p :: queue)
    (hserve : (s.service.serve b r).run s.world = (service, world)) :
    Relation.ReflTransGen (Serves b r) s { s with service, world } := by
  rw [Service.run_serve hwaiting] at hserve
  obtain ⟨rfl, rfl⟩ := Prod.mk.inj hserve
  have hfollows := Stage.follows_compute (b := b) (r := r) s.service.database s.world p
  have hstages := Stage.compute_cases r s.service.database p
  have htaken := Relation.ReflTransGen.single (Serves.take (b := b) (r := r) hidle hwaiting)
  have hcomputed := htaken.tail (Serves.compute (p := p) rfl)
  generalize Stage.compute r s.service.database p = computed at hfollows hstages hcomputed
  obtain ⟨db, stage⟩ := computed
  obtain ⟨reply, rfl⟩ | ⟨a, rfl⟩ := hstages
  · cases hflush : (db.flush b).run.run s.world with
    | mk saved w =>
      have hanswered := (hcomputed.tail (.save rfl hflush)).tail (.answer rfl)
      have hanswer := Stage.follows_save hfollows hflush
      rw [← hidle] at hanswered
      rwa [show (Service.answer b r s.service.database p.request).run s.world = _ from hanswer]
  · have hanswered := hcomputed.tail (.answer rfl)
    rw [← hidle] at hanswered
    rwa [show (Service.answer b r s.service.database p.request).run s.world = _ from hfollows]

/-! ## What is still to be done -/

/-- The steps that lead to the answers to all that was asked. -/
def stepsLeft (s : System σ W) : Nat :=
  6 * (s.asked.length - s.entered.length) + 4 * s.service.queue.length + s.stage.stepsLeft +
    (s.entered.length - s.received.length)

theorem Sound.length_entered_le (h : Sound b r held s) : s.entered.length ≤ s.asked.length := by
  have hsub : (s.entered.map Pending.caller).Subperm (s.asked.map Prod.fst) := by
    refine List.subperm_ext_iff.mpr fun c _ => ?_
    have hlength := congrArg List.length (h.tracked c).asked
    rw [askedBy, enteredBy, List.length_append, List.length_map, List.length_map,
      ← List.countP_eq_length_filter, ← List.countP_eq_length_filter] at hlength
    rw [List.count_eq_countP, List.count_eq_countP, List.countP_map, List.countP_map]
    exact hlength.symm ▸ Nat.le_add_right _ _
  simpa using hsub.length_le

theorem Sound.received_subperm (h : Sound b r held s) :
    (s.received.map Prod.fst).Subperm s.entered := by
  refine List.subperm_ext_iff.mpr fun p _ => ?_
  have hcount : ((s.receivedBy p.caller).map Prod.fst).count p ≤
      (s.enteredBy p.caller).count p := by
    rw [(h.tracked p.caller).entered, List.count_append]
    exact Nat.le_add_right _ _
  have hreceived : (s.receivedBy p.caller).map Prod.fst =
      (s.received.map Prod.fst).filter (·.caller = p.caller) := by
    rw [receivedBy, List.filter_map]
    rfl
  rwa [hreceived, enteredBy, List.count_filter (by simp), List.count_filter (by simp)] at hcount

theorem Sound.length_received_le (h : Sound b r held s) :
    s.received.length ≤ s.entered.length := by
  simpa using h.received_subperm.length_le

theorem Sound.stepsLeft_lt (h : Sound b r held s) (ht : Serves b r s t) :
    t.stepsLeft < s.stepsLeft := by
  have hentered := (h.serves ht).length_entered_le
  have hreceived := (h.serves ht).length_received_le
  have hbefore := h.length_received_le
  cases ht with
  | enter sending room =>
    obtain ⟨-, rfl, rfl⟩ := (Service.submit_eq_some_iff h.isOpen).mp room
    simp only [stepsLeft, stage_setCaller, asked_setCaller, received_setCaller,
      List.length_append, List.length_singleton] at hentered ⊢
    omega
  | take idle waiting =>
    simp only [stepsLeft, idle, waiting, Stage.stepsLeft, List.length_cons]
    omega
  | @compute p taken =>
    simp only [stepsLeft, taken]
    obtain ⟨_, hnext⟩ | ⟨_, hnext⟩ := Stage.compute_cases r s.service.database p
    · rw [hnext, Stage.stepsLeft, Stage.stepsLeft]
      omega
    · rw [hnext, Stage.stepsLeft, Stage.stepsLeft]
      omega
  | save saving flush =>
    simp only [stepsLeft, saving, Stage.stepsLeft]
    omega
  | answer answering =>
    simp only [stepsLeft, answering, Stage.stepsLeft]
    omega
  | receive awaiting answered =>
    simp only [stepsLeft, service_setCaller, stage_setCaller, asked_setCaller, entered_setCaller,
      List.length_append, List.length_singleton] at hreceived ⊢
    omega

/-- A service comes to an end with what was asked, whatever the order of the steps. -/
theorem Sound.acc_serves (h : Sound b r held s) : Acc (fun t u => Serves b r u t) s := by
  induction hn : s.stepsLeft using Nat.strongRecOn generalizing s with
  | _ n ih =>
    subst hn
    exact ⟨_, fun t ht => ih _ (h.stepsLeft_lt ht) (h.serves ht) rfl⟩

theorem asked_of_serves (ht : Relation.ReflTransGen (Serves b r) s t) : t.asked = s.asked := by
  induction ht with
  | refl => rfl
  | tail _ step ih =>
    rw [← ih]
    cases step <;> rfl

theorem idle_of_settled (hsettled : ∀ t, ¬ Serves b r s t) :
    s.stage = .idle ∧ s.service.queue = [] := by
  have hidle : s.stage = .idle := by
    cases hstage : s.stage with
    | idle => rfl
    | taken p => exact absurd (.compute hstage) (hsettled _)
    | saving p reply => exact absurd (.save hstage (Prod.eta _).symm) (hsettled _)
    | answering p a => exact absurd (.answer hstage) (hsettled _)
  cases hqueue : s.service.queue with
  | nil => exact ⟨hidle, rfl⟩
  | cons p queue => exact absurd (.take hidle hqueue) (hsettled _)

/-- When there is nothing left to do, no caller waits. -/
theorem Sound.awaits_nothing (h : Sound b r held s) (hsettled : ∀ t, ¬ Serves b r s t) (c : Nat) :
    (s.callers c).sent = [] ∧ (s.callers c).awaited c = [] := by
  obtain ⟨hidle, hqueue⟩ := idle_of_settled hsettled
  cases hcaller : s.callers c with
  | absent => exact ⟨rfl, rfl⟩
  | ready => exact ⟨rfl, rfl⟩
  | sending call =>
    have hroom : s.service.queue.length < capacity := by
      rw [hqueue]
      exact Nat.zero_lt_succ _
    exact absurd (.enter hcaller ((Service.submit_eq_some_iff h.isOpen).mpr ⟨hroom, rfl, rfl⟩))
      (hsettled _)
  | awaiting call ticket =>
    obtain ⟨done, hentered, hanswers, -⟩ := h.served
    rw [hidle, hqueue, Stage.current, List.append_nil, List.append_nil] at hentered
    have hmem : ⟨ticket, c, call.request⟩ ∈ s.entered := by
      have hawaited : ⟨ticket, c, call.request⟩ ∈ s.enteredBy c := by
        rw [(h.tracked c).entered, hcaller]
        exact List.mem_append_right _ (List.mem_singleton_self _)
      exact (List.mem_filter.mp hawaited).1
    have hticket : ticket ∈ s.service.answers.map Prod.fst := by
      rw [← List.mem_reverse, ← List.map_reverse, hanswers, map_fst_answersTo, ← hentered]
      exact List.mem_map_of_mem hmem
    cases hlookup : s.service.answers.lookup ticket with
    | none =>
      obtain ⟨given, hgiven, rfl⟩ := List.mem_map.mp hticket
      exact absurd (List.lookup_eq_none_iff.mp hlookup given hgiven) (by simp)
    | some a => exact absurd (.receive hcaller hlookup) (hsettled _)

/-! ## Serialized access -/

/-- Access that is serialized: the requests have their answers, one after the other, in the order in
which they entered the queue, and the database is where these requests lead to. -/
structure Serialized (b : Backend (StateM W)) (r : Resolver σ) (Holds : W → List Record → Prop)
    (held : Database σ × W) (s : System σ W) : Prop where
  distinct : (s.entered.map Pending.ticket).Nodup
  /-- Of the requests that have entered, the oldest were executed and answered, at most one is on
  its way, and the latest wait. -/
  served : ∃ done, s.entered = done ++ s.stage.current ++ s.service.queue ∧
    s.service.answers.reverse = answersTo b r held done ∧
    s.stage.Follows b r (after b r held done) s.service.database s.world
  /-- What callers get are the answers to requests that have entered. -/
  received : ∀ given ∈ s.received,
    given.1 ∈ s.entered ∧ (given.1.ticket, given.2) ∈ answersTo b r held s.entered
  /-- No request is answered twice. -/
  once : (s.received.map fun given => given.1.ticket).Nodup
  tracked : ∀ c, s.Tracked c
  /-- When a flush is answered with success, the backend holds what the requests before it have
  led to. -/
  flushed : ∀ p, s.stage = .answering p .flushed → ∃ before,
    s.entered = before ++ p :: s.service.queue ∧ Holds s.world (after b r held before).1.records

theorem Sound.serialized {Holds : W → List Record → Prop} (hb : b.Stores Holds)
    (h : Sound b r held s) : Serialized b r Holds held s where
  distinct := h.distinct
  served := h.served
  received := by
    intro given hgiven
    obtain ⟨done, hentered, hanswers, -⟩ := h.served
    refine ⟨h.received_subperm.subset (List.mem_map_of_mem hgiven), ?_⟩
    rw [hentered, List.append_assoc, answersTo_append, ← hanswers]
    exact List.mem_append_left _ (List.mem_reverse.mpr (h.received given hgiven))
  once := by
    obtain ⟨answered, hperm, hsub⟩ := h.received_subperm
    have htickets := (hperm.map Pending.ticket).nodup_iff.mp (h.distinct.sublist (hsub.map _))
    rwa [List.map_map] at htickets
  tracked := h.tracked
  flushed := by
    intro p hp
    obtain ⟨done, hentered, -, hstage⟩ := h.served
    rw [hp] at hentered hstage
    refine ⟨done, ?_, Stage.holds_of_follows hb hstage⟩
    rw [hentered, List.append_assoc]
    rfl

/-- Access is serialized, whatever callers and their service do. From where they stand the service
comes to an end with what was asked, and then every caller has the answers to all its requests. -/
theorem serialized_of_reaches {Holds : W → List Record → Prop} (hb : b.Stores Holds)
    {db : Database σ} {w : W} (hs : Reaches b r (start db w) s) :
    Serialized b r Holds (db, w) s ∧ Acc (fun t u => Serves b r u t) s ∧
      ∀ t, Relation.ReflTransGen (Serves b r) s t → (∀ u, ¬ Serves b r t u) →
        t.asked = s.asked ∧
        ∀ c, t.askedBy c = (t.receivedBy c).map fun given => given.1.request := by
  have h := (sound_start (b := b) (r := r) db w).reaches hs
  refine ⟨h.serialized hb, h.acc_serves, fun t ht hsettled => ⟨asked_of_serves ht, fun c => ?_⟩⟩
  have hend := h.reaches (reaches_of_serves ht)
  obtain ⟨hsent, hawaited⟩ := hend.awaits_nothing hsettled c
  obtain ⟨hasked, hentered⟩ := hend.tracked c
  rw [hasked, hsent, List.append_nil, hentered, hawaited, List.append_nil, List.map_map]
  rfl

theorem serialized_of_reaches_memory :
    let db : Database Unit := { engine := { resolverState := () } }
    Backend.memory.Stores Eq ∧ ∃ s,
      Reaches Backend.memory Resolver.literal (start db []) s ∧
      s.stage = .answering ⟨1, 1, .flush⟩ .flushed ∧
      Serialized Backend.memory Resolver.literal Eq (db, []) s ∧
      s.world = (after Backend.memory Resolver.literal (db, [])
        [⟨0, 0, .execute "write a = 1"⟩]).1.records := by
  intro db
  let R := Reaches Backend.memory Resolver.literal (start db [])
  have hcloned : R _ := .single (.inl (.clone (c := 0) (d := 1) nofun rfl))
  have hasked : R _ := hcloned.tail (.inl (.ask (c := 0) rfl (.execute "write a = 1")))
  have hboth : R _ := hasked.tail (.inl (.ask (c := 1) rfl .shutdown))
  have hentered : R _ := hboth.tail (.inr (.enter (c := 0) rfl rfl))
  have hqueued : R _ := hentered.tail (.inr (.enter (c := 1) rfl rfl))
  have hserved : R _ := hqueued.trans (reaches_of_serves
    (serves_serve rfl rfl (Service.run_serve rfl _)))
  have htaken : R _ := hserved.tail (.inr (.take rfl rfl))
  have hcomputed : R _ := htaken.tail (.inr (.compute rfl))
  have hsaved : R _ := hcomputed.tail (.inr (.save rfl rfl))
  exact ⟨Backend.stores_memory, _, hsaved, rfl,
    (serialized_of_reaches Backend.stores_memory hsaved).1, rfl⟩

end System

end TreeDatabase
