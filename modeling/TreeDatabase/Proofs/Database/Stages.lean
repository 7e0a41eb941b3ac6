import TreeDatabase.Proofs.Database.Callers

/-!
# Requests one after the other

The database and the answers that a list of requests leads to when one request is executed after the
other, and where that leaves a service between the stages of a request.
-/

namespace TreeDatabase

variable {σ W : Type} {b : Backend (StateM W)} {r : Resolver σ}

/-- A backend that holds the records that were saved last, when the save succeeded. -/
def Backend.Stores (b : Backend (StateM W)) (Holds : W → List Record → Prop) : Prop :=
  ∀ rs w w', (b.save rs).run.run w = (.ok (), w') → Holds w' rs

theorem Backend.stores_memory : Backend.memory.Stores Eq := by
  rintro rs w w' h
  exact (Prod.mk.inj h).2.symm

namespace Service

/-- The database and its world after requests that are executed one after the other. -/
def after (b : Backend (StateM W)) (r : Resolver σ) (held : Database σ × W) :
    List Pending → Database σ × W
  | [] => held
  | p :: ps =>
    let ran := (answer b r held.1 p.request).run held.2
    after b r (ran.1.1, ran.2) ps

/-- The answers to requests that are executed one after the other, by ticket. -/
def answersTo (b : Backend (StateM W)) (r : Resolver σ) (held : Database σ × W) :
    List Pending → List (Nat × Answer)
  | [] => []
  | p :: ps =>
    let ran := (answer b r held.1 p.request).run held.2
    (p.ticket, ran.1.2) :: answersTo b r (ran.1.1, ran.2) ps

theorem after_append (held : Database σ × W) (ps qs : List Pending) :
    after b r held (ps ++ qs) = after b r (after b r held ps) qs := by
  induction ps generalizing held with
  | nil => rfl
  | cons p ps ih => exact ih _

theorem answersTo_append (held : Database σ × W) (ps qs : List Pending) :
    answersTo b r held (ps ++ qs) =
      answersTo b r held ps ++ answersTo b r (after b r held ps) qs := by
  induction ps generalizing held with
  | nil => rfl
  | cons p ps ih => exact congrArg (_ :: ·) (ih _)

theorem map_fst_answersTo (held : Database σ × W) (ps : List Pending) :
    (answersTo b r held ps).map Prod.fst = ps.map Pending.ticket := by
  induction ps generalizing held with
  | nil => rfl
  | cons p ps ih => exact congrArg (p.ticket :: ·) (ih _)

end Service

open Service

/-! ## The stages of a request -/

namespace Stage

/-- Where a service stands when a database and a world were there before the request that it has
taken. -/
def Follows (b : Backend (StateM W)) (r : Resolver σ) (before : Database σ × W)
    (db : Database σ) (w : W) : Stage → Prop
  | idle | taken _ => before = (db, w)
  | saving p reply => compute r before.1 p = (db, saving p reply) ∧ before.2 = w
  | answering p a => (answer b r before.1 p.request).run before.2 = ((db, a), w)

theorem compute_execute {db : Database σ} {text : String} {engine : Engine σ} {reply : Reply}
    (h : db.engine.execute r text = (engine, reply)) (ticket caller : Nat) :
    compute r db ⟨ticket, caller, .execute text⟩ = ({ db with engine },
      if db.autosave && engine.persist then saving ⟨ticket, caller, .execute text⟩ (some reply)
      else answering ⟨ticket, caller, .execute text⟩ (.reply reply)) := by
  simp only [compute, h]

theorem run_answer_execute {db : Database σ} {text : String} {engine : Engine σ} {reply : Reply}
    (h : db.engine.execute r text = (engine, reply)) (w : W) :
    (answer b r db (.execute text)).run w =
      if db.autosave && engine.persist then
        let saved := (Database.flush b { db with engine }).run.run w
        (({ db with engine }, answerTo saved.1 (some reply)), saved.2)
      else (({ db with engine }, .reply reply), w) := by
  rw [answer, Database.execute, h]
  dsimp only
  split <;> rfl

theorem compute_cases (r : Resolver σ) (db : Database σ) (p : Pending) :
    (∃ reply, (compute r db p).2 = saving p reply) ∨ ∃ a, (compute r db p).2 = answering p a := by
  obtain ⟨ticket, caller, request⟩ := p
  cases request with
  | flush => exact .inl ⟨none, rfl⟩
  | execute text =>
    cases hexecute : db.engine.execute r text with
    | mk engine reply =>
      rw [compute_execute hexecute]
      split
      · exact .inl ⟨some reply, rfl⟩
      · exact .inr ⟨.reply reply, rfl⟩

theorem follows_compute (db : Database σ) (w : W) (p : Pending) :
    (compute r db p).2.Follows b r (db, w) (compute r db p).1 w := by
  obtain ⟨ticket, caller, request⟩ := p
  cases request with
  | flush => exact ⟨rfl, rfl⟩
  | execute text =>
    cases hexecute : db.engine.execute r text with
    | mk engine reply =>
      have hcompute := compute_execute hexecute ticket caller
      have hanswer := run_answer_execute (b := b) hexecute w
      cases hsaves : db.autosave && engine.persist with
      | true =>
        rw [hsaves, if_pos rfl] at hcompute
        rw [hcompute]
        exact ⟨hcompute, rfl⟩
      | false =>
        rw [hsaves, if_neg Bool.false_ne_true] at hcompute hanswer
        rw [hcompute]
        exact hanswer

theorem follows_save {before : Database σ × W} {db : Database σ} {w w' : W} {p : Pending}
    {reply : Option Reply} {saved : Except StorageFault Unit}
    (h : (saving p reply).Follows b r before db w) (hflush : (db.flush b).run.run w = (saved, w')) :
    (answering p (answerTo saved reply)).Follows b r before db w' := by
  obtain ⟨ticket, caller, request⟩ := p
  obtain ⟨hcompute, rfl⟩ := h
  cases request with
  | flush =>
    obtain ⟨rfl, hsaving⟩ := Prod.mk.inj hcompute
    obtain ⟨-, rfl⟩ := Stage.saving.inj hsaving
    show (answer b r before.1 .flush).run before.2 = _
    rw [answer, StateT.run_bind, hflush]
    rfl
  | execute text =>
    cases hexecute : before.1.engine.execute r text with
    | mk engine given =>
      have hanswer := run_answer_execute (b := b) hexecute before.2
      rw [compute_execute hexecute] at hcompute
      obtain ⟨rfl, hsaving⟩ := Prod.mk.inj hcompute
      cases hsaves : before.1.autosave && engine.persist with
      | true =>
        rw [hsaves, if_pos rfl] at hsaving hanswer
        obtain ⟨-, rfl⟩ := Stage.saving.inj hsaving
        rw [hflush] at hanswer
        exact hanswer
      | false =>
        rw [hsaves, if_neg Bool.false_ne_true] at hsaving
        cases hsaving

/-- An answer to a flush that succeeded is given while the backend holds the records of the
database. -/
theorem holds_of_follows {Holds : W → List Record → Prop} (hb : b.Stores Holds)
    {before : Database σ × W} {db : Database σ} {w : W} {p : Pending}
    (h : (answering p .flushed).Follows b r before db w) : Holds w before.1.records := by
  obtain ⟨ticket, caller, request⟩ := p
  cases request with
  | execute text =>
    cases hexecute : before.1.engine.execute r text with
    | mk engine reply =>
      have hanswer := (run_answer_execute hexecute before.2).symm.trans h
      split at hanswer
      · cases hsaved : (Database.flush b { before.1 with engine }).run.run before.2 with
        | mk saved w' =>
          rw [hsaved] at hanswer
          cases saved <;> cases hanswer
      · cases hanswer
  | flush =>
    cases hsaved : (before.1.flush b).run.run before.2 with
    | mk saved w' =>
      have hanswer : ((before.1, Answer.ofFlush saved), w') = ((db, .flushed), w) := by
        rw [← h, answer, StateT.run_bind, hsaved]
        rfl
      cases saved with
      | error fault => cases hanswer
      | ok =>
        cases hanswer
        exact hb _ _ _ hsaved

end Stage

end TreeDatabase
