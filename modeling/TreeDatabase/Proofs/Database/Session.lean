import TreeDatabase.Database
import TreeDatabase.Proofs.Exchange.Portable

/-!
# Sessions with a database

A database that saves on its own, over a backend that works, has saved all that it holds after every
statement, and opening it again gives the same records.
-/

namespace TreeDatabase

open Resolver

variable {W : Type}

/-- A backend whose actions succeed in a world that holds records. It gives back the records that
were saved last, as long as these can be read back from a flat file. -/
structure Backend.Reliable (b : Backend (StateM W)) (Holds : W → List Record → Prop) : Prop where
  load : ∀ {w rs}, Holds w rs →
    ∃ w', (do b.prepare; b.load).run.run w = (.ok rs, w') ∧ Holds w' rs
  save : ∀ {w old rs}, Holds w old → FlatFile.parse (FlatFile.render rs) = .ok rs →
    ∃ w', (b.save rs).run.run w = (.ok (), w') ∧ Holds w' rs

theorem Backend.reliable_memory : Backend.memory.Reliable Eq where
  load := by
    rintro w rs rfl
    exact ⟨w, rfl, rfl⟩
  save := fun _ _ => ⟨_, rfl, rfl⟩

theorem run_bind_of_ok {ε α β : Type} {x : ExceptT ε (StateM W) α}
    {f : α → ExceptT ε (StateM W) β} {a : α} {w w' : W} (h : x.run.run w = (.ok a, w')) :
    (x >>= f).run.run w = (f a).run.run w' := by
  rw [ExceptT.run_bind, StateT.run_bind, h]
  rfl

/-- An engine without nodes that leaves keywords as they are written. -/
def Engine.fresh (format : DataFormat) : Engine Unit := { resolverState := (), format }

namespace Database

def executeAll {σ : Type} {m : Type → Type} [Monad m] (b : Backend m) (r : Resolver σ) :
    Database σ → List String → m (Database σ)
  | db, [] => pure db
  | db, text :: texts => do
    let (db, _) ← db.execute b r text
    executeAll b r db texts

variable {b : Backend (StateM W)} {Holds : W → List Record → Prop}

/-- All that a database holds is saved: a record for each of its nodes, the greatest path first.
The records can be read back from their text, and opening the backend again gives a database whose
nodes have the same ones. -/
structure Saved (b : Backend (StateM W)) (Holds : W → List Record → Prop) (db : Database Unit)
    (w : W) : Prop where
  holds : Holds w db.records
  listed : db.engine.store.ListsNodes db.records
  descending : db.records.Pairwise fun a b => b.path < a.path
  text : FlatFile.parse (FlatFile.render db.records) = .ok db.records
  reopens : ∀ format, ∃ again w', (openWith b (Engine.fresh format)).run.run w = (.ok again, w') ∧
    again.engine.store.ListsNodes db.records ∧ again.records = db.records ∧
    Holds w' again.records

/-- What every statement keeps of a database and its world. -/
structure InStep (Holds : W → List Record → Prop) (db : Database Unit) (w : W) : Prop where
  autosave : db.autosave = true
  coherent : db.engine.store.Coherent
  oneLine : db.engine.store.OneLine
  holds : Holds w db.records

/-! ## Opening -/

/-- Opening a backend gives the database of the records that it holds. -/
theorem openWith_of_holds (hb : b.Reliable Holds) {w : W} {rs : List Record} (hw : Holds w rs)
    {engine : Engine Unit} {db : Database Unit} (hdb : ofRecords engine rs = .ok db) :
    ∃ w', (openWith b engine).run.run w = (.ok db, w') ∧ Holds w' rs := by
  obtain ⟨w', hload, hw'⟩ := hb.load hw
  refine ⟨w', ?_, hw'⟩
  rw [openWith, ← bind_assoc, run_bind_of_ok hload, hdb]
  rfl

/-- The records of a store that statements have made are a database again. -/
theorem exists_ofRecords {s : Store} (h : s.Coherent) (hs : s.OneLine) (format : DataFormat) :
    ∃ db, ofRecords (Engine.fresh format) s.toRecords = .ok db ∧ db.engine.store.Coherent ∧
      db.records = s.toRecords := by
  obtain ⟨t, n, hload, ht, hrecords⟩ := h.load_toRecords (hs.portable h)
  cases hrs : s.toRecords with
  | nil =>
    exact ⟨{ engine := Engine.fresh format }, rfl, Store.coherent_empty, Store.toRecords_empty⟩
  | cons r rs =>
    rw [hrs] at hload hrecords
    refine ⟨{ engine := { Engine.fresh format with store := t } }, ?_, ht, hrecords⟩
    have hfresh : (Engine.fresh format).store = Store.empty := rfl
    rw [ofRecords, hfresh, hload]
    simp

namespace InStep

variable {db : Database Unit} {w : W}

theorem saved (hb : b.Reliable Holds) (h : InStep Holds db w) : Saved b Holds db w where
  holds := h.holds
  listed := h.coherent.listsNodes_toRecords
  descending := h.coherent.pairwise_toRecords
  text := FlatFile.parse_render (h.oneLine.portable h.coherent)
  reopens := by
    intro format
    obtain ⟨again, hagain, hcoherent, hrecords⟩ :=
      exists_ofRecords h.coherent h.oneLine format
    obtain ⟨w', hopen, hw'⟩ := openWith_of_holds hb h.holds hagain
    have hsame : again.records = db.records := hrecords
    exact ⟨again, w', hopen, hsame ▸ hcoherent.listsNodes_toRecords, hsame, hsame.symm ▸ hw'⟩

/-- A statement is answered, and what it changes is saved. -/
theorem execute (hb : b.Reliable Holds) (h : InStep Holds db w) (text : String) :
    ∃ after reply w', (db.execute b literal text).run w = ((after, .ok reply), w') ∧
      InStep Holds after w' ∧ (after.engine.persist = false → after.records = db.records) := by
  obtain ⟨hcoherent, hline, hpersist⟩ := db.engine.execute_literal text
    (fun _ _ hc _ hs he => he.oneLine hc hs) h.coherent h.oneLine
  rw [Database.execute]
  generalize db.engine.execute literal text = executed at hcoherent hline hpersist
  obtain ⟨engine, reply⟩ := executed
  dsimp only at hcoherent hline hpersist ⊢
  let after : Database Unit := { db with engine }
  have hunchanged : engine.persist = false → after.records = db.records := by
    intro hfalse
    rw [records, records, hpersist hfalse]
  cases hp : engine.persist with
  | false =>
    refine ⟨after, reply, w, ?_, ⟨h.autosave, hcoherent, hline, ?_⟩, fun _ => hunchanged hp⟩
    · rw [Bool.and_false, if_neg Bool.false_ne_true]
      rfl
    · exact (hunchanged hp).symm ▸ h.holds
  | true =>
    have hparse : FlatFile.parse (FlatFile.render after.records) = .ok after.records :=
      FlatFile.parse_render (hline.portable hcoherent)
    obtain ⟨w', hsave, hw'⟩ := hb.save h.holds hparse
    refine ⟨after, reply, w', ?_, ⟨h.autosave, hcoherent, hline, hw'⟩, fun hfalse => ?_⟩
    · have hsaves : (db.autosave && true) = true := by rw [h.autosave, Bool.and_true]
      rw [if_pos hsaves, StateT.run_bind, flush, hsave]
      rfl
    · rw [show after.engine.persist = true from hp] at hfalse
      cases hfalse

theorem executeAll (hb : b.Reliable Holds) (h : InStep Holds db w) (texts : List String) :
    ∃ after w', (db.executeAll b literal texts).run w = (after, w') ∧ InStep Holds after w' := by
  induction texts generalizing db w with
  | nil => exact ⟨db, w, rfl, h⟩
  | cons text texts ih =>
    obtain ⟨next, reply, w₁, hnext, hstep, _⟩ := h.execute hb text
    obtain ⟨after, w₂, hafter, hend⟩ := ih hstep
    refine ⟨after, w₂, ?_, hend⟩
    rw [Database.executeAll, StateT.run_bind, hnext]
    exact hafter

end InStep

/-- Nothing is lost by closing a database: over a backend that works and holds nothing at first, all
that it holds is saved when it has been opened and after every statement that follows. A statement
that has not changed the store leaves its records as they are. -/
theorem saved_execute (hb : b.Reliable Holds) {w : W} (hw : Holds w []) (format : DataFormat) :
    ∃ opened w₀, (openWith b (Engine.fresh format)).run.run w = (.ok opened, w₀) ∧
      opened.autosave = true ∧ Saved b Holds opened w₀ ∧
      ∀ (texts : List String) (text : String), ∃ before w₁ after reply w₂,
        (opened.executeAll b literal texts).run w₀ = (before, w₁) ∧
        (before.execute b literal text).run w₁ = ((after, .ok reply), w₂) ∧
        Saved b Holds after w₂ ∧
        (after.engine.persist = false → after.records = before.records) := by
  let opened : Database Unit := { engine := Engine.fresh format }
  have hopened : ofRecords (Engine.fresh format) [] = .ok opened := rfl
  have hrecords : opened.records = [] := Store.toRecords_empty
  obtain ⟨w₀, hopen, hw₀⟩ := openWith_of_holds hb hw hopened
  have h : InStep Holds opened w₀ :=
    ⟨rfl, Store.coherent_empty, Store.OneLine.empty, hrecords.symm ▸ hw₀⟩
  refine ⟨opened, w₀, hopen, rfl, h.saved hb, fun texts text => ?_⟩
  obtain ⟨before, w₁, hbefore, hstep⟩ := h.executeAll hb texts
  obtain ⟨after, reply, w₂, hafter, hend, hpersist⟩ := hstep.execute hb text
  exact ⟨before, w₁, after, reply, w₂, hbefore, hafter, hend.saved hb, hpersist⟩

/-- Two nodes are saved and come back. -/
theorem saved_execute_memory : Backend.memory.Reliable Eq ∧
    ∃ opened w₀ before w₁ after reply w₂,
      (openWith Backend.memory (Engine.fresh .basic)).run.run [] = (.ok opened, w₀) ∧
      (opened.executeAll Backend.memory literal ["write a = 1"]).run w₀ = (before, w₁) ∧
      (before.execute Backend.memory literal "write a.b = 2").run w₁ = ((after, .ok reply), w₂) ∧
      Saved Backend.memory Eq after w₂ ∧ w₂ = [⟨"a.b", "2"⟩, ⟨"a", "1"⟩] ∧
      ∃ again w₃, (openWith Backend.memory (Engine.fresh .basic)).run.run w₂ = (.ok again, w₃) ∧
        again.records = [⟨"a.b", "2"⟩, ⟨"a", "1"⟩] := by
  obtain ⟨opened, w₀, hopen, _, _, hexecute⟩ :=
    saved_execute Backend.reliable_memory (Eq.refl []) .basic
  obtain ⟨before, w₁, after, reply, w₂, hbefore, hafter, hsaved, _⟩ :=
    hexecute ["write a = 1"] "write a.b = 2"
  have hopened : (openWith Backend.memory (Engine.fresh .basic)).run.run [] =
      (.ok { engine := Engine.fresh .basic }, []) := rfl
  have hnodes : (after.engine.store.nodesBelowRoot.map fun n => (⟨n.path, n.value⟩ : Record)) =
      [⟨"a", "1"⟩, ⟨"a.b", "2"⟩] := by
    cases hopened.symm.trans hopen
    have hfirst : _ = before := congrArg Prod.fst hbefore
    have hworld : _ = w₁ := congrArg Prod.snd hbefore
    have hsecond : _ = after := congrArg (·.1.1) hafter
    rw [← hsecond, ← hfirst, ← hworld]
    decide +kernel
  have hperm : after.records.Perm [⟨"a.b", "2"⟩, ⟨"a", "1"⟩] := by
    rw [records, Store.toRecords, hnodes]
    exact (List.mergeSort_perm _ _).trans (.swap ..)
  have hrecords : after.records = [⟨"a.b", "2"⟩, ⟨"a", "1"⟩] :=
    hperm.eq_of_pairwise (fun _ _ _ _ hab hba => absurd hab (String.lt_asymm hba))
      hsaved.descending (by decide +kernel)
  obtain ⟨again, w₃, hagain, _, hsame, _⟩ := hsaved.reopens .basic
  exact ⟨Backend.reliable_memory, opened, w₀, before, w₁, after, reply, w₂, hopen, hbefore, hafter,
    hsaved, hsaved.holds.trans hrecords, again, w₃, hagain, hsame.trans hrecords⟩

end Database

end TreeDatabase
