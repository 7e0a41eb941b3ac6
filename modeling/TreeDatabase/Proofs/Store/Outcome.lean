import TreeDatabase.Proofs.Store.Insertion
import TreeDatabase.Store.Records

/-!
# Outcomes of changes

A change that is interrupted leaves a store behind. `Ends` says what holds of the result and what of
the store that is left, and is passed on through sequences of changes.
-/

namespace TreeDatabase

/-- What holds of the result of a change, or of the store that its interruption left. -/
def Ends {α : Type} (left : Store → Prop) (done : α → Prop) : Except Interruption α → Prop
  | .ok a => done a
  | .error stop => left stop.store

namespace Ends

variable {α β : Type} {left : Store → Prop} {done : α → Prop} {next : β → Prop}

theorem bind {x : Except Interruption α} {f : α → Except Interruption β} (h : Ends left done x)
    (hf : ∀ a, done a → Ends left next (f a)) : Ends left next (x >>= f) := by
  cases x with
  | ok a => exact hf a h
  | error stop => exact h

theorem map {x : Except Interruption α} {f : α → β} (h : Ends left done x)
    (hf : ∀ a, done a → next (f a)) : Ends left next (x.map f) := by
  cases x with
  | ok a => exact hf a h
  | error stop => exact h

theorem orInterrupt {s : Store} {x : Except StoreFault α} (hleft : left s)
    (hdone : ∀ a, x = .ok a → done a) : Ends left done (s.orInterrupt x) := by
  cases x with
  | ok a => exact hdone a rfl
  | error fault => exact hleft

/-- What every step of a loop keeps, the loop keeps. -/
theorem foldlM {f : β → α → Except Interruption β} {items : List α} {b : β}
    (hstep : ∀ b, ∀ a ∈ items, next b → Ends left next (f b a)) (hb : next b) :
    Ends left next (items.foldlM f b) := by
  induction items generalizing b with
  | nil => exact hb
  | cons a items ih =>
    rw [List.foldlM_cons]
    apply bind (hstep b a List.mem_cons_self hb)
    intro c hc
    exact ih (fun d e he => hstep d e (List.mem_cons_of_mem _ he)) hc

end Ends

namespace Store

/-! ## Merging -/

theorem Coherent.insertPath {s : Store} (h : Coherent s) (names : List String) (id : NodeId) :
    Ends Coherent (fun r => Coherent r.1) (s.insertPath id names) := by
  induction names generalizing s id with
  | nil => exact h
  | cons name names ih =>
    rw [Store.insertPath]
    have hinsert : Ends Coherent (fun r => Coherent r.1)
        (s.orInterrupt (s.insertOrGetChild id name "")) := by
      apply Ends.orInterrupt h
      rintro ⟨t, c, created⟩ hok
      exact h.insertOrGetChild hok
    apply hinsert.bind
    rintro ⟨t, c, created⟩ ht
    exact ih ht c

theorem Coherent.mergeRecord {s : Store} (h : Coherent s) (r : Record) :
    Ends Coherent Coherent (s.mergeRecord r) := by
  rw [Store.mergeRecord]
  split
  · exact h
  · apply Ends.bind (h.insertPath _ _)
    rintro ⟨t, id⟩ ht
    apply Ends.orInterrupt ht
    intro u hok
    exact ht.setValue hok

/-- A merge leaves a coherent store, even where it is interrupted. -/
theorem Coherent.merge {s : Store} (h : Coherent s) (rs : List Record) :
    Ends Coherent (fun r => Coherent r.1) (s.merge rs) := by
  rw [Store.merge]
  have hfold : Ends Coherent Coherent ((sortRecords rs).foldlM Store.mergeRecord s) :=
    Ends.foldlM (fun t r _ ht => ht.mergeRecord r) h
  apply hfold.map
  intro t ht
  exact ht

theorem Coherent.load {s : Store} (h : Coherent s) (rs : List Record) :
    Ends Coherent (fun r => Coherent r.1) (s.load rs) := by
  rw [Store.load]
  split
  · exact h.merge rs
  · exact h

end Store

end TreeDatabase
