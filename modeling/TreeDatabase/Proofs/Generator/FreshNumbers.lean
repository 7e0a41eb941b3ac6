import Mathlib.Data.List.Nodup
import Mathlib.Order.Bounds.Basic
import TreeDatabase.Generator.Standard
import TreeDatabase.Proofs.Number.Numeral
import TreeDatabase.Proofs.Store.Changes
import TreeDatabase.Proofs.Store.Queries

/-!
# Fresh numbers

A request for a fresh number is answered with the first one, from the counter on, that names no node
of the store. The search for it ends, as it passes over no more numbers than there are names. The
counter is then left behind the answer, so that the answers of a run increase, whatever happens to
the store in between.
-/

namespace TreeDatabase.Standard

open Number

/-! ## The search for a number -/

/-- The search from `n` on ends with `found`: numbers that name nodes are passed over one by one. -/
inductive Search (store : Store) : (n found : Nat) → Prop
  | found {n : Nat} (hfree : store.containsName (numeral n) = false) : Search store n n
  | next {n found : Nat} (htaken : store.containsName (numeral n) = true)
      (rest : Search store (n + 1) found) : Search store n found

/-- Names cannot take all of more numbers than there are names. -/
theorem exists_free (store : Store) (next : Nat) :
    ∃ n ∈ List.range' next (store.index.size + 1), store.containsName (numeral n) = false := by
  by_contra hnone
  have htaken : (List.range' next (store.index.size + 1)).map numeral ⊆ store.index.keys := by
    intro name hname
    obtain ⟨n, hn, rfl⟩ := List.mem_map.mp hname
    rw [Std.TreeMap.mem_keys, ← Std.TreeMap.contains_iff_mem]
    by_contra hfree
    exact hnone ⟨n, hn, eq_false_of_ne_true hfree⟩
  have hnodup : ((List.range' next (store.index.size + 1)).map numeral).Nodup :=
    List.Nodup.map numeral_injective List.nodup_range'
  have hlength := hnodup.length_le_of_subset htaken
  rw [List.length_map, List.length_range', Std.TreeMap.length_keys] at hlength
  omega

/-- A number that is the first free one from `next` on, told by the index. -/
structure FirstFree (store : Store) (next id : Nat) : Prop where
  le : next ≤ id
  free : store.containsName (numeral id) = false
  taken : ∀ n, next ≤ n → n < id → store.containsName (numeral n) = true

theorem freshId_spec (store : Store) (next : Nat) :
    FirstFree store next (freshId store next) ∧
      freshId store next ≤ next + store.index.size := by
  obtain ⟨n, hn, hfree⟩ := exists_free store next
  cases hfind : (List.range' next (store.index.size + 1)).find? fun n =>
      !store.containsName (numeral n) with
  | none => simpa [hfree] using List.find?_eq_none.mp hfind n hn
  | some id =>
    have hid : freshId store next = id := by rw [freshId, hfind, Option.getD_some]
    obtain ⟨hfound, hmem, hbefore⟩ := List.find?_range'_eq_some.mp hfind
    rw [List.mem_range'_1] at hmem
    rw [hid]
    exact ⟨⟨hmem.1, by simpa using hfound, fun j hle hlt => by simpa using hbefore j hle hlt⟩,
      by omega⟩

theorem FirstFree.search {store : Store} {next id : Nat} (h : FirstFree store next id) :
    Search store next id := by
  obtain ⟨hle, hfree, htaken⟩ := h
  obtain ⟨k, rfl⟩ := Nat.exists_eq_add_of_le hle
  induction k generalizing next with
  | zero => exact .found hfree
  | succ k ih =>
    have hsum : next + (k + 1) = next + 1 + k := by omega
    rw [hsum] at hfree htaken ⊢
    refine .next (htaken next (Nat.le_refl next) (by omega)) (ih (by omega) hfree ?_)
    exact fun n hn hlt => htaken n (by omega) hlt

/-- The first free number is the least one that is the name of no node. -/
theorem FirstFree.isLeast {store : Store} (hstore : store.Coherent) {next id : Nat}
    (h : FirstFree store next id) :
    IsLeast {n | next ≤ n ∧ ∀ i node, store.Reached i node → node.name ≠ numeral n} id := by
  constructor
  · refine ⟨h.le, fun i node hnode hname => ?_⟩
    have htaken := hstore.containsName_iff.mpr ⟨i, node, hnode, hname⟩
    rw [h.free] at htaken
    cases htaken
  · rintro n ⟨hn, hnot⟩
    by_contra hlt
    obtain ⟨i, node, hnode, hname⟩ :=
      hstore.containsName_iff.mp (h.taken n hn (Nat.lt_of_not_le hlt))
    exact hnot i node hnode hname

theorem resolve_newId {field : Field} (hfield : field.isName = true) (store : Store)
    (state : StandardState) :
    Resolver.standard.resolve ⟨.newId, none, field⟩ store state =
      (some (numeral (freshId store state.nextId)),
        { state with nextId := freshId store state.nextId + 1 }) := by
  change resolve ⟨.newId, none, field⟩ store state = _
  rw [resolve, if_pos rfl, if_pos (by simp [hfield])]

/-! ## Runs -/

/-- What happens between a store and the generators: a change of the one, or a request to the
others. -/
inductive Event where
  | change (change : Change)
  | request (request : KeywordRequest)

/-- Whether a request asks for a fresh number where there can be one. -/
def asksNumber (request : KeywordRequest) : Bool :=
  request.generator = .newId && request.parameter.isNone && request.field.isName

namespace Event

/-- The store and the generators after an event. -/
def apply (current : Store × StandardState) : Event → Store × StandardState
  | change c => (Change.apply current.1 c, current.2)
  | request r => (current.1, (Resolver.standard.resolve r current.1 current.2).2)

/-- The answer of an event that asks for a fresh number. -/
def number? (current : Store × StandardState) : Event → Option String
  | change _ => none
  | request r =>
    if asksNumber r then (Resolver.standard.resolve r current.1 current.2).1 else none

end Event

/-- The fresh numbers that are answered one after the other. -/
def numbers : List Event → Store × StandardState → List String
  | [], _ => []
  | event :: events, current =>
    (event.number? current).toList ++ numbers events (event.apply current)

theorem nextId_resolve {request : KeywordRequest} (h : asksNumber request = false) (store : Store)
    (state : StandardState) :
    (Resolver.standard.resolve request store state).2.nextId = state.nextId := by
  change (resolve request store state).2.nextId = _
  rw [resolve]
  split
  · next hgenerator =>
    rw [if_neg]
    intro hasked
    rw [Bool.and_eq_true] at hasked
    simp [asksNumber, hgenerator, hasked.1, hasked.2] at h
  · rfl

/-- An event answers with a number that the counter has not passed, and leaves the counter behind
it; or it leaves the counter alone. -/
theorem Event.number?_cases (current : Store × StandardState) (event : Event) :
    (event.number? current = none ∧ (event.apply current).2.nextId = current.2.nextId) ∨
      ∃ id, event.number? current = some (numeral id) ∧ current.2.nextId ≤ id ∧
        (event.apply current).2.nextId = id + 1 := by
  obtain ⟨store, state⟩ := current
  cases event with
  | change c => exact .inl ⟨rfl, rfl⟩
  | request r =>
    cases hasked : asksNumber r with
    | false => exact .inl ⟨by simp [number?, hasked], nextId_resolve hasked store state⟩
    | true =>
      obtain ⟨generator, parameter, field⟩ := r
      simp only [asksNumber, Bool.and_eq_true, decide_eq_true_eq, Option.isNone_iff_eq_none]
        at hasked
      obtain ⟨⟨rfl, rfl⟩, hfield⟩ := hasked
      refine .inr ⟨freshId store state.nextId, ?_, (freshId_spec store state.nextId).1.le, ?_⟩
      · simp [number?, asksNumber, hfield, resolve_newId]
      · simp [apply, resolve_newId hfield]

theorem numbers_increasing (events : List Event) (current : Store × StandardState) :
    ∃ ids : List Nat, numbers events current = ids.map numeral ∧ ids.Pairwise (· < ·) ∧
      ∀ id ∈ ids, current.2.nextId ≤ id := by
  induction events generalizing current with
  | nil => exact ⟨[], rfl, .nil, by simp⟩
  | cons event events ih =>
    obtain ⟨ids, hids, hincreasing, hfrom⟩ := ih (event.apply current)
    rcases event.number?_cases current with ⟨hnone, hnext⟩ | ⟨id, hsome, hle, hnext⟩
    · rw [hnext] at hfrom
      exact ⟨ids, by rw [numbers, hnone, hids]; rfl, hincreasing, hfrom⟩
    · rw [hnext] at hfrom
      refine ⟨id :: ids, by rw [numbers, hsome, hids]; rfl, .cons hfrom hincreasing, ?_⟩
      rintro other (_ | ⟨_, hmem⟩)
      · exact hle
      · exact (hle.trans (Nat.le_succ id)).trans (hfrom other hmem)

/-! ## Numbers of a store -/

/-- How the generators number the nodes of a store. -/
structure NumbersFreshly (store : Store) (state : StandardState) : Prop where
  /-- A request in the place of a name is answered with the least number from the counter on that
  names no node. The search passes over no more numbers than there are names. -/
  answer : ∀ field : Field, field.isName = true → ∃ id,
    Resolver.standard.resolve ⟨.newId, none, field⟩ store state =
      (some (numeral id), { state with nextId := id + 1 }) ∧
    IsLeast {n | state.nextId ≤ n ∧ ∀ i node, store.Reached i node → node.name ≠ numeral n} id ∧
    Search store state.nextId id ∧ id ≤ state.nextId + store.index.size
  /-- From one request to the next the numbers increase, and no text is answered twice. -/
  increasing : ∀ events : List Event, ∃ ids : List Nat,
    numbers events (store, state) = ids.map numeral ∧ ids.Pairwise (· < ·) ∧
      (numbers events (store, state)).Nodup

/-- Whatever has been changed before and whatever the counter is, numbers are given freshly. -/
theorem numbersFreshly_run (changes : List Change) (state : StandardState) :
    NumbersFreshly (Change.run changes) state where
  answer := by
    intro field hfield
    obtain ⟨hfirst, hbound⟩ := freshId_spec (Change.run changes) state.nextId
    exact ⟨_, resolve_newId hfield _ state, hfirst.isLeast (Change.coherent_run changes),
      hfirst.search, hbound⟩
  increasing := by
    intro events
    obtain ⟨ids, hids, hincreasing, _⟩ := numbers_increasing events (Change.run changes, state)
    refine ⟨ids, hids, hincreasing, ?_⟩
    rw [hids]
    exact List.Nodup.map numeral_injective (hincreasing.imp Nat.ne_of_lt)

/-- Taken numbers are passed over, and those of deleted nodes are not given again. -/
example :
    numbers [.request ⟨.newId, none, .selectedName⟩,
      .change (.insertOrGetChild Store.root "1" ""), .change (.insertOrGetChild ⟨1⟩ "2" ""),
      .request ⟨.newId, none, .childName 0⟩, .change (.deleteChild Store.root "1"),
      .request ⟨.newId, none, .selectedName⟩]
      (Store.empty, ⟨0, Draws.ofSeed 0, ⟨2000, 1, 1⟩, ⟨0, 0, 0⟩⟩) = ["0", "3", "4"] := by
  decide +kernel

end TreeDatabase.Standard
