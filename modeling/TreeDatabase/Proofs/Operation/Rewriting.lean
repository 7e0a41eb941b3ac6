import TreeDatabase.Proofs.Operation.Removal
import TreeDatabase.Proofs.Operation.Settled
import TreeDatabase.Proofs.Ruleset.Conformance
import TreeDatabase.Proofs.Store.Listing
import TreeDatabase.Proofs.Store.Patterns

/-!
# Writing again

A write with a path writes below nodes of one depth. Whether any other node of this depth passes the
filter is as it was, so that the same write finds no new places afterwards. At those that it finds,
all that it asks for is there, and breaks no rule as it broke none before.
-/

namespace TreeDatabase

open Ruleset Store

namespace Store

variable {s t : Store} {ws : List NodeWrite} {depth : Nat} {tops : NodeId → Prop}

/-- All that is written lies below some nodes of one depth. -/
def StaysBelow (t : Store) (depth : Nat) (tops : NodeId → Prop) (ws : List NodeWrite) : Prop :=
  ∀ w ∈ ws, ∃ top names, tops top ∧ t.Leads names top ∧ names.length = depth ∧
    t.Below top w.parent

namespace Writes

theorem depth_lt (hw : s.Writes ws t) (h : Coherent s) (hb : t.StaysBelow depth tops ws)
    {w : NodeWrite} (hmem : w ∈ ws) {names : List String} (hl : t.Leads names w.id) :
    depth < names.length := by
  have ht := hw.coherent h
  obtain ⟨top, above, _, habove, rfl, hbelow⟩ := hb w hmem
  obtain ⟨below, hparent⟩ := ht.leads_of_below habove hbelow
  have hid := ht.leads_child_iff.mpr ⟨w.parent, hparent, hw.child?_of_mem hmem⟩
  rw [ht.leads_unique hl hid]
  simp only [List.length_append, List.length_singleton]
  omega

/-- A node that is no deeper was there before. -/
theorem leads_back (hw : s.Writes ws t) (h : Coherent s) (hb : t.StaysBelow depth tops ws)
    {names : List String} {id : NodeId} (hl : t.Leads names id) (hlength : names.length ≤ depth) :
    s.Leads names id := by
  have ht := hw.coherent h
  obtain ⟨m, hm, _⟩ := ht.path_of_leads hl
  rcases hw.value h hm with ⟨_, n, hn, _, hpath, _⟩ | ⟨w, hmem, rfl, _⟩
  · exact (h.leads_congr ht hn hm hpath names).mp hl
  · exact absurd (hw.depth_lt h hb hmem hl) (by omega)

/-- Whether a node of this depth passes a filter is as it was, unless it is one of those below which
was written. -/
theorem passes_eq (hw : s.Writes ws t) (h : Coherent s) (hb : t.StaysBelow depth tops ws)
    {names : List String} {id : NodeId} (hl : t.Leads names id) (hlength : names.length = depth)
    (hid : ¬ tops id) (filter : Filter) : t.passes filter id = s.passes filter id := by
  have ht := hw.coherent h
  have huntouched : ∀ j, t.Below id j → t.get? j = s.get? j := by
    intro j hj
    refine hw.untouched fun w hmem => ?_
    obtain ⟨top, above, htop, habove, hdepth, hbelow⟩ := hb w hmem
    have hnot : ¬ t.Below top j := fun hj' =>
      hid (ht.eq_of_below hl habove (hlength.trans hdepth.symm) hj hj' ▸ htop)
    obtain ⟨n, _, hn, hc, _⟩ := ht.child?_iff.mp (hw.child?_of_mem hmem)
    exact ⟨fun he => hnot (he ▸ hbelow.child hn hc), fun he => hnot (he ▸ hbelow)⟩
  refine (ht.passes_congr (fun j hj => ?_) (fun j hj _ => ?_) filter).symm
  · rw [children, children, huntouched j hj]
  · rw [huntouched j hj]

end Writes

end Store

namespace Statement

variable {s : Statement} {store t : Store} {ws : List NodeWrite}

/-! ## The same places -/

theorem Requested.staysBelow
    (hr : s.Requested store ((s.candidateParents store).map Prod.snd) ws) (hverb : s.verb = .write)
    (hparents : s.parents ≠ []) (h : store.Coherent) (hw : store.Writes ws t) :
    t.StaysBelow (behindRoot s.parents).length (s.IsParent store) ws := by
  have ht := hw.coherent h
  have htarget : ∀ w, s.IsTarget store ((s.candidateParents store).map Prod.snd) w →
      s.IsParent store w.parent ∧ ∃ names, t.Leads names w.parent ∧
        names.length = (behindRoot s.parents).length := by
    intro w hw'
    obtain ⟨names, hl, hlength⟩ := leads_of_mem_candidateParents h hparents hw'.parent
    exact ⟨(mem_candidateParents_of_path hverb hparents).mp hw'.parent, names,
      hw.leads_kept h hl, hlength⟩
  intro w hmem
  rcases hr w hmem with hw' | ⟨w', hmem', hw', hparent, _⟩
  · obtain ⟨htop, names, hl, hlength⟩ := htarget w hw'
    exact ⟨w.parent, names, htop, hl, hlength, .self⟩
  · obtain ⟨htop, names, hl, hlength⟩ := htarget w' hw'
    obtain ⟨n, _, hn, hc, _⟩ := ht.child?_iff.mp (hw.child?_of_mem hmem')
    exact ⟨w'.parent, names, htop, hl, hlength, hparent ▸ Below.self.child hn hc⟩

/-- No parent is new. -/
theorem IsParent.of_writes (h : store.Coherent) (hw : store.Writes ws t)
    (hb : t.StaysBelow (behindRoot s.parents).length (s.IsParent store) ws) {parent : NodeId}
    (hp : s.IsParent t parent) : s.IsParent store parent := by
  by_contra hnot
  have ht := hw.coherent h
  obtain ⟨⟨path, hmem⟩, hpasses⟩ := hp
  obtain ⟨hroot, hfinds, m, hm, _⟩ := ht.mem_resolvePath_iff.mp hmem
  obtain ⟨⟨names, hl, hfits⟩, hrules⟩ := ht.finds_iff.mp hfinds
  have hlength := hfits.length_eq.symm
  have hl' := hw.leads_back h hb hl (Nat.le_of_eq hlength)
  obtain ⟨n, hn, hpath⟩ := h.path_of_leads hl'
  have hsame : m.path = n.path := (ht.path_eq_of_leads hl hm).trans hpath.symm
  have hfound : store.Finds s.includesRules (behindRoot s.parents) parent :=
    h.finds_iff.mpr
      ⟨⟨names, hl', hfits⟩, hrules.imp_right (mt (h.underRules_congr ht hn hm hsame).mpr)⟩
  refine hnot ⟨⟨n.path, h.mem_resolvePath_iff.mpr ⟨hroot, hfound, n, hn, rfl⟩⟩, ?_⟩
  rw [← hw.passes_eq h hb hl hlength hnot]
  exact hpasses

/-- No place is new. -/
theorem Admitted.places_subset (ha : s.Admitted) (hverb : s.verb = .write)
    (hparents : s.parents ≠ []) (h : store.Coherent) (hshape : store.RuleShape)
    (hw : store.Writes ws t)
    (hr : s.Requested store ((s.candidateParents store).map Prod.snd) ws) :
    s.places t ((s.candidateParents t).map Prod.snd) ⊆
      s.places store ((s.candidateParents store).map Prod.snd) := by
  have ht := hw.coherent h
  have hshape' : t.RuleShape := hw.ruleShape_of_outside h hshape fun w hmem =>
    (ha.writes_outside hverb h hshape hw hr w hmem).imp_right And.left
  have hb := hr.staysBelow hverb hparents h hw
  rintro ⟨parent, name⟩ hplace
  obtain ⟨hparent, hselects⟩ := (ha.mem_places_iff hverb hparents ht hshape').mp hplace
  have hparent' := hparent.of_writes h hw hb
  by_cases hwild : s.selectedName = Vocabulary.wildcard
  · rw [Selects, if_pos hwild] at hselects
    obtain ⟨c, hc, hout⟩ := hselects
    obtain ⟨m, hm, _⟩ := ht.child?_iff_parent.mp hc
    rcases hw.value h hm with ⟨_, n, hn, _, hpath, _⟩ | ⟨w, hmem, rfl, _⟩
    · refine (ha.mem_places_iff hverb hparents h hshape).mpr ⟨hparent', ?_⟩
      rw [Selects, if_pos hwild]
      exact ⟨c, hw.child?_back h hc hn, mt (h.underRules_congr ht hn hm hpath).mpr hout⟩
    · obtain ⟨rfl, rfl⟩ := ht.child?_inj hc (hw.child?_of_mem hmem)
      rcases hr w hmem with htarget | ⟨w', hmem', _, hid, _⟩
      · exact Statement.mem_places_iff.mpr ⟨htarget.parent, htarget.name⟩
      · -- a child of a target is deeper than the children of the parents
        obtain ⟨names, hl, hlength⟩ := leads_of_mem_candidateParents h hparents
          ((mem_candidateParents_of_path hverb hparents).mpr hparent')
        have hlt := hw.depth_lt h hb hmem' (hid ▸ hw.leads_kept h hl)
        omega
  · refine (ha.mem_places_iff hverb hparents h hshape).mpr ⟨hparent', ?_⟩
    rw [Selects, if_neg hwild] at hselects ⊢
    exact hselects

end Statement

/-! ## The same check -/

namespace Store

variable {s t : Store} {w : NodeWrite}

/-- Where it is there already, the value that is foreseen is the one that is there. -/
theorem Settled.valueOf?_eq (hs : t.Settled w.request) :
    t.valueOf? w.parent w.name = some (t.pending w).value := by
  obtain ⟨v, hv, hsame⟩ := hs
  have hcurrent : ((t.child? w.parent w.name).bind t.get?).map (·.value) = some v := hv
  have hforeseen : (t.pending w).value = w.value.getD v := by
    rw [pending, NodeWrite.request, foreseen]
    dsimp only
    rw [hcurrent]
    rfl
  rw [hforeseen]
  exact hv.trans (congrArg some hsame).symm

end Store

namespace Ruleset

variable {store t : Store}

/-- A value that broke no rule breaks none under the same rules when it is there already. -/
theorem pendingViolations_of_unchanged {batch again : List PendingWrite}
    {node node' : PendingWrite} (hname : node'.name = node.name)
    (hvalue : node'.value = node.value) (hrules : t.rulesFor node.name = store.rulesFor node.name)
    (hthere : (node'.existing.bind t.get?).any (·.value == node'.value) = true)
    (hnone : pendingViolations store batch node = []) : pendingViolations t again node' = [] := by
  have hcollides : collides t again node' = false := by
    rw [collides, hthere]
    rfl
  rw [pendingViolations] at hnone ⊢
  rw [hname, hrules]
  dsimp only at hnone ⊢
  split at hnone
  · next hempty => rw [if_pos hempty]
  · next hempty =>
    rw [if_neg hempty, List.filterMap_eq_nil_iff]
    intro kind hkind
    have hold := List.filterMap_eq_nil_iff.mp hnone kind hkind
    cases kind with
    | unique =>
      rw [valueViolation?, hcollides]
      split <;> rfl
    | type | max | min | required | key => simpa [valueViolation?, hname, hvalue] using hold

/-- Writes that broke no rule break none when part of them is done once more. -/
theorem writeViolations_of_settled {ws again : List NodeWrite} (h : store.Coherent)
    (hw : store.Writes ws t) (hids : (ws.map (·.id)).Nodup)
    (houtside : ∀ w ∈ ws, ¬ t.UnderRules w.parent)
    (hnone : writeViolations store (ws.map store.pending) = [])
    (hsub : again.map (·.request) ⊆ ws.map (·.request)) :
    writeViolations t (again.map t.pending) = [] := by
  suffices hall : ∀ node ∈ again.map t.pending,
      pendingViolations t (again.map t.pending) node = [] by
    rw [writeViolations, List.flatMap_eq_nil_iff.mpr hall]
    rfl
  intro node hnode
  obtain ⟨w, hmem, rfl⟩ := List.mem_map.mp hnode
  obtain ⟨w', hmem', hrequest⟩ := List.mem_map.mp (hsub (List.mem_map_of_mem hmem))
  have hsettled : t.Settled w.request := hrequest ▸ hw.settled h hids hmem'
  obtain ⟨hparent, hname⟩ : w'.parent = w.parent ∧ w'.name = w.name := by
    rw [NodeWrite.request, NodeWrite.request, Prod.mk.injEq, Prod.mk.injEq] at hrequest
    exact ⟨hrequest.1, hrequest.2.1⟩
  have hpending : (t.pending w).name = (store.pending w').name := by
    rw [name_pending, name_pending, hname]
  have hcurrent := hsettled.valueOf?_eq
  have hvalue : (t.pending w).value = (store.pending w').value := by
    have hwritten := hw.valueOf?_of_nodup h hids hmem'
    rw [hparent, hname, hcurrent] at hwritten
    exact Option.some.inj hwritten
  have hrules : t.rulesFor (store.pending w').name = store.rulesFor (store.pending w').name := by
    rw [rulesFor_eq, rulesFor_eq, name_pending]
    simp only [persisted?_of_outside h hw houtside (hw.isNodeName_of_mem h hmem')]
  refine pendingViolations_of_unchanged hpending hvalue hrules ?_
    (pendingViolations_eq_nil hnone _ (List.mem_map_of_mem hmem'))
  obtain ⟨n, hfound, hn⟩ := Option.map_eq_some_iff.mp hcurrent
  have hexisting : (t.pending w).existing.bind t.get? = some n := hfound
  rw [hexisting, Option.any_some, hn, beq_self_eq_true]

end Ruleset

/-! ## The same write -/

namespace Statement

variable {s : Statement} {store t : Store}

/-- A write with a path that is not refused is not refused afterwards, either, and then changes
nothing. -/
theorem Admitted.write_again (ha : s.Admitted) (hverb : s.verb = .write) (hparents : s.parents ≠ [])
    (hchildren : s.childNames.Nodup) (h : store.Coherent) (hshape : store.RuleShape)
    {response : Response} (hok : s.write store = .ok (t, response))
    (hnone : writeViolations store
      (s.planWrites store ((s.candidateParents store).map Prod.snd)) = []) :
    ∃ again, s.write t = .ok (t, again) ∧ again.isError = false ∧ again.changed = false := by
  obtain ⟨q, ws, hq, hprogress, hlists, hpending, hids⟩ :=
    ha.writeUnchecked_spec hparents hchildren h
  obtain rfl : q.store = t := by
    rw [write_of_writeViolations hnone, hq] at hok
    cases hok
    rfl
  have hw := hprogress.writes
  have ht := hw.coherent h
  have hrequested := hlists.requested (List.Subset.refl _)
  have hsub := ha.places_subset hverb hparents h hshape hw hrequested
  obtain ⟨r, hr, hidle⟩ := writeParents_of_settled (p := { store := q.store }) ht
    (fun place hplace => hlists.settledAt h hw hids (hsub hplace)) rfl
  have hstore : r.store = q.store := hidle.store
  obtain ⟨r', ws', hr', hprogress', hlists', hpending', _⟩ :=
    ha.writeUnchecked_spec hparents hchildren ht
  obtain rfl : r = r' := Except.ok.inj (hr.symm.trans hr')
  have hagain : writeViolations q.store
      (s.planWrites q.store ((s.candidateParents q.store).map Prod.snd)) = [] := by
    rw [← hpending']
    refine writeViolations_of_settled h hw hids
      (fun w hmem => (ha.writes_outside hverb h hshape hw hrequested w hmem).2.1)
      (hpending ▸ hnone) ?_
    rw [hlists.requests fun w hmem => hw.child?_of_mem hmem,
      hlists'.requests fun w hmem => hprogress'.writes.child?_of_mem hmem, hstore]
    intro request hrequest
    obtain ⟨place, hplace, hmem⟩ := List.mem_flatMap.mp hrequest
    exact List.mem_flatMap.mpr ⟨place, hsub hplace, hmem⟩
  refine ⟨.counted .write r.lines r.count r.changed, ?_,
    by simp [Response.counted, Response.isError], hidle.changed⟩
  rw [write_of_writeViolations hagain, hr', ← hstore]
  rfl

end Statement

end TreeDatabase
