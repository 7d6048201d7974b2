import BuildGraph.Export.Merged
import BuildGraph.Proofs.Definition.Marshalable
import BuildGraph.Proofs.Graph.Follows
import BuildGraph.Proofs.Graph.Inputs
import BuildGraph.Proofs.Op.Valid

/-!
# What a merge consists of

A merge of states that stand for unfoldings succeeds. Each state has a place among the inputs, in the order of the
states and the same one for states with the same output (`forall₂_slots`), and there are no other inputs. So what is
built is an overlay of the unfoldings (`Unfolding.Overlay`), and it is valid just if all of them are. A single state
is its own merge.
-/

namespace BuildGraph

/-- Filesystems laid over each other, the last one on top. A single one is left as it is. Several are put together by
a merge that reads them and nothing else, none more often than it occurs, and has one reference for each of them. -/
inductive Unfolding.Overlay : Unfolding → List Unfolding → Prop
  | single (u : Unfolding) : Overlay u [u]
  | merge {overlays : List Nat} {ws us : List Unfolding} (hmany : 1 < us.length)
      (hoverlays : List.Forall₂ (fun index u => ws[index]? = some u) overlays us) (hreads : ∀ w ∈ ws, w ∈ us)
      (hfew : ws.length ≤ us.length) : Overlay (.node (.merge ⟨overlays⟩) 0 ws) us

/-- A merge of filesystems refers to inputs that it has, and to one at least, so nothing is wrong with it unless
something is wrong with one of them. -/
theorem Unfolding.Overlay.valid_iff {u : Unfolding} {us : List Unfolding} (h : u.Overlay us) :
    u.Valid ↔ ∀ w ∈ us, w.Valid := by
  cases h with
  | single => simp
  | @merge overlays ws _ hmany hoverlays hreads _ =>
      rw [Unfolding.valid_node_iff]
      constructor
      · rintro ⟨-, hall⟩ w hw
        obtain ⟨index, -, hindex⟩ := exists_of_mem_right hoverlays hw
        exact hall w (List.mem_of_getElem? hindex)
      · intro hall
        refine ⟨?_, fun w hw => hall w (hreads w hw)⟩
        change Op.validateMerge ws.length ⟨overlays⟩ = .ok ()
        refine refuse_eq_ok_iff.2 ⟨fun hnil => ?_, forM_eq_ok_iff.2 fun index hindex => ?_⟩
        · have hlength := hoverlays.length_eq
          rw [show overlays = [] from hnil, List.length_nil] at hlength
          omega
        · obtain ⟨u, -, hu⟩ := exists_of_mem_left hoverlays hindex
          exact Op.checkIndex_eq_ok_iff.2 (List.getElem?_eq_some_iff.1 hu).1

namespace Build

/-- The inputs of a merge come about in the ways of the states, each where its state has its place. -/
theorem exists_shows_mergeVertex {g : Graph} {states : List State} {us : List Unfolding}
    (h : List.Forall₂ g.Stands states us) :
    ∃ ws, List.Forall₂ g.Shows (mergeVertex states).inputs ws ∧
      List.Forall₂ (fun index u => ws[index]? = some u) (slots [] states).1 us ∧ (∀ w ∈ ws, w ∈ us) ∧
      ws.length ≤ us.length := by
  have hmem : ∀ o ∈ (mergeVertex states).inputs, ∃ s ∈ states, s.output = some o := by
    intro o ho
    exact (mem_slots ho).resolve_left List.not_mem_nil
  have hshown : ∀ o ∈ (mergeVertex states).inputs, ∃ u, g.Shows o u := by
    intro o ho
    obtain ⟨s, hs, hso⟩ := hmem o ho
    obtain ⟨u, -, o', hso', hshows⟩ := exists_of_mem_left h hs
    exact ⟨u, Option.some.inj (hso.symm.trans hso') ▸ hshows⟩
  obtain ⟨ws, hws⟩ := exists_forall₂ hshown
  refine ⟨ws, hws, ?_, fun w hw => ?_, ?_⟩
  · have houtput : ∀ s ∈ states, ∃ o, s.output = some o := by
      intro s hs
      obtain ⟨u, -, o, ho, -⟩ := exists_of_mem_left h hs
      exact ⟨o, ho⟩
    refine (forall₂_comp (forall₂_slots houtput []) h).imp ?_
    rintro index u ⟨s, ⟨o, ho, hindex⟩, o', ho', hshows⟩
    obtain rfl := Option.some.inj (ho.symm.trans ho')
    obtain ⟨w, hw, how⟩ := exists_of_getElem? hws hindex
    rw [hw, Option.some.inj (how.unfold.symm.trans hshows.unfold)]
  · obtain ⟨o, ho, how⟩ := exists_of_mem_right hws hw
    obtain ⟨s, hs, hso⟩ := hmem o ho
    obtain ⟨u, hu, o', hso', hshows⟩ := exists_of_mem_left h hs
    obtain rfl := Option.some.inj (hso.symm.trans hso')
    obtain rfl := Option.some.inj (how.unfold.symm.trans hshows.unfold)
    exact hu
  · have hlength := length_slots [] states
    rw [List.length_nil, Nat.zero_add, h.length_eq] at hlength
    exact hws.length_eq ▸ hlength

/-- States that stand for unfoldings can be merged into an overlay of them. -/
theorem exists_merge {g : Graph} (hg : g.Sound) {states : List State} {us : List Unfolding} (hne : us ≠ [])
    (h : List.Forall₂ g.Stands states us) :
    ∃ s g' u, (merge states).run g = (.ok s, g') ∧ g'.Sound ∧ g'.Stands s u ∧ u.Overlay us := by
  have hlayers : layersOf states = states := by
    refine List.filter_eq_self.2 fun s hs => ?_
    obtain ⟨u, -, o, ho, -⟩ := exists_of_mem_left h hs
    simp [State.isScratch, ho]
  have hcheck : states.forM g.check = .ok () := by
    refine forM_eq_ok_iff.2 fun s hs => ?_
    obtain ⟨u, -, hu⟩ := exists_of_mem_left h hs
    exact hu.check
  have hrun := run_merge states g
  rw [hlayers] at hrun
  match states, us, h with
  | [], _, .nil => exact absurd rfl hne
  | [s], [u], .cons hs .nil =>
      refine ⟨s, g, u, ?_, hg, hs, .single u⟩
      rw [hrun, acceptLayers, hs.check]
      rfl
  | s :: t :: states, us, h =>
      obtain ⟨ws, hws, hoverlays, hreads, hfew⟩ := exists_shows_mergeVertex h
      have hrun : (merge (s :: t :: states)).run g = g.accept (.ok ()) (mergeVertex (s :: t :: states)) fun vertex =>
          .ofOutput (g.output vertex 0) := by
        rw [hrun, ← hcheck]
        rfl
      obtain ⟨merged, g', hmerged, -, hg', -, vertex, rfl, -, hshows, -⟩ :=
        (follows_accept hg hrun hws Nat.one_pos ()).exists_run_eq_ok
      have hmany : 1 < us.length := by
        rw [← h.length_eq, List.length_cons, List.length_cons]
        omega
      exact ⟨_, g', _, hmerged, hg', ⟨_, rfl, hshows 0 Nat.one_pos⟩, .merge hmany hoverlays hreads hfew⟩

end Build

end BuildGraph
