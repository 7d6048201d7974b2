import BuildGraph.Proofs.Definition.Acceptance
import BuildGraph.Proofs.Definition.Marshalable
import BuildGraph.Proofs.Definition.Search

/-!
# What a definition lists

The definition of an output has one operation for each vertex that the output needs, in the order of the graph
(`Definition.Lists`). The vertices are those that a search from the output finds. A reference is to the operation of
the vertex that is read, which is listed in front, and the last operation is that of the output itself.
-/

namespace BuildGraph

/-- Of ascending numbers the greatest is the last. -/
theorem getLast?_of_ascending {l : List Nat} (h : l.Pairwise (· < ·)) {m : Nat} (hm : m ∈ l)
    (hgreatest : ∀ x ∈ l, x ≤ m) : l.getLast? = some m := by
  cases l using List.reverseRecOn with
  | nil => cases hm
  | append_singleton init last =>
      rw [List.getLast?_concat, Option.some.injEq]
      rcases List.mem_append.1 hm with hm | hm
      · have hlt := (List.pairwise_append.1 h).2.2 m hm last (List.mem_singleton_self _)
        have hle := hgreatest last (List.mem_append_right _ (List.mem_singleton_self _))
        omega
      · exact (List.mem_singleton.1 hm).symm

/-- An operation is found by its digest if the digests differ. -/
theorem op?_digest {d : Definition} (h : (d.ops.map (·.digest)).Nodup) {e : DefinitionOp} (he : e ∈ d.ops) :
    d.op? e.digest = some e := by
  rw [Definition.op?]
  obtain ⟨e', he'⟩ : ∃ e', d.ops.find? (·.digest == e.digest) = some e' :=
    Option.isSome_iff_exists.1 (List.find?_isSome.2 ⟨e, he, beq_self_eq_true _⟩)
  have hdigest : e'.digest = e.digest := eq_of_beq (List.find?_some he' :)
  rw [he', List.inj_on_of_nodup_map h (List.mem_of_find?_eq_some he') he hdigest]

/-- The operations of a definition stand for vertices in ascending order, one for each that an output needs. -/
structure Definition.Lists (d : Definition) (g : Graph) (o : Output) (vertices : List Nat) : Prop where
  ascending : vertices.Pairwise (· < ·)
  mem_iff : ∀ m, m ∈ vertices ↔ g.Needs o.vertex m
  length_eq : d.ops.length = vertices.length
  /-- Inputs refer to what stands for the inputs of the vertex, further in front. -/
  op : ∀ (k vertex : Nat) (e : DefinitionOp), vertices[k]? = some vertex → d.ops[k]? = some e →
    ∃ v, g.vertex? vertex = some v ∧ e.op = v.op ∧ e.digest = e.computeDigest ∧
      List.Forall₂ (fun i r => ∃ j < k, ∃ p, vertices[j]? = some i.vertex ∧ d.ops[j]? = some p ∧
        r = ⟨p.digest, i.index⟩) v.inputs e.inputs
  root : ∃ top, vertices.getLast? = some o.vertex ∧ d.ops.getLast? = some top ∧
    d.root = some ⟨top.digest, o.index⟩
  /-- A digest leads back to the operation. -/
  found : CollisionFree d.encodings → ∀ e ∈ d.ops, d.op? e.digest = some e

namespace Graph

variable {g : Graph}

/-- What is emitted in some position fits its vertex, and refers to what is emitted further in front. -/
theorem Emission.at_position {done : Emitted} (h : g.Emission done) {k vertex : Nat} {e : DefinitionOp}
    (hk : done[k]? = some (vertex, e)) :
    ∃ v refs, g.vertex? vertex = some v ∧ e = .ofBody refs v.op ∧
      List.Forall₂ (fun i r => ∃ j < k, ∃ p, done[j]? = some (i.vertex, p) ∧ r = ⟨p.digest, i.index⟩)
        v.inputs refs := by
  induction h with
  | nil => cases hk
  | @snoc done last v refs h hv hvalid hrefs ih =>
      rw [List.getElem?_append] at hk
      split at hk
      · rename_i hlt
        obtain ⟨w, refs', hw, he, hrefs'⟩ := ih hk
        refine ⟨w, refs', hw, he, hrefs'.imp ?_⟩
        rintro i r ⟨j, hj, p, hp, hr⟩
        exact ⟨j, hj, p, by rw [List.getElem?_append_left (Nat.lt_trans hj hlt), hp], hr⟩
      · rename_i hge
        have hlast : k = done.length := by
          have hbound := (List.getElem?_eq_some_iff.1 hk).1
          rw [List.length_singleton] at hbound
          omega
        rw [hlast, Nat.sub_self, List.getElem?_cons_zero, Option.some.injEq, Prod.mk.injEq] at hk
        obtain ⟨rfl, rfl⟩ := hk
        refine ⟨v, refs, hv, rfl, hrefs.imp fun i r hr => ?_⟩
        obtain ⟨p, hp, rfl⟩ := inputRef_eq_ok_iff.1 hr
        obtain ⟨j, hj⟩ := List.mem_iff_getElem?.1 (mem_of_lookup hp)
        have hlt := (List.getElem?_eq_some_iff.1 hj).1
        exact ⟨j, hlast ▸ hlt, p, by rw [List.getElem?_append_left hlt, hj], rfl⟩

/-- What stands for the output itself is emitted last. -/
theorem Emission.getLast? {emitted : Emitted} (hg : g.Sound) {vertex : Nat} {top : DefinitionOp}
    (hsorted : (emitted.map (·.1)).Pairwise (· < ·)) (hneeds : ∀ m, m ∈ emitted.map (·.1) ↔ g.Needs vertex m)
    (htop : emitted.lookup vertex = some top) : emitted.getLast? = some (vertex, top) := by
  have hvertex := getLast?_of_ascending hsorted ((hneeds vertex).2 .refl) fun m hm => ((hneeds m).1 hm).le hg
  rw [List.getLast?_map, Option.map_eq_some_iff] at hvertex
  obtain ⟨⟨_, e⟩, hlast, rfl⟩ := hvertex
  have hnodup : (emitted.map (·.1)).Nodup := hsorted.imp fun hlt => Nat.ne_of_lt hlt
  rw [(lookup_eq_some_iff_mem hnodup).2 (List.mem_of_getLast? hlast)] at htop
  rw [hlast, Option.some.inj htop]

/-- The definition of an output lists the vertices that are reachable from it. -/
theorem lists_of_marshal (hg : g.Sound) {s : State} {o : Output} (hs : s.output = some o) {platform : Platform}
    {d : Definition} (hd : marshal g s platform = .ok d) {vertices : List Nat}
    (hvertices : reachable g o.vertex = .ok vertices) : d.Lists g o vertices := by
  have hwellFormed := wellFormed_marshal hg hd
  obtain ⟨ho, emitted, top, hemission, hreachable, htop, rfl⟩ := emission_of_marshal hs hd
  obtain rfl := Except.ok.inj (hreachable.symm.trans hvertices)
  obtain ⟨found, hfound, hsorted, hneeds⟩ := reachable_eq_ok hg ho.lt_size
  obtain rfl := Except.ok.inj (hfound.symm.trans hvertices)
  have hlast := Emission.getLast? hg hsorted hneeds htop
  refine
    { ascending := hsorted
      mem_iff := hneeds
      length_eq := ?_
      op := ?_
      root := ⟨top, ?_, ?_, rfl⟩
      found := fun hc e he => op?_digest (hwellFormed hc).ops.nodup he }
  · rw [List.length_map, List.length_map]
  · intro k vertex e hvertex he
    have hk : emitted[k]? = some (vertex, e) := by
      rw [List.getElem?_map, Option.map_eq_some_iff] at hvertex he
      obtain ⟨p, hp, rfl⟩ := hvertex
      obtain ⟨p', hp', rfl⟩ := he
      rw [hp, Option.some.inj (hp.symm.trans hp')]
    obtain ⟨v, refs, hv, rfl, hrefs⟩ := hemission.at_position hk
    refine ⟨v, hv, rfl, rfl, hrefs.imp ?_⟩
    rintro i r ⟨j, hj, p, hp, rfl⟩
    refine ⟨j, hj, p, ?_, ?_, rfl⟩
    · rw [List.getElem?_map, hp]
      rfl
    · rw [List.getElem?_map, hp]
      rfl
  · rw [List.getLast?_map, hlast]
    rfl
  · rw [List.getLast?_map, hlast]
    rfl

end Graph

/-- To marshal never meets a vertex that is not there. What an output of the graph needs is found by a search that
ends, and its definition lists just that, in ascending order; without a definition, an operation is invalid. -/
theorem marshal_lists {g : Graph} (hg : g.Reachable) {s : State} {o : Output} (hs : s.output = some o)
    (platform : Platform) :
    (∀ vertex, marshal g s platform ≠ .error (.unknownVertex vertex)) ∧
      (g.HasOutput o → ∃ vertices found, reachable g o.vertex = .ok vertices ∧
        g.search [] [o.vertex] = .ok found ∧ found.Perm vertices ∧
        (∀ d, marshal g s platform = .ok d → d.Lists g o vertices) ∧
        ∀ e, marshal g s platform = .error e → e.IsInvalidOp) := by
  have hsound := hg.sound
  have herror : g.HasOutput o → ∀ e, marshal g s platform = .error e → e.IsInvalidOp := by
    intro ho e he
    rcases Graph.marshal_cases hsound hs ho platform with ⟨d, hd⟩ | ⟨m, v, reason, -, -, -, hinvalid⟩
    · rw [hd] at he
      cases he
    · exact ⟨_, _, _, Except.error.inj (he.symm.trans hinvalid)⟩
  constructor
  · intro vertex hvertex
    by_cases ho : g.HasOutput o
    · obtain ⟨kind, description, reason, hkind⟩ := herror ho _ hvertex
      cases hkind
    · cases hcheck : g.check s with
      | ok _ => exact ho ((g.check_eq_ok_iff s).1 hcheck o hs)
      | error e =>
          rw [marshal_of_refused hcheck] at hvertex
          cases hvertex
  · intro ho
    obtain ⟨vertices, found, hreachable, hfound, hperm, -⟩ := Graph.search_perm_reachable hsound ho.lt_size
    exact ⟨vertices, found, hreachable, hfound, hperm, fun d hd => Graph.lists_of_marshal hsound hs hd hreachable,
      herror ho⟩

/-- What a process made over an image is copied back to the image, which is needed twice then. The local directory
is not needed. -/
def sharingGraph : Graph :=
  [Call.image "alpine", .localDir "src", .exec (sampleState 0 0) (.ofArgs ["make"]),
    .copy (sampleState 2 0) "/out" (sampleState 0 0) "/" .plain].foldl Call.next (.empty ⟨0⟩)

theorem marshal_lists_sharing :
    ∃ found d, reachable sharingGraph 3 = .ok [0, 2, 3] ∧ sharingGraph.search [] [3] = .ok found ∧
      found.Perm [0, 2, 3] ∧ marshal sharingGraph (sampleState 3 0) .target = .ok d ∧
      d.Lists sharingGraph ⟨⟨0⟩, 3, 0⟩ [0, 2, 3] := by
  have hreachable : sharingGraph.Reachable := (Graph.Reachable.empty ⟨0⟩).calls _
  have hout : sharingGraph.HasOutput ⟨⟨0⟩, 3, 0⟩ :=
    (sharingGraph.check_eq_ok_iff (sampleState 3 0)).1 rfl _ rfl
  have hvertices : reachable sharingGraph 3 = .ok [0, 2, 3] := rfl
  obtain ⟨-, hlists⟩ := marshal_lists hreachable (s := sampleState 3 0) rfl .target
  obtain ⟨vertices, found, hfound, hsearch, hperm, hdefinition, -⟩ := hlists hout
  obtain rfl := Except.ok.inj (hvertices.symm.trans hfound)
  obtain ⟨d, hd⟩ : ∃ d, marshal sharingGraph (sampleState 3 0) .target = .ok d := exists_eq_ok (by decide +kernel)
  exact ⟨found, d, hvertices, hsearch, hperm, hd, hdefinition d hd⟩

end BuildGraph
