import BuildGraph.Proofs.Definition.Emission

/-!
# What a digest stands for

An output of a graph unfolds to a tree: the operation of its vertex, the number of the output, and the unfoldings
of what the vertex reads. The tree says nothing of positions or of the graph, and what is shared in the graph is
repeated in it. An operation is listed under the digest of its own encoding, in which inputs are given by
digests, so what is listed for an output is a function of its unfolding (`Unfolding.ref`, `Unfolding.entries`).
The other way round a digest fixes an unfolding, unless SHA-256 collides (`Unfolding.ref_inj`).

So two states may come out of different graphs, with other calls in between and in another order: their
definitions have the same root just if the states unfold to the same tree, and then they list the same
operations (`unfold_eq_iff_root_eq`).
-/

namespace BuildGraph

/-- How an output came about: an operation, the number of the output, and how its inputs came about. -/
inductive Unfolding
  | node (op : Op) (index : Nat) (inputs : List Unfolding)

namespace Unfolding

/-- What holds of a node if it holds of its inputs holds of all unfoldings. -/
@[elab_as_elim, induction_eliminator]
theorem induct {motive : Unfolding → Prop}
    (node : ∀ op index inputs, (∀ u ∈ inputs, motive u) → motive (.node op index inputs)) (u : Unfolding) :
    motive u := by
  obtain ⟨op, index, inputs⟩ := u
  exact node op index inputs fun u _ => induct node u

def op : Unfolding → Op
  | node op _ _ => op

def index : Unfolding → Nat
  | node _ index _ => index

/-- The operation with its inputs as a definition lists it. -/
def entry : Unfolding → DefinitionOp
  | node op _ inputs => .ofBody (inputs.map fun u => ⟨u.entry.digest, u.index⟩) op

/-- The output as a definition refers to it. -/
def ref (u : Unfolding) : InputRef := ⟨u.entry.digest, u.index⟩

/-- What a definition lists for the output: its operation and all those below it. -/
def entries : Unfolding → List DefinitionOp
  | node op index inputs => (node op index inputs).entry :: inputs.flatMap entries

theorem entry_node (op : Op) (index : Nat) (inputs : List Unfolding) :
    (node op index inputs).entry = .ofBody (inputs.map ref) op := by
  rw [entry]
  rfl

theorem mem_entries_node {op : Op} {index : Nat} {inputs : List Unfolding} {e : DefinitionOp} :
    e ∈ (node op index inputs).entries ↔
      e = (node op index inputs).entry ∨ ∃ u ∈ inputs, e ∈ u.entries := by
  rw [entries, List.mem_cons, List.mem_flatMap]

theorem entry_mem_entries (u : Unfolding) : u.entry ∈ u.entries := by
  obtain ⟨op, index, inputs⟩ := u
  exact mem_entries_node.2 (.inl rfl)

/-- Where SHA-256 does not collide, the digest and the number of an output fix how it came about. -/
theorem ref_inj {texts : List (List UInt8)} (hc : CollisionFree texts) {u w : Unfolding}
    (hu : ∀ e ∈ u.entries, e.encoding ∈ texts) (hw : ∀ e ∈ w.entries, e.encoding ∈ texts)
    (h : u.ref = w.ref) : u = w := by
  induction u generalizing w with
  | node op index inputs ih =>
      obtain ⟨op', index', inputs'⟩ := w
      obtain ⟨hdigest, hindex⟩ := InputRef.mk.inj h
      rw [entry_node, entry_node] at hdigest
      have hu' := hu _ (entry_mem_entries _)
      have hw' := hw _ (entry_mem_entries _)
      rw [entry_node] at hu' hw'
      obtain ⟨hrefs, hop⟩ := body_eq_of_computeDigest_eq hc hu' hw' hdigest
      have hinputs : inputs = inputs' := by
        apply eq_of_map_eq hrefs
        intro v hv v' hv' href
        apply ih v hv _ _ href
        · exact fun e he => hu e (mem_entries_node.2 (.inr ⟨v, hv, he⟩))
        · exact fun e he => hw e (mem_entries_node.2 (.inr ⟨v', hv', he⟩))
      replace hop : op = op' := hop
      replace hindex : index = index' := hindex
      rw [hop, hindex, hinputs]

end Unfolding

namespace Graph

/-- How an output of a graph came about. Its inputs are outputs of vertices in front, as they are in a sound
graph. -/
def unfold (g : Graph) (o : Output) : Option Unfolding :=
  match g.vertex? o.vertex with
  | none => none
  | some v => do
    let inputs ← v.inputs.mapM fun i => if _h : i.vertex < o.vertex then unfold g i else none
    return .node v.op o.index inputs
termination_by o.vertex

variable {g : Graph}

theorem unfold_eq (hg : g.Sound) {o : Output} {v : Vertex} (hv : g.vertex? o.vertex = some v) :
    g.unfold o = (v.inputs.mapM g.unfold).map (.node v.op o.index) := by
  rw [unfold, hv]
  have hinputs : ∀ i ∈ v.inputs, (if _h : i.vertex < o.vertex then unfold g i else none) = g.unfold i := by
    intro i hi
    exact dif_pos (hg.inputs o.vertex v hv i hi).1
  have hmapM := mapM_eq_mapM_of_forall₂ (List.forall₂_same.2 hinputs)
  simp only [hmapM]
  cases v.inputs.mapM g.unfold <;> rfl

/-- An unfolding has the operation and the inputs of the vertex. -/
theorem unfold_eq_some_iff (hg : g.Sound) {o : Output} {u : Unfolding} :
    g.unfold o = some u ↔
      ∃ v inputs, g.vertex? o.vertex = some v ∧
        List.Forall₂ (fun i w => g.unfold i = some w) v.inputs inputs ∧ u = .node v.op o.index inputs := by
  constructor
  · intro h
    obtain ⟨v, hv⟩ : ∃ v, g.vertex? o.vertex = some v := by
      apply Option.ne_none_iff_exists'.1
      intro hnone
      rw [unfold, hnone] at h
      cases h
    rw [unfold_eq hg hv, Option.map_eq_some_iff] at h
    obtain ⟨inputs, hinputs, hu⟩ := h
    exact ⟨v, inputs, hv, mapM_eq_some_iff.1 hinputs, hu.symm⟩
  · rintro ⟨v, inputs, hv, hinputs, rfl⟩
    rw [unfold_eq hg hv, mapM_eq_some_iff.2 hinputs, Option.map_some]

/-- The vertex of an output has the operation of the unfolding, and reads what the inputs of the unfolding come from. -/
theorem exists_vertex_of_unfold (hg : g.Sound) {o : Output} {op : Op} {index : Nat} {us : List Unfolding}
    (h : g.unfold o = some (.node op index us)) :
    ∃ inputs, g.vertex? o.vertex = some ⟨op, inputs⟩ ∧ List.Forall₂ (fun i u => g.unfold i = some u) inputs us := by
  obtain ⟨⟨op, inputs⟩, us, hv, hinputs, hnode⟩ := (unfold_eq_some_iff hg).1 h
  obtain ⟨rfl, -, rfl⟩ := Unfolding.node.inj hnode
  exact ⟨inputs, hv, hinputs⟩

/-- The operations below an unfolding are those of the vertices that the output needs. -/
theorem mem_entries_unfold (hg : g.Sound) {o : Output} {u : Unfolding} (hu : g.unfold o = some u)
    {e : DefinitionOp} :
    e ∈ u.entries ↔ ∃ p w, g.Needs o.vertex p.vertex ∧ g.unfold p = some w ∧ w.entry = e := by
  induction u generalizing o with
  | node op index inputs ih =>
      obtain ⟨v, inputs, hv, hinputs, hnode⟩ := (unfold_eq_some_iff hg).1 hu
      obtain ⟨rfl, rfl, rfl⟩ := Unfolding.node.inj hnode
      rw [Unfolding.mem_entries_node]
      constructor
      · rintro (he | ⟨w, hw, he⟩)
        · exact ⟨o, _, .refl, hu, he.symm⟩
        · obtain ⟨i, hi, hiw⟩ := exists_of_mem_right hinputs hw
          obtain ⟨p, w', hneeds, hp, he⟩ := (ih w hw hiw).1 he
          exact ⟨p, w', (needs_iff hv).2 (.inr ⟨i, hi, hneeds⟩), hp, he⟩
      · rintro ⟨p, w, hneeds, hp, he⟩
        rcases (needs_iff hv).1 hneeds with hsame | ⟨i, hi, hneeds⟩
        · -- another output of the vertex itself, which has the same entry
          rw [← hsame] at hv
          rw [unfold_eq hg hv, mapM_eq_some_iff.2 hinputs] at hp
          obtain rfl := Option.some.inj hp
          left
          rw [← he, Unfolding.entry_node, Unfolding.entry_node]
        · obtain ⟨w', hw', hiw'⟩ := exists_of_mem_left hinputs hi
          exact .inr ⟨w', hw', (ih w' hw' hiw').2 ⟨p, w, hneeds, hp, he⟩⟩

/-- What is emitted for a vertex is the entry of the unfoldings of its outputs. -/
theorem Emission.unfold (hg : g.Sound) {done : Emitted} (h : g.Emission done) {o : Output}
    {d : DefinitionOp} (hmem : (o.vertex, d) ∈ done) :
    ∃ u, g.unfold o = some u ∧ u.entry = d ∧ u.ref = ⟨d.digest, o.index⟩ := by
  induction h generalizing o d with
  | nil => cases hmem
  | @snoc done last v refs h hv hvalid hrefs ih =>
      rcases List.mem_append.1 hmem with hmem | hmem
      · exact ih hmem
      · obtain ⟨rfl, rfl⟩ := Prod.mk.inj (List.mem_singleton.1 hmem)
        have hunfold : List.Forall₂ (fun i r => ∃ u, g.unfold i = some u ∧ u.ref = r) v.inputs refs := by
          apply hrefs.imp
          intro i r hr
          obtain ⟨d, hd, rfl⟩ := inputRef_eq_ok_iff.1 hr
          obtain ⟨u, hu, -, href⟩ := ih (mem_of_lookup hd)
          exact ⟨u, hu, href⟩
        obtain ⟨inputs, hinputs, hmap⟩ := exists_forall₂_map_eq hunfold
        refine ⟨.node v.op o.index inputs, (unfold_eq_some_iff hg).2 ⟨v, inputs, hv, hinputs, rfl⟩, ?_, ?_⟩
        · rw [Unfolding.entry_node, hmap]
        · rw [Unfolding.ref, Unfolding.entry_node, hmap, Unfolding.index]

end Graph

/-- The definition of an output lists what the unfolding of the output does. -/
theorem unfold_of_marshal {g : Graph} (hg : g.Sound) {s : State} {o : Output} (hs : s.output = some o)
    {platform : Platform} {d : Definition} (h : marshal g s platform = .ok d) :
    ∃ u, g.unfold o = some u ∧ d.root = some u.ref ∧ ∀ e, e ∈ d.ops ↔ e ∈ u.entries := by
  obtain ⟨-, emitted, top, hemission, -, hneeds, htop, rfl⟩ := marshal_eq_ok hg hs h
  obtain ⟨u, hu, -, href⟩ := hemission.unfold hg (mem_of_lookup htop)
  refine ⟨u, hu, by rw [href], fun e => ?_⟩
  rw [Graph.mem_entries_unfold hg hu, List.mem_map]
  constructor
  · rintro ⟨⟨m, e⟩, hmem, rfl⟩
    obtain ⟨w, hw, he, -⟩ := hemission.unfold hg (o := ⟨g.id, m, 0⟩) hmem
    exact ⟨_, w, (hneeds m).1 (List.mem_map_of_mem hmem), hw, he⟩
  · rintro ⟨p, w, hp, hw, rfl⟩
    obtain ⟨⟨m, e⟩, hmem, rfl⟩ := List.mem_map.1 ((hneeds p.vertex).2 hp)
    obtain ⟨w', hw', he, -⟩ := hemission.unfold hg hmem
    rw [hw] at hw'
    obtain rfl := Option.some.inj hw'
    exact ⟨_, hmem, he.symm⟩

/-- Whatever graphs two outputs are of: if they came about in the same way, then their definitions have the same
root and list the same operations. Where SHA-256 does not collide on what is listed, definitions with the same
root are of outputs that came about in the same way. -/
theorem unfold_eq_iff_root_eq {g g' : Graph} (hg : g.Reachable) (hg' : g'.Reachable) {s s' : State}
    {o o' : Output} (hs : s.output = some o) (hs' : s'.output = some o') {platform platform' : Platform}
    {d d' : Definition} (h : marshal g s platform = .ok d) (h' : marshal g' s' platform' = .ok d') :
    ∃ u u', g.unfold o = some u ∧ g'.unfold o' = some u' ∧
      (u = u' → d.root = d'.root ∧ ∀ e, e ∈ d.ops ↔ e ∈ d'.ops) ∧
      (CollisionFree (d.encodings ++ d'.encodings) → d.root = d'.root → u = u') := by
  obtain ⟨u, hu, hroot, hops⟩ := unfold_of_marshal hg.sound hs h
  obtain ⟨u', hu', hroot', hops'⟩ := unfold_of_marshal hg'.sound hs' h'
  refine ⟨u, u', hu, hu', ?_, ?_⟩
  · intro hsame
    rw [hroot, hroot', hsame]
    exact ⟨rfl, fun e => (hops e).trans (hsame ▸ (hops' e).symm)⟩
  · intro hc hsame
    rw [hroot, hroot', Option.some.injEq] at hsame
    apply Unfolding.ref_inj hc _ _ hsame
    · exact fun e he => List.mem_append_left _ (List.mem_map_of_mem ((hops e).2 he))
    · exact fun e he => List.mem_append_right _ (List.mem_map_of_mem ((hops' e).2 he))

/-- The calls of the sample in another graph: the directory comes first, and between the calls there is one for an
image that nothing runs over. -/
def reorderedGraph : Graph :=
  [.localDir "src", .image "busybox", .image "alpine",
    .exec (.ofOutput ⟨⟨1⟩, 2, 0⟩)
      { RunOptions.ofArgs ["make"] with
        mounts := [⟨"/src", .ofOutput ⟨⟨1⟩, 0, 0⟩, none, false⟩]
        env := .ofList [("PATH", "/bin")] }].foldl Call.next (.empty ⟨1⟩)

def reorderedDefinition : Definition :=
  ⟨Definition.currentVersion, [sampleDir, sampleImage, sampleExec], some ⟨sampleExec.digest, 1⟩, ⟨.darwin, .arm64⟩⟩

/-- The definitions have the same root, so the outputs came about in the same way, so the definitions list the
same operations. -/
theorem unfold_eq_iff_root_eq_reordered :
    marshal sampleGraph (sampleState 2 1) .target = .ok sampleDefinition ∧
      marshal reorderedGraph (.ofOutput ⟨⟨1⟩, 3, 1⟩) ⟨.darwin, .arm64⟩ = .ok reorderedDefinition ∧
      (∃ u, sampleGraph.unfold ⟨⟨0⟩, 2, 1⟩ = some u ∧ reorderedGraph.unfold ⟨⟨1⟩, 3, 1⟩ = some u) ∧
      ∀ e, e ∈ sampleDefinition.ops ↔ e ∈ reorderedDefinition.ops := by
  have hmarshal : marshal reorderedGraph (.ofOutput ⟨⟨1⟩, 3, 1⟩) ⟨.darwin, .arm64⟩ =
      .ok reorderedDefinition := rfl
  have hreachable : reorderedGraph.Reachable := (Graph.Reachable.empty ⟨1⟩).calls _
  obtain ⟨u, u', hu, hu', hsame, hroot⟩ :=
    unfold_eq_iff_root_eq reachable_sample hreachable rfl rfl marshal_sample hmarshal
  have htexts : ∀ x ∈ sampleDefinition.encodings ++ reorderedDefinition.encodings,
      x ∈ sampleDefinition.encodings := by
    simp [Definition.encodings, sampleDefinition, reorderedDefinition]
  have hc : CollisionFree (sampleDefinition.encodings ++ reorderedDefinition.encodings) :=
    fun x hx y hy => collisionFree_sample x (htexts x hx) y (htexts y hy)
  obtain rfl := hroot hc rfl
  exact ⟨marshal_sample, hmarshal, ⟨u, hu, hu'⟩, (hsame rfl).2⟩

end BuildGraph
