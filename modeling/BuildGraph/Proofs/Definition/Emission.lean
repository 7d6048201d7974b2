import BuildGraph.Proofs.Definition.Encoding
import BuildGraph.Proofs.Definition.Needed
import BuildGraph.Proofs.Lists

/-!
# What a marshaled state consists of

`Graph.Emission` holds of what is emitted for vertices of a graph one after another: the operation of a vertex is
valid, and its inputs are given by the digests of operations in front. `marshal_eq_ok` says of the definition of
a state that it is an emission for the vertices that the state needs, with the digest of the state's own vertex
as the root.

Vertices of a sound graph differ, and so do their digests unless SHA-256 collides (`Emission.vertex_inj`). The
digests of the inputs are compared first: what is in front of two vertices with one digest is the same, so the
two vertices are.
-/

namespace BuildGraph

/-- The operations of some vertices, each behind those that it reads. -/
inductive Graph.Emission (g : Graph) : Emitted → Prop
  | nil : Emission g []
  | snoc {done : Emitted} {vertex : Nat} {v : Vertex} {refs : List InputRef} (h : Emission g done)
      (hv : g.vertex? vertex = some v) (hvalid : v.op.validate v.inputs.length = .ok ())
      (hrefs : List.Forall₂ (fun o r => inputRef done o = .ok r) v.inputs refs) :
      Emission g (done ++ [(vertex, .ofBody refs v.op)])

theorem inputRef_eq_ok_iff {done : Emitted} {o : Output} {r : InputRef} :
    inputRef done o = .ok r ↔ ∃ d, done.lookup o.vertex = some d ∧ r = ⟨d.digest, o.index⟩ := by
  unfold inputRef
  cases done.lookup o.vertex with
  | none => simp
  | some d => simp [eq_comm]

theorem inputRef_append {done : Emitted} {o : Output} {r : InputRef} (h : inputRef done o = .ok r)
    (more : Emitted) : inputRef (done ++ more) o = .ok r := by
  obtain ⟨d, hd, hr⟩ := inputRef_eq_ok_iff.1 h
  refine inputRef_eq_ok_iff.2 ⟨d, ?_, hr⟩
  rw [List.lookup_append, hd, Option.some_or]

theorem emitVertex_eq_ok_iff {done : Emitted} {v : Vertex} {d : DefinitionOp} :
    emitVertex done v = .ok d ↔
      v.op.validate v.inputs.length = .ok () ∧
        ∃ refs, List.Forall₂ (fun o r => inputRef done o = .ok r) v.inputs refs ∧
          d = .ofBody refs v.op := by
  unfold emitVertex
  cases v.op.validate v.inputs.length with
  | error reason => simp [throw, throwThe, MonadExceptOf.throw]
  | ok u =>
      simp only [bind_eq_ok_iff, mapM_eq_ok_iff, pure, Except.pure, Except.ok.injEq, true_and]
      exact exists_congr fun refs => and_congr_right fun _ => eq_comm

namespace Graph

/-- To emit some vertices leads from an emission to an emission, in their order. -/
theorem emission_emit {g : Graph} {done all : Emitted} {vertices : List Nat} (h : g.Emission done)
    (hall : emit g done vertices = .ok all) :
    g.Emission all ∧ all.map (·.1) = done.map (·.1) ++ vertices := by
  induction vertices generalizing done with
  | nil =>
      cases hall
      exact ⟨h, (List.append_nil _).symm⟩
  | cons vertex rest ih =>
      rw [emit] at hall
      split at hall
      · cases hall
      · rename_i v hv
        obtain ⟨d, hd, hrest⟩ := bind_eq_ok_iff.1 hall
        obtain ⟨hvalid, refs, hrefs, rfl⟩ := emitVertex_eq_ok_iff.1 hd
        obtain ⟨hall, hkeys⟩ := ih (.snoc h hv hvalid hrefs) hrest
        refine ⟨hall, hkeys.trans ?_⟩
        rw [List.map_append, List.append_assoc]
        rfl

/-- What is emitted fits the vertex that it stands for. -/
theorem Emission.body {g : Graph} {done : Emitted} (h : g.Emission done) {vertex : Nat}
    {d : DefinitionOp} (hmem : (vertex, d) ∈ done) :
    ∃ v refs, g.vertex? vertex = some v ∧ v.op.validate v.inputs.length = .ok () ∧
      List.Forall₂ (fun o r => inputRef done o = .ok r) v.inputs refs ∧ d = .ofBody refs v.op := by
  induction h with
  | nil => cases hmem
  | @snoc done last v refs h hv hvalid hrefs ih =>
      rcases List.mem_append.1 hmem with hmem | hmem
      · obtain ⟨w, refs', hw, hvalid', hrefs', hd⟩ := ih hmem
        exact ⟨w, refs', hw, hvalid', hrefs'.imp fun _ _ hr => inputRef_append hr _, hd⟩
      · obtain ⟨rfl, rfl⟩ := Prod.mk.inj (List.mem_singleton.1 hmem)
        exact ⟨v, refs, hv, hvalid, hrefs.imp fun _ _ hr => inputRef_append hr _, rfl⟩

/-- References that agree are to the same outputs, where digests tell the emitted vertices apart. -/
theorem inputs_eq_of_refs {g : Graph} {done : Emitted} {inputs inputs' : List Output}
    {refs : List InputRef}
    (hinj : ∀ e ∈ done, ∀ e' ∈ done, e.2.digest = e'.2.digest → e.1 = e'.1)
    (h : List.Forall₂ (fun o r => inputRef done o = .ok r) inputs refs)
    (h' : List.Forall₂ (fun o r => inputRef done o = .ok r) inputs' refs)
    (hid : ∀ o ∈ inputs, o.graph = g.id) (hid' : ∀ o ∈ inputs', o.graph = g.id) :
    inputs = inputs' := by
  induction h generalizing inputs' with
  | nil =>
      cases h'
      rfl
  | @cons o r inputs refs ho h ih =>
      cases h' with
      | @cons o' _ inputs' _ ho' h' =>
          obtain ⟨d, hd, rfl⟩ := inputRef_eq_ok_iff.1 ho
          obtain ⟨d', hd', hr⟩ := inputRef_eq_ok_iff.1 ho'
          obtain ⟨hdigest, hindex⟩ := InputRef.mk.inj hr
          have hvertex : o.vertex = o'.vertex :=
            hinj _ (mem_of_lookup hd) _ (mem_of_lookup hd') hdigest
          have hgraph : o.graph = o'.graph :=
            (hid o List.mem_cons_self).trans (hid' o' List.mem_cons_self).symm
          have hhead : o = o' := by
            cases o
            cases o'
            simp_all
          have htail := ih h' (fun o ho => hid o (List.mem_cons_of_mem _ ho))
            fun o ho => hid' o (List.mem_cons_of_mem _ ho)
          rw [hhead, htail]

/-- Vertices with the same operation and the same inputs have the same position. -/
theorem position_inj {g : Graph} {m n : Nat} {v w : Vertex} (hv : g.vertex? m = some v)
    (hw : g.vertex? n = some w) (hop : v.op = w.op) (hinputs : v.inputs = w.inputs) : m = n := by
  have hvw : v = w := by
    cases v
    cases w
    simp_all
  rw [← hvw] at hw
  exact Option.some.inj ((position?_eq_some_iff.2 hv).symm.trans (position?_eq_some_iff.2 hw))

/-- Where SHA-256 does not collide, vertices with the same digest are the same. -/
theorem Emission.vertex_inj {g : Graph} (hg : g.Sound) {done : Emitted} (h : g.Emission done)
    {texts : List (List UInt8)} (hc : CollisionFree texts)
    (htexts : ∀ e ∈ done, e.2.encoding ∈ texts) :
    ∀ e ∈ done, ∀ e' ∈ done, e.2.digest = e'.2.digest → e.1 = e'.1 := by
  induction h with
  | nil =>
      intro e he
      cases he
  | @snoc done last v refs h hv hvalid hrefs ih =>
      have hinj := ih fun e he => htexts e (List.mem_append_left _ he)
      have hlast : DefinitionOp.encoding (.ofBody refs v.op) ∈ texts :=
        htexts (last, .ofBody refs v.op) (List.mem_append_right _ (List.mem_singleton_self _))
      -- an operation in front with the digest of the last one is that of the same vertex
      have hback : ∀ e ∈ done, e.2.digest = (DefinitionOp.ofBody refs v.op).digest → e.1 = last := by
        rintro ⟨m, d⟩ he hdigest
        obtain ⟨w, refs', hw, -, hrefs', rfl⟩ := h.body he
        have hmem := htexts _ (List.mem_append_left _ he)
        obtain ⟨hrefsEq, hop⟩ := body_eq_of_computeDigest_eq hc hmem hlast hdigest
        replace hrefsEq : refs' = refs := hrefsEq
        rw [hrefsEq] at hrefs'
        have hinputs : w.inputs = v.inputs :=
          inputs_eq_of_refs hinj hrefs' hrefs (fun o ho => (hg.inputs m w hw o ho).2.1)
            fun o ho => (hg.inputs last v hv o ho).2.1
        exact position_inj hw hv hop hinputs
      intro e he e' he' hdigest
      rcases List.mem_append.1 he with he | he <;> rcases List.mem_append.1 he' with he' | he'
      · exact hinj e he e' he' hdigest
      · rw [List.mem_singleton.1 he'] at hdigest ⊢
        exact hback e he hdigest
      · rw [List.mem_singleton.1 he] at hdigest ⊢
        exact (hback e' he' hdigest.symm).symm
      · rw [List.mem_singleton.1 he, List.mem_singleton.1 he']

end Graph

/-- The empty filesystem has the definition without operations. -/
theorem marshal_scratch (g : Graph) {s : State} (hs : s.output = none) (platform : Platform) :
    marshal g s platform = .ok ⟨Definition.currentVersion, [], none, platform⟩ := by
  rw [marshal, hs]

/-- A state that the graph refuses has no definition. -/
theorem marshal_of_refused {g : Graph} {s : State} {e : GraphError} (h : g.check s = .error e) (platform : Platform) :
    marshal g s platform = .error (.root e) := by
  rw [marshal]
  cases hs : s.output with
  | none =>
      rw [Graph.check, hs] at h
      cases h
  | some o =>
      dsimp only
      rw [h]
      rfl

/-- The definition of an output lists an emission for the vertices that are reachable from it. -/
theorem emission_of_marshal {g : Graph} {s : State} {o : Output} (hs : s.output = some o) {platform : Platform}
    {d : Definition} (h : marshal g s platform = .ok d) :
    g.HasOutput o ∧ ∃ emitted top,
      g.Emission emitted ∧
      reachable g o.vertex = .ok (emitted.map (·.1)) ∧
      emitted.lookup o.vertex = some top ∧
      d = ⟨Definition.currentVersion, emitted.map (·.2), some ⟨top.digest, o.index⟩, platform⟩ := by
  rw [marshal, hs] at h
  obtain ⟨hcheck, h⟩ := check_bind_eq_ok_iff.1 h
  obtain ⟨vertices, hvertices, h⟩ := bind_eq_ok_iff.1 h
  obtain ⟨emitted, hemit, h⟩ := bind_eq_ok_iff.1 h
  obtain ⟨root, hroot, h⟩ := bind_eq_ok_iff.1 h
  obtain ⟨hemission, hkeys⟩ := Graph.emission_emit .nil hemit
  replace hkeys : emitted.map (·.1) = vertices := hkeys
  obtain ⟨top, htop, rfl⟩ := inputRef_eq_ok_iff.1 hroot
  refine ⟨(g.check_eq_ok_iff s).1 (mapError_eq_ok_iff.1 hcheck) o hs, emitted, top, hemission, ?_, htop,
    (Except.ok.inj h).symm⟩
  rw [hvertices, hkeys]

/-- The definition of an output lists an emission for the vertices that the output needs. -/
theorem marshal_eq_ok {g : Graph} (hg : g.Sound) {s : State} {o : Output} (hs : s.output = some o)
    {platform : Platform} {d : Definition} (h : marshal g s platform = .ok d) :
    g.HasOutput o ∧ ∃ emitted top,
      g.Emission emitted ∧
      (emitted.map (·.1)).Nodup ∧
      (∀ m, m ∈ emitted.map (·.1) ↔ g.Needs o.vertex m) ∧
      emitted.lookup o.vertex = some top ∧
      d = ⟨Definition.currentVersion, emitted.map (·.2), some ⟨top.digest, o.index⟩, platform⟩ := by
  obtain ⟨ho, emitted, top, hemission, hreachable, htop, rfl⟩ := emission_of_marshal hs h
  obtain ⟨found, hfound, hsorted, hneeds⟩ := reachable_eq_ok hg ho.lt_size
  obtain rfl := Except.ok.inj (hfound.symm.trans hreachable)
  exact ⟨ho, emitted, top, hemission, hsorted.imp fun hlt => Nat.ne_of_lt hlt, hneeds, htop, rfl⟩

/-!
### An example

A process runs over an image with a directory mounted, and what it left in the directory is marshaled.
-/

/-- An output of a vertex of the first graph. -/
def sampleState (vertex index : Nat) : State := .ofOutput ⟨⟨0⟩, vertex, index⟩

def sampleRun : RunOptions :=
  { RunOptions.ofArgs ["make"] with
    mounts := [⟨"/src", sampleState 1 0, none, false⟩]
    env := .ofList [("PATH", "/bin")] }

def sampleGraph : Graph :=
  [.image "alpine", .localDir "src", .exec (sampleState 0 0) sampleRun].foldl Call.next (.empty ⟨0⟩)

def sampleImage : DefinitionOp :=
  .ofBody [] (.source ⟨"docker-image://docker.io/library/alpine:latest", .empty⟩)

def sampleDir : DefinitionOp :=
  .ofBody [] (.source ⟨"local://src", .ofList [(Build.localHint, "src")]⟩)

def sampleExec : DefinitionOp :=
  .ofBody [⟨sampleImage.digest, 0⟩, ⟨sampleDir.digest, 0⟩]
    (.exec ⟨⟨["make"], ["PATH=/bin"], "/"⟩,
      [⟨some 0, none, "/", some 0, false⟩, ⟨some 1, none, "/src", some 1, false⟩]⟩)

def sampleDefinition : Definition :=
  ⟨Definition.currentVersion, [sampleImage, sampleDir, sampleExec], some ⟨sampleExec.digest, 1⟩, .target⟩

theorem reachable_sample : sampleGraph.Reachable := (Graph.Reachable.empty ⟨0⟩).calls _

theorem marshal_sample : marshal sampleGraph (sampleState 2 1) .target = .ok sampleDefinition := rfl

theorem collisionFree_sample : CollisionFree sampleDefinition.encodings := by
  decide +kernel

end BuildGraph
