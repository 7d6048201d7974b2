import BuildGraph.Proofs.Graph.Standing

/-!
# When a state has a definition

A state of a graph has a definition just if every operation that it needs is valid, which can be read off the
unfolding that the state stands for (`Unfolding.Valid`). Otherwise the error is that of an invalid operation: the
vertices needed are emitted in ascending order, so what a vertex reads has been emitted before, and nothing else
can go wrong on the way.
-/

namespace BuildGraph

/-- An operation that cannot be carried out is all that has been found wrong. -/
def MarshalError.IsInvalidOp (e : MarshalError) : Prop :=
  ∃ kind description reason, e = .invalidOp kind description reason

/-- Each operation of the unfolding is valid for the inputs that it has. -/
inductive Unfolding.Valid : Unfolding → Prop
  | node {op : Op} {index : Nat} {inputs : List Unfolding} (hop : op.validate inputs.length = .ok ())
      (hinputs : ∀ u ∈ inputs, Valid u) : Valid (.node op index inputs)

theorem Unfolding.valid_node_iff {op : Op} {index : Nat} {inputs : List Unfolding} :
    (node op index inputs).Valid ↔ op.validate inputs.length = .ok () ∧ ∀ u ∈ inputs, u.Valid := by
  constructor
  · rintro ⟨hop, hinputs⟩
    exact ⟨hop, hinputs⟩
  · rintro ⟨hop, hinputs⟩
    exact .node hop hinputs

namespace Graph

variable {g : Graph}

/-- An unfolding is valid if the vertices that its output needs are. -/
theorem valid_unfold_iff (hg : g.Sound) {o : Output} {u : Unfolding} (hu : g.unfold o = some u) :
    u.Valid ↔ ∀ m, g.Needs o.vertex m → ∀ v, g.vertex? m = some v → v.op.validate v.inputs.length = .ok () := by
  induction u generalizing o with
  | node op index inputs ih =>
      obtain ⟨v, us, hv, hus, hnode⟩ := (unfold_eq_some_iff hg).1 hu
      obtain ⟨rfl, rfl, rfl⟩ := Unfolding.node.inj hnode
      rw [Unfolding.valid_node_iff, ← hus.length_eq]
      constructor
      · rintro ⟨hop, hinputs⟩ m hneeds w hw
        rcases (needs_iff hv).1 hneeds with rfl | ⟨i, hi, hneeds⟩
        · obtain rfl := Option.some.inj (hv.symm.trans hw)
          exact hop
        · obtain ⟨x, hx, hix⟩ := exists_of_mem_left hus hi
          exact (ih x hx hix).1 (hinputs x hx) m hneeds w hw
      · intro hneeded
        refine ⟨hneeded _ .refl v hv, fun x hx => ?_⟩
        obtain ⟨i, hi, hix⟩ := exists_of_mem_right hus hx
        exact (ih x hx hix).2 fun m hneeds => hneeded m ((needs_iff hv).2 (.inr ⟨i, hi, hneeds⟩))

/-- The operation of a vertex is valid. -/
def ValidAt (g : Graph) (m : Nat) : Prop := ∀ v, g.vertex? m = some v → v.op.validate v.inputs.length = .ok ()

theorem exists_inputRef_eq_ok {done : Emitted} {o : Output} (ho : o.vertex ∈ done.map (·.1)) :
    ∃ r, inputRef done o = .ok r := by
  obtain ⟨⟨m, d⟩, hmem, rfl⟩ := List.mem_map.1 ho
  cases hlookup : done.lookup o.vertex with
  | some d => exact ⟨_, inputRef_eq_ok_iff.2 ⟨d, hlookup, rfl⟩⟩
  | none => exact absurd rfl (bne_iff_ne.1 (List.lookup_eq_none_iff.1 hlookup _ hmem))

/-- A valid vertex is emitted if what it reads has been. -/
theorem emitVertex_of_valid {done : Emitted} {v : Vertex} (hvalid : v.op.validate v.inputs.length = .ok ())
    (hdone : ∀ o ∈ v.inputs, o.vertex ∈ done.map (·.1)) : ∃ d, emitVertex done v = .ok d := by
  obtain ⟨refs, hrefs⟩ := exists_forall₂ fun o ho => exists_inputRef_eq_ok (hdone o ho)
  exact ⟨_, emitVertex_eq_ok_iff.2 ⟨hvalid, refs, hrefs, rfl⟩⟩

/-- The vertices of a list are valid and are emitted, or the first that is invalid is the error, provided that what
they read is emitted before. -/
theorem emit_cases {done : Emitted} {vertices : List Nat} (hsorted : vertices.Pairwise (· < ·))
    (hvertices : ∀ m ∈ vertices, ∃ v, g.vertex? m = some v)
    (hreads : ∀ m ∈ vertices, ∀ r, g.Reads m r → r ∈ done.map (·.1) ∨ r ∈ vertices ∧ r < m) :
    (∃ all, emit g done vertices = .ok all) ∧ (∀ m ∈ vertices, g.ValidAt m) ∨
      ∃ m ∈ vertices, ∃ v reason, g.vertex? m = some v ∧ v.op.validate v.inputs.length = .error reason ∧
        (∀ k ∈ vertices, k < m → g.ValidAt k) ∧
        emit g done vertices = .error (.invalidOp v.op.kind v.op.describe reason) := by
  induction vertices generalizing done with
  | nil => exact .inl ⟨⟨done, rfl⟩, fun _ hm => absurd hm List.not_mem_nil⟩
  | cons vertex rest ih =>
      obtain ⟨hleast, hsorted⟩ := List.pairwise_cons.1 hsorted
      obtain ⟨v, hv⟩ := hvertices vertex List.mem_cons_self
      cases hvalid : v.op.validate v.inputs.length with
      | error reason =>
          refine .inr ⟨vertex, List.mem_cons_self, v, reason, hv, hvalid, ?_, ?_⟩
          · intro k hk hlt
            rcases List.mem_cons.1 hk with rfl | hk
            · omega
            · have := hleast k hk
              omega
          · rw [emit, hv]
            dsimp only
            rw [emitVertex, hvalid]
            rfl
      | ok _ =>
          have hvertex : g.ValidAt vertex := by
            intro w hw
            obtain rfl := Option.some.inj (hv.symm.trans hw)
            exact hvalid
          have hdone : ∀ o ∈ v.inputs, o.vertex ∈ done.map (·.1) := by
            intro o ho
            refine (hreads vertex List.mem_cons_self o.vertex ⟨v, hv, o, ho, rfl⟩).resolve_right ?_
            rintro ⟨hmem, hlt⟩
            rcases List.mem_cons.1 hmem with heq | hmem
            · omega
            · have := hleast _ hmem
              omega
          obtain ⟨d, hd⟩ := emitVertex_of_valid hvalid hdone
          have hrest : ∀ m ∈ rest, ∀ r, g.Reads m r →
              r ∈ (done ++ [(vertex, d)]).map (·.1) ∨ r ∈ rest ∧ r < m := by
            intro m hm r hr
            rw [List.map_append, List.mem_append]
            rcases hreads m (List.mem_cons_of_mem _ hm) r hr with hr | ⟨hr, hlt⟩
            · exact .inl (.inl hr)
            · rcases List.mem_cons.1 hr with rfl | hr
              · exact .inl (.inr (List.mem_singleton_self _))
              · exact .inr ⟨hr, hlt⟩
          have hemit : emit g done (vertex :: rest) = emit g (done ++ [(vertex, d)]) rest := by
            rw [emit, hv]
            dsimp only
            rw [hd]
            rfl
          rw [hemit]
          rcases ih hsorted (fun m hm => hvertices m (List.mem_cons_of_mem _ hm)) hrest with
            ⟨hall, hvalids⟩ | ⟨m, hm, w, reason, hw, hinvalid, hbefore, herror⟩
          · exact .inl ⟨hall, List.forall_mem_cons.2 ⟨hvertex, hvalids⟩⟩
          · refine .inr ⟨m, List.mem_cons_of_mem _ hm, w, reason, hw, hinvalid, ?_, herror⟩
            exact List.forall_mem_cons.2 ⟨fun _ => hvertex, hbefore⟩

/-- To marshal an output gives a definition if all the vertices that it needs are valid, and otherwise fails at the
first that is not. -/
theorem marshal_outcome (hg : g.Sound) {s : State} {o : Output} (hs : s.output = some o) (ho : g.HasOutput o)
    (platform : Platform) :
    (∃ d, marshal g s platform = .ok d) ∧ (∀ m, g.Needs o.vertex m → g.ValidAt m) ∨
      ∃ m v reason, g.Needs o.vertex m ∧ g.vertex? m = some v ∧ v.op.validate v.inputs.length = .error reason ∧
        (∀ k < m, g.Needs o.vertex k → g.ValidAt k) ∧
        marshal g s platform = .error (.invalidOp v.op.kind v.op.describe reason) := by
  obtain ⟨vertices, hvertices, hsorted, hneeds⟩ := reachable_eq_ok hg ho.lt_size
  have hcheck : g.check s = .ok () := by
    rw [check_eq_ok_iff, hs]
    rintro o' ⟨⟩
    exact ho
  have hmarshal : marshal g s platform = do
      let emitted ← emit g [] vertices
      let root ← inputRef emitted o
      return ⟨Definition.currentVersion, emitted.map (·.2), some root, platform⟩ := by
    rw [marshal, hs]
    dsimp only
    rw [hcheck, hvertices]
    rfl
  have hlt : ∀ m ∈ vertices, m < g.size := fun m hm =>
    Nat.lt_of_le_of_lt (((hneeds m).1 hm).le hg) ho.lt_size
  have hread : ∀ m ∈ vertices, ∀ r, g.Reads m r → r ∈ ([] : Emitted).map (·.1) ∨ r ∈ vertices ∧ r < m :=
    fun m hm r hr => .inr ⟨(hneeds r).2 (.tail ((hneeds m).1 hm) hr), hr.lt hg⟩
  rw [hmarshal]
  rcases emit_cases hsorted (fun m hm => ⟨_, List.getElem?_eq_getElem (hlt m hm)⟩) hread with
    ⟨⟨emitted, hemit⟩, hvalids⟩ | ⟨m, hm, v, reason, hv, hinvalid, hbefore, hemit⟩
  · refine .inl ⟨?_, fun m hm => hvalids m ((hneeds m).2 hm)⟩
    have hkey : o.vertex ∈ emitted.map (·.1) := by
      rw [(emission_emit .nil hemit).2]
      exact (hneeds o.vertex).2 .refl
    obtain ⟨r, hr⟩ := exists_inputRef_eq_ok hkey
    rw [hemit]
    exact ⟨_, bind_eq_ok_iff.2 ⟨emitted, rfl, bind_eq_ok_iff.2 ⟨r, hr, rfl⟩⟩⟩
  · rw [hemit]
    exact .inr ⟨m, v, reason, (hneeds m).1 hm, hv, hinvalid, fun k hk hneeded => hbefore k ((hneeds k).2 hneeded) hk,
      rfl⟩

/-- To marshal an output gives a definition, or fails at an invalid vertex that the output needs. -/
theorem marshal_cases (hg : g.Sound) {s : State} {o : Output} (hs : s.output = some o) (ho : g.HasOutput o)
    (platform : Platform) :
    (∃ d, marshal g s platform = .ok d) ∨
      ∃ m v reason, g.Needs o.vertex m ∧ g.vertex? m = some v ∧ v.op.validate v.inputs.length = .error reason ∧
        marshal g s platform = .error (.invalidOp v.op.kind v.op.describe reason) := by
  rcases marshal_outcome hg hs ho platform with ⟨hd, -⟩ | ⟨m, v, reason, hneeds, hv, hinvalid, -, hmarshal⟩
  · exact .inl hd
  · exact .inr ⟨m, v, reason, hneeds, hv, hinvalid, hmarshal⟩

end Graph

/-- A state has a definition if its unfolding is valid, and otherwise the error is that of an invalid operation. -/
theorem marshal_verdict {g : Graph} (hg : g.Sound) {s : State} {u : Unfolding} (h : g.Stands s u)
    (platform : Platform) :
    ((∃ d, marshal g s platform = .ok d) ↔ u.Valid) ∧
      (¬u.Valid → ∃ e, marshal g s platform = .error e ∧ e.IsInvalidOp) := by
  obtain ⟨o, ho, hout, hu⟩ := h
  have hneeded := Graph.valid_unfold_iff hg hu
  have hvalid : ∀ {d}, marshal g s platform = .ok d → u.Valid := by
    intro d hd
    obtain ⟨-, emitted, -, hemission, -, hneeds, -, -⟩ := marshal_eq_ok hg ho hd
    refine hneeded.2 fun m hm v hv => ?_
    obtain ⟨⟨m, e⟩, hmem, rfl⟩ := List.mem_map.1 ((hneeds m).2 hm)
    obtain ⟨w, refs, hw, hop, -, -⟩ := hemission.body hmem
    obtain rfl := Option.some.inj (hw.symm.trans hv)
    exact hop
  rcases Graph.marshal_cases hg ho hout platform with ⟨d, hd⟩ | ⟨m, v, reason, hneeds, hv, hop, hmarshal⟩
  · exact ⟨⟨fun _ => hvalid hd, fun _ => ⟨d, hd⟩⟩, fun hu => absurd (hvalid hd) hu⟩
  · have hinvalid : ¬u.Valid := by
      intro hu
      rw [hneeded.1 hu m hneeds v hv] at hop
      cases hop
    refine ⟨⟨fun ⟨d, hd⟩ => hvalid hd, fun hu => absurd hu hinvalid⟩, fun _ => ?_⟩
    exact ⟨_, hmarshal, v.op.kind, v.op.describe, reason, rfl⟩

/-- The definition of a state lists what its unfolding does. -/
theorem marshal_of_stands {g : Graph} (hg : g.Sound) {s : State} {u : Unfolding} (h : g.Stands s u)
    {platform : Platform} {d : Definition} (hd : marshal g s platform = .ok d) :
    d.root = some u.ref ∧ ∀ e, e ∈ d.ops ↔ e ∈ u.entries := by
  obtain ⟨o, ho, hshows⟩ := h
  obtain ⟨u', hu', hroot, hops⟩ := unfold_of_marshal hg ho hd
  obtain rfl := Option.some.inj (hu'.symm.trans hshows.unfold)
  exact ⟨hroot, hops⟩

end BuildGraph
