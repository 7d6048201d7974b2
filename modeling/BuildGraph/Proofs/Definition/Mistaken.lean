import BuildGraph.Proofs.Graph.Recorded

/-!
# Only mistakes stop a marshal

What a graph records is prepared, so what fails at a vertex of it is a mistake in the operation
(`Graph.Possible.mistake`). A state that needs a vertex with a mistake has no definition, and the error is that of the
vertex with a mistake that was added first. Nothing else goes wrong.
-/

namespace BuildGraph

/-- A graph that possible requests have led to. -/
def Graph.Possible (g : Graph) : Prop := ∃ rs id, Graphs.Possible rs ∧ g = (Graphs.empty.run rs).graph id

/-- A vertex is needed for an output and has a mistake. -/
def Graph.MistakeAt (g : Graph) (o : Output) (m : Nat) (reason : InvalidOp) : Prop :=
  g.Needs o.vertex m ∧ ∃ v, g.vertex? m = some v ∧ v.op.Mistake reason

namespace Graph

variable {g : Graph}

theorem Possible.sound (hg : g.Possible) : g.Sound := by
  obtain ⟨rs, id, -, rfl⟩ := hg
  exact (Graphs.reachable_run rs id).sound

/-- What fails at a vertex of such a graph is a mistake. -/
theorem Possible.mistake (hg : g.Possible) {m : Nat} {v : Vertex} (hv : g.vertex? m = some v) {reason : InvalidOp}
    (hfails : v.op.validate v.inputs.length = .error reason) : v.op.Mistake reason := by
  obtain ⟨rs, id, hrs, rfl⟩ := hg
  obtain ⟨hprepared, htidy⟩ := hrs.prepared id v (List.mem_of_getElem? hv)
  exact hprepared.mistake (fun index => (htidy.references index).1) hfails

theorem ValidAt.not_mistake {m : Nat} (h : g.ValidAt m) {v : Vertex} (hv : g.vertex? m = some v) (reason : InvalidOp) :
    ¬v.op.Mistake reason :=
  fun hmistake => hmistake.validate_ne_ok _ (h v hv)

/-- A state that needs a vertex with a mistake has no definition. -/
theorem MistakeAt.marshal_fails (hg : g.Sound) {s : State} {o : Output} (ho : s.output = some o)
    (hs : g.check s = .ok ()) {m : Nat} {reason : InvalidOp} (h : g.MistakeAt o m reason) (platform : Platform) :
    ∃ e, marshal g s platform = .error e := by
  obtain ⟨hneeds, v, hv, hmistake⟩ := h
  rcases marshal_outcome hg ho ((g.check_eq_ok_iff s).1 hs o ho) platform with
    ⟨-, hvalid⟩ | ⟨k, w, earlier, -, -, -, -, hmarshal⟩
  · exact absurd hmistake ((hvalid m hneeds).not_mistake hv reason)
  · exact ⟨_, hmarshal⟩

/-- A state without a definition needs a vertex with a mistake, and the error is that of the first one. -/
theorem Possible.first_mistake (hg : g.Possible) {s : State} (hs : g.check s = .ok ()) {platform : Platform}
    {e : MarshalError} (he : marshal g s platform = .error e) :
    ∃ o m v reason, s.output = some o ∧ g.Needs o.vertex m ∧ g.vertex? m = some v ∧ v.op.Mistake reason ∧
      (∀ k < m, ∀ earlier, ¬g.MistakeAt o k earlier) ∧ e = .invalidOp v.op.kind v.op.describe reason := by
  cases ho : s.output with
  | none =>
      rw [marshal_scratch g ho platform] at he
      cases he
  | some o =>
      rcases marshal_outcome hg.sound ho ((g.check_eq_ok_iff s).1 hs o ho) platform with
        ⟨⟨d, hd⟩, -⟩ | ⟨m, v, reason, hneeds, hv, hinvalid, hbefore, hmarshal⟩
      · rw [hd] at he
        cases he
      · rw [hmarshal] at he
        refine ⟨o, m, v, reason, rfl, hneeds, hv, hg.mistake hv hinvalid, ?_, (Except.error.inj he).symm⟩
        rintro k hk earlier ⟨hneeded, w, hw, hearlier⟩
        exact (hbefore k hk hneeded).not_mistake hw earlier hearlier

end Graph

/-- To marshal a state of a graph fails just if the state needs a vertex with a mistake, and the error is that of the
first one, for a mistake in it. -/
theorem marshal_fails_iff {g : Graph} (hg : g.Possible) {s : State} (hs : g.check s = .ok ()) (platform : Platform) :
    ((∃ e, marshal g s platform = .error e) ↔ ∃ o m reason, s.output = some o ∧ g.MistakeAt o m reason) ∧
      ∀ e, marshal g s platform = .error e → ∃ o m v reason, s.output = some o ∧ g.Needs o.vertex m ∧
        g.vertex? m = some v ∧ v.op.Mistake reason ∧ (∀ k < m, ∀ earlier, ¬g.MistakeAt o k earlier) ∧
        e = .invalidOp v.op.kind v.op.describe reason := by
  refine ⟨⟨?_, ?_⟩, fun e he => hg.first_mistake hs he⟩
  · rintro ⟨e, he⟩
    obtain ⟨o, m, v, reason, ho, hneeds, hv, hmistake, -⟩ := hg.first_mistake hs he
    exact ⟨o, m, reason, ho, hneeds, v, hv, hmistake⟩
  · rintro ⟨o, m, reason, ho, hmistake⟩
    exact hmistake.marshal_fails hg.sound ho hs platform

def imageRequest : Request := ⟨⟨0⟩, .image "alpine"⟩

/-- A process over an image, with the image mounted at a relative path. -/
def mountRequest : Request :=
  ⟨⟨0⟩, .exec (firstState ⟨0⟩) { RunOptions.ofArgs ["make"] with mounts := [⟨"src", firstState ⟨0⟩, none, false⟩] }⟩

/-- A copy that names no path, out of what the process leaves in its mount. -/
def copyRequest : Request := ⟨⟨0⟩, .copy (.ofOutput ⟨⟨0⟩, 1, 1⟩) "" .scratch "/" .plain⟩

theorem possible_mistaken : Graphs.Possible [imageRequest, mountRequest, copyRequest] := by
  have himage : Graphs.Given [imageRequest] (firstState ⟨0⟩) := @Graphs.Given.answer [] [] _ _ rfl _ (.state _)
  have hmount : Graphs.Given [imageRequest, mountRequest] (.ofOutput ⟨⟨0⟩, 1, 1⟩) :=
    @Graphs.Given.answer [imageRequest] [] _ _ rfl _ (@Answer.Shows.mount _ "src" _ rfl)
  refine @Graphs.Possible.snoc [imageRequest, mountRequest] _ (@Graphs.Possible.snoc [imageRequest] _
    (@Graphs.Possible.snoc [] _ .nil nofun) ?_) ?_
  · exact List.forall_mem_cons.2 ⟨himage, List.forall_mem_singleton.2 himage⟩
  · exact List.forall_mem_cons.2 ⟨hmount, List.forall_mem_singleton.2 .scratch⟩

def mistakenGraph : Graph := (Graphs.empty.run [imageRequest, mountRequest, copyRequest]).graph ⟨0⟩

/-- The copy has no definition. Of the two mistakes that of the process is found. -/
theorem marshal_fails_iff_mistaken :
    mistakenGraph.Possible ∧ mistakenGraph.check (.ofOutput ⟨⟨0⟩, 2, 0⟩) = .ok () ∧
      mistakenGraph.MistakeAt ⟨⟨0⟩, 2, 0⟩ 2 .emptyPath ∧
      ∃ v reason, mistakenGraph.vertex? 1 = some v ∧ v.op.Mistake reason ∧
        marshal mistakenGraph (.ofOutput ⟨⟨0⟩, 2, 0⟩) .target =
          .error (.invalidOp v.op.kind v.op.describe reason) := by
  have hg : mistakenGraph.Possible := ⟨_, _, possible_mistaken, rfl⟩
  have hcheck : mistakenGraph.check (.ofOutput ⟨⟨0⟩, 2, 0⟩) = .ok () := rfl
  have hcopy : mistakenGraph.MistakeAt ⟨⟨0⟩, 2, 0⟩ 2 .emptyPath := ⟨.refl, _, rfl, .emptyPath (.inl rfl)⟩
  have hreads : mistakenGraph.Reads 2 1 := ⟨_, rfl, _, List.mem_cons_self, rfl⟩
  have hexec : mistakenGraph.MistakeAt ⟨⟨0⟩, 2, 0⟩ 1 (.relativePath "src") :=
    ⟨.tail .refl hreads, _, rfl,
      @Op.Mistake.relativeTarget _ ⟨some 0, none, "src", some 1, false⟩ List.mem_cons_self (by decide) rfl⟩
  obtain ⟨hfails, hfirst⟩ := marshal_fails_iff hg hcheck .target
  obtain ⟨e, he⟩ := hfails.2 ⟨_, 2, _, rfl, hcopy⟩
  obtain ⟨o, m, v, reason, ho, -, hv, hmistake, hbefore, rfl⟩ := hfirst e he
  obtain rfl := Option.some.inj ho
  have hle : m ≤ 1 := Nat.not_lt.1 fun hlt => hbefore 1 hlt _ hexec
  have hne : m ≠ 0 := by
    rintro rfl
    obtain rfl := Option.some.inj hv
    cases hmistake
  obtain rfl : m = 1 := by omega
  exact ⟨hg, hcheck, hcopy, v, reason, hv, hmistake, he⟩

end BuildGraph
