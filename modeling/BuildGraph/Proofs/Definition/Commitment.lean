import BuildGraph.Proofs.Definition.Acceptance
import BuildGraph.Proofs.Definition.Offence

/-!
# What a root commits to

A definition may be altered on its way to an engine, but not below its root. The root fixes the operation that it
refers to, since an accepted definition lists operations under their own digests; the operation fixes what it
reads, and so on down to the sources. Definitions that are accepted and have the same root differ at most in
what no input leads to: the version, the platform, the order, and operations that the root does not reach
(`reaches_iff_of_root_eq`).
-/

namespace BuildGraph

namespace Definition

/-- The operations that the root leads to: the one that it refers to, and those that one of them reads. -/
inductive Reaches (d : Definition) : DefinitionOp → Prop
  | root {r : InputRef} {o : DefinitionOp} (hr : d.root = some r) (ho : o ∈ d.ops)
      (hdigest : o.digest = r.digest) : Reaches d o
  | input {p o : DefinitionOp} {r : InputRef} (h : Reaches d p) (hr : r ∈ p.inputs) (ho : o ∈ d.ops)
      (hdigest : o.digest = r.digest) : Reaches d o

theorem Reaches.mem {d : Definition} {o : DefinitionOp} (h : d.Reaches o) : o ∈ d.ops := by
  cases h with
  | root _ ho _ => exact ho
  | input _ _ ho _ => exact ho

variable {d d' : Definition}

/-- Operations of two definitions under one digest are the same. -/
theorem WellFormed.eq_of_digest_eq (h : d.WellFormed) (h' : d'.WellFormed) {texts : List (List UInt8)}
    (hc : CollisionFree texts) {o p : DefinitionOp} (ho : o ∈ d.ops) (hp : p ∈ d'.ops)
    (hotext : o.encoding ∈ texts) (hptext : p.encoding ∈ texts) (hdigest : o.digest = p.digest) : o = p := by
  have hofits := (d.coherent_iff.2 h).digest o ho
  have hpfits := (d'.coherent_iff.2 h').digest p hp
  have hcompute : o.computeDigest = p.computeDigest := by rw [hofits, hpfits, hdigest]
  obtain ⟨hinputs, hop⟩ := body_eq_of_computeDigest_eq hc hotext hptext hcompute
  cases o
  cases p
  simp_all

/-- The operations of an accepted definition do not collide with each other, since their digests differ. -/
theorem WellFormed.collisionFree (h : d.WellFormed) : CollisionFree d.encodings := by
  intro x hx y hy hhash
  obtain ⟨o, ho, rfl⟩ := List.mem_map.1 hx
  obtain ⟨p, hp, rfl⟩ := List.mem_map.1 hy
  have hcompute : o.computeDigest = p.computeDigest :=
    congrArg (fun hash => Digest.mk (Digest.algorithm ++ ":" ++ String.ofList (hexText hash))) hhash
  have hcoherent := d.coherent_iff.2 h
  rw [hcoherent.digest o ho, hcoherent.digest p hp] at hcompute
  rw [List.inj_on_of_nodup_map hcoherent.nodup ho hp hcompute]

/-- What one of two definitions with the same root reaches is reached by the other one. -/
theorem Reaches.of_root_eq (h : d.WellFormed) (h' : d'.WellFormed) (hroot : d.root = d'.root)
    {texts : List (List UInt8)} (hc : CollisionFree texts) (htexts : ∀ o, d.Reaches o → o.encoding ∈ texts)
    (htexts' : ∀ o, d'.Reaches o → o.encoding ∈ texts) {o : DefinitionOp} (ho : d.Reaches o) :
    d'.Reaches o := by
  -- a reference that the other definition can follow leads there to the same operation
  have hsame : ∀ {r : InputRef} {o p : DefinitionOp}, d.Reaches o → d'.Reaches p →
      o.digest = r.digest → p.digest = r.digest → o = p := by
    intro r o p ho hp hodigest hpdigest
    exact h.eq_of_digest_eq h' hc ho.mem hp.mem (htexts o ho) (htexts' p hp) (hodigest.trans hpdigest.symm)
  induction ho with
  | @root r o hr ho hdigest =>
      have hreaches := Reaches.root hr ho hdigest
      rw [hroot] at hr
      obtain ⟨p, hp, hpdigest, -⟩ := h'.root r hr
      have hreaches' := Reaches.root hr hp hpdigest
      rwa [hsame hreaches hreaches' hdigest hpdigest]
  | @input q o r hq hr ho hdigest ih =>
      have hreaches := Reaches.input hq hr ho hdigest
      obtain ⟨p, hp, hpdigest, -⟩ := h'.ops.provides ih.mem hr
      have hreaches' := Reaches.input ih hr hp hpdigest
      rwa [hsame hreaches hreaches' hdigest hpdigest]

end Definition

/-- Where SHA-256 does not collide on what their roots reach, accepted definitions with the same root reach the
same operations, under the same digests and with the same inputs. -/
theorem reaches_iff_of_root_eq {d d' : Definition} {dag dag' : Dag} (h : Dag.ofDefinition d = .ok dag)
    (h' : Dag.ofDefinition d' = .ok dag') (hroot : d.root = d'.root) {texts : List (List UInt8)}
    (htexts : ∀ o, d.Reaches o ∨ d'.Reaches o → o.encoding ∈ texts) (hc : CollisionFree texts) :
    ∀ o, d.Reaches o ↔ d'.Reaches o := by
  obtain ⟨hd, -⟩ := Dag.ofDefinition_eq_ok_iff.1 h
  obtain ⟨hd', -⟩ := Dag.ofDefinition_eq_ok_iff.1 h'
  have hleft : ∀ o, d.Reaches o → o.encoding ∈ texts := fun o ho => htexts o (.inl ho)
  have hright : ∀ o, d'.Reaches o → o.encoding ∈ texts := fun o ho => htexts o (.inr ho)
  intro o
  constructor
  · exact Definition.Reaches.of_root_eq hd hd' hroot hc hleft hright
  · exact Definition.Reaches.of_root_eq hd' hd hroot.symm hc hright hleft

/-- An image that nothing of the sample runs over. -/
def strayImage : DefinitionOp :=
  .ofBody [] (.source ⟨"docker-image://docker.io/library/busybox:latest", .empty⟩)

/-- The sample with the same root, but else with whatever can be altered. -/
def alteredDefinition : Definition :=
  ⟨7, [sampleDir, strayImage, sampleImage, sampleExec], some ⟨sampleExec.digest, 1⟩, ⟨.darwin, .arm64⟩⟩

/-- The altered sample is accepted, and its root reaches what it does in the sample. The image is not among it. -/
theorem reaches_iff_of_root_eq_altered :
    (∃ dag, Dag.ofDefinition sampleDefinition = .ok dag) ∧ (∃ dag, Dag.ofDefinition alteredDefinition = .ok dag) ∧
      sampleDefinition.root = alteredDefinition.root ∧
      (∀ o, sampleDefinition.Reaches o ↔ alteredDefinition.Reaches o) ∧ ¬alteredDefinition.Reaches strayImage := by
  have hsample := Dag.ofDefinition_eq_ok_iff.2
    ⟨wellFormed_marshal reachable_sample.sound marshal_sample collisionFree_sample, rfl⟩
  obtain ⟨dag, haltered⟩ : ∃ dag, Dag.ofDefinition alteredDefinition = .ok dag :=
    exists_eq_ok (by decide +kernel)
  have hc := (Dag.ofDefinition_eq_ok_iff.1 haltered).1.collisionFree
  have htexts : ∀ o, sampleDefinition.Reaches o ∨ alteredDefinition.Reaches o →
      o.encoding ∈ alteredDefinition.encodings := by
    intro o ho
    have hsubset : sampleDefinition.ops ⊆ alteredDefinition.ops := by
      simp [sampleDefinition, alteredDefinition]
    rcases ho with ho | ho
    · exact List.mem_map_of_mem (hsubset ho.mem)
    · exact List.mem_map_of_mem ho.mem
  have hreaches := reaches_iff_of_root_eq hsample haltered rfl htexts hc
  refine ⟨⟨_, hsample⟩, ⟨dag, haltered⟩, rfl, hreaches, ?_⟩
  intro hstray
  have hmem := ((hreaches strayImage).2 hstray).mem
  simp [sampleDefinition, sampleImage, sampleDir, sampleExec, strayImage, DefinitionOp.ofBody] at hmem

end BuildGraph
