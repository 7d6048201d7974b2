import BuildGraph.Plan
import BuildGraph.Proofs.Definition.Contents
import BuildGraph.Proofs.Definition.Levels
import BuildGraph.Proofs.Definition.Offence
import BuildGraph.Proofs.Digest
import Mathlib.Algebra.GroupWithZero.Nat

/-!
# What plans show

A plan looks its operations up by digest and passes over a digest that leads to nothing. But the waves of a definition
that holds together are its operations, each once, and their digests differ, so each lookup leads back to the operation
that is meant. So the plan is made of the operations themselves (`Plan.ofDefinition_eq`), and nothing is lost
(`Plan.complete_ofDefinition`).

A file may have any text in the place of a digest. But each digest of a definition that holds together is that of an
encoding, so what a plan shows in a short form is a hash (`Definition.WellFormed.hasHash`, `Plan.Hashed`).
-/

namespace BuildGraph

open scoped List

namespace Definition

/-- The digests of the operations, of their inputs, and of the root. -/
def digests (d : Definition) : List Digest :=
  d.ops.map (·.digest) ++ (d.ops.flatMap (·.inputs) ++ d.root.toList).map (·.digest)

/-- The operations of the definition, each once, in the waves of their levels. -/
structure InWaves (d : Definition) (waves : List (List DefinitionOp)) : Prop where
  perm : waves.flatten.Perm d.ops
  levels : ∃ level, Dag.Levels d.ops level (waves.map fun wave => wave.map (·.digest))

/-- The operations that some waves of digests lead to. -/
def opsOf (d : Definition) (waves : List (List Digest)) : List (List DefinitionOp) :=
  waves.map fun wave => wave.filterMap d.op?

variable {d : Definition}

/-- Whatever was read from a file, a digest of a definition that holds together is that of a hash. -/
theorem WellFormed.hasHash (h : d.WellFormed) {digest : Digest} (hdigest : digest ∈ d.digests) :
    ∃ hash, digest.HasHash hash := by
  have hop : ∀ o ∈ d.ops, ∃ hash, o.digest.HasHash hash := by
    intro o ho
    rw [← (d.coherent_iff.2 h).digest o ho]
    exact ⟨_, Digest.hasHash_ofBytes _⟩
  have hprovided : ∀ r, Provides d.ops r → ∃ hash, r.digest.HasHash hash := by
    rintro r ⟨p, hp, hdigest, -⟩
    exact hdigest ▸ hop p hp
  rcases List.mem_append.1 hdigest with hmem | hmem
  · obtain ⟨o, ho, rfl⟩ := List.mem_map.1 hmem
    exact hop o ho
  · obtain ⟨r, hr, rfl⟩ := List.mem_map.1 hmem
    rcases List.mem_append.1 hr with hr | hr
    · obtain ⟨o, ho, hr⟩ := List.mem_flatMap.1 hr
      exact hprovided r (h.ops.provides ho hr)
    · exact hprovided r (h.root r (Option.mem_toList.1 hr))

section

variable (h : (d.ops.map (·.digest)).Nodup)

include h

/-- To look digests of operations up leads to one operation for each, which has the digest. -/
theorem map_digest_filterMap_op? {ds : List Digest} (hds : ∀ digest ∈ ds, digest ∈ d.ops.map (·.digest)) :
    (ds.filterMap d.op?).map (·.digest) = ds := by
  induction ds with
  | nil => rfl
  | cons digest ds ih =>
      obtain ⟨hdigest, hrest⟩ := List.forall_mem_cons.1 hds
      obtain ⟨e, he, rfl⟩ := List.mem_map.1 hdigest
      rw [List.filterMap_cons_some (op?_digest h he), List.map_cons, ih hrest]

theorem filterMap_op?_digests : (d.ops.map (·.digest)).filterMap d.op? = d.ops := by
  rw [List.filterMap_map]
  calc d.ops.filterMap (d.op? ∘ (·.digest))
      = d.ops.filterMap some := List.filterMap_congr fun e he => op?_digest h he
    _ = d.ops := List.filterMap_some

end

section

variable {waves : List (List Digest)} (h : d.WellFormed) (hwaves : (Dag.ofOps d.ops).waves = .ok waves)

include h hwaves

/-- The waves lead to operations with their digests. -/
theorem map_digest_opsOf : (d.opsOf waves).map (fun wave => wave.map (·.digest)) = waves := by
  have hperm : waves.flatten.Perm (d.ops.map (·.digest)) := Dag.perm_waves hwaves
  rw [opsOf, List.map_map]
  refine (List.map_congr_left fun wave hwave => ?_).trans (List.map_id waves)
  exact map_digest_filterMap_op? h.ops.nodup fun digest hdigest =>
    hperm.mem_iff.1 (List.mem_flatten_of_mem hwave hdigest)

/-- These are the operations of the definition, each once. -/
theorem perm_opsOf : (d.opsOf waves).flatten.Perm d.ops := by
  have hperm : waves.flatten.Perm (d.ops.map (·.digest)) := Dag.perm_waves hwaves
  calc (d.opsOf waves).flatten
      = waves.flatten.filterMap d.op? := List.filterMap_flatten.symm
    _ ~ (d.ops.map (·.digest)).filterMap d.op? := hperm.filterMap _
    _ = d.ops := filterMap_op?_digests h.ops.nodup

end

/-- A definition that holds together has waves, and these are the waves of its operations. -/
theorem WellFormed.exists_inWaves (h : d.WellFormed) :
    ∃ waves, (Dag.ofOps d.ops).waves = .ok waves ∧ d.InWaves (d.opsOf waves) := by
  obtain ⟨level, waves, -, hwaves, hlevels⟩ := Dag.exists_levels h.ops
  refine ⟨waves, hwaves, perm_opsOf h hwaves, level, ?_⟩
  rwa [map_digest_opsOf h hwaves]

end Definition

namespace Plan

/-- The plan shows the operations of the definition, each once and with what it is, in the given waves. -/
structure Complete (p : Plan) (d : Definition) (waves : List (List Digest)) : Prop where
  digests : p.waves.map (fun wave => wave.map (·.digest)) = waves
  perm : p.waves.flatten.Perm (d.ops.map fun o => ⟨o.digest, o.op.kind, o.op.describe⟩)
  nodup : (p.waves.flatten.map (·.digest)).Nodup
  ops : p.ops = d.ops.length
  sum : (p.waves.map List.length).sum = p.ops

/-- The plan of a definition whose operations are given in waves. -/
def ofWaves (d : Definition) (waves : List (List DefinitionOp)) (stages : List PlanStage) (fileHash : Option String) :
    Plan where
  platform := d.platform
  root := d.root.map (·.digest)
  ops := d.ops.length
  waves := waves.map fun wave => wave.map fun o => ⟨o.digest, o.op.kind, o.op.describe⟩
  stages
  fileHash

/-- The texts that a plan shows in short forms. -/
def shortened (p : Plan) : List String :=
  (p.root.toList ++ p.waves.flatten.map (·.digest)).map (·.text) ++ p.fileHash.toList

/-- What the plan shows in short forms are digests and hashes. -/
structure Hashed (p : Plan) : Prop where
  root : ∀ digest ∈ p.root, ∃ hash, digest.HasHash hash
  ops : ∀ wave ∈ p.waves, ∀ o ∈ wave, ∃ hash, o.digest.HasHash hash
  fileHash : ∀ hash ∈ p.fileHash, IsHash hash

variable {d : Definition}

theorem ofDefinition_eq (d : Definition) (waves : List (List Digest)) (merged : Option MergedRoot)
    (fileHash : Option String) :
    ofDefinition d waves merged fileHash = ofWaves d (d.opsOf waves) ((merged.map stagesOf).getD []) fileHash := by
  rw [ofWaves, Definition.opsOf, List.map_map]
  rfl

theorem flatten_waves_ofWaves (d : Definition) (waves : List (List DefinitionOp)) (stages : List PlanStage)
    (fileHash : Option String) :
    (ofWaves d waves stages fileHash).waves.flatten =
      waves.flatten.map fun o => ⟨o.digest, o.op.kind, o.op.describe⟩ :=
  List.map_flatten.symm

theorem complete_ofDefinition (h : d.WellFormed) {waves : List (List Digest)}
    (hwaves : (Dag.ofOps d.ops).waves = .ok waves) (merged : Option MergedRoot) (fileHash : Option String) :
    (ofDefinition d waves merged fileHash).Complete d waves := by
  rw [ofDefinition_eq]
  have hshown := (Definition.perm_opsOf h hwaves).map fun o => PlanOp.mk o.digest o.op.kind o.op.describe
  rw [← flatten_waves_ofWaves d _ ((merged.map stagesOf).getD []) fileHash] at hshown
  refine ⟨?_, hshown, ?_, rfl, ?_⟩
  · rw [ofWaves, List.map_map]
    simpa only [Function.comp_def, List.map_map] using Definition.map_digest_opsOf h hwaves
  · refine (hshown.map _).nodup_iff.2 ?_
    rw [List.map_map]
    exact h.ops.nodup
  · rw [← List.length_flatten, hshown.length_eq, List.length_map]
    rfl

/-- What a plan shows of a definition that holds together are hashes. -/
theorem hashed_ofWaves (h : d.WellFormed) {waves : List (List DefinitionOp)} (hwaves : waves.flatten.Perm d.ops)
    (stages : List PlanStage) {fileHash : Option String} (hfile : ∀ hash ∈ fileHash, IsHash hash) :
    (ofWaves d waves stages fileHash).Hashed where
  root := by
    intro digest hdigest
    obtain ⟨r, hr, rfl⟩ := Option.map_eq_some_iff.1 hdigest
    have hmem : r ∈ d.ops.flatMap (·.inputs) ++ d.root.toList := List.mem_append_right _ (Option.mem_toList.2 hr)
    exact h.hasHash (List.mem_append_right _ (List.mem_map_of_mem hmem))
  ops := by
    intro shown hshown o ho
    obtain ⟨wave, hwave, rfl⟩ := List.mem_map.1 hshown
    obtain ⟨e, he, rfl⟩ := List.mem_map.1 ho
    have hmem : e ∈ d.ops := hwaves.mem_iff.1 (List.mem_flatten_of_mem hwave he)
    exact h.hasHash (List.mem_append_left _ (List.mem_map_of_mem hmem))
  fileHash := hfile

/-- Nothing of this lacks a short form, which is that of a hash. -/
theorem Hashed.exists_shorten? {p : Plan} (h : p.Hashed) {text : String} (htext : text ∈ p.shortened) :
    ∃ hash, IsHash hash ∧ Digest.shorten? text = some (Digest.firstDigits hash) := by
  have hdigest : ∀ digest : Digest, (∃ hash, digest.HasHash hash) →
      ∃ hash, IsHash hash ∧ Digest.shorten? digest.text = some (Digest.firstDigits hash) := by
    rintro digest ⟨hash, hhash⟩
    exact ⟨hash, hhash.isHash, hhash.short?_eq⟩
  rcases List.mem_append.1 htext with htext | htext
  · obtain ⟨digest, hmem, rfl⟩ := List.mem_map.1 htext
    rcases List.mem_append.1 hmem with hroot | hshown
    · exact hdigest digest (h.root digest (Option.mem_toList.1 hroot))
    · obtain ⟨o, ho, rfl⟩ := List.mem_map.1 hshown
      obtain ⟨wave, hwave, ho⟩ := List.mem_flatten.1 ho
      exact hdigest _ (h.ops wave hwave o ho)
  · have hhash := h.fileHash text (Option.mem_toList.1 htext)
    exact ⟨text, hhash, Digest.shorten?_hash hhash⟩

end Plan

end BuildGraph
