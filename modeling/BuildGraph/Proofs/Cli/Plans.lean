import BuildGraph.Proofs.Cli.Agreement

/-!
# The plan of a file

Whatever a file has in the place of digests, a definition in it that is accepted has a plan, which is printed in either
format. Nothing is lost in it and nothing goes wrong with a short form.
-/

namespace BuildGraph.Cli

/-- For a file with a definition that is accepted, a plan is printed in either format, which shows every operation of
the definition once, by its own digest and with what it is. All digests of the definition, whatever the file could
have in their place, are those of hashes and are shortened to the first digits, and so is the hash of the file. -/
theorem plan_of_file_complete (host : Host Id) (inv : Invocation) {path : String} {bytes : List UInt8}
    (hread : Id.run (host.files.read path) = .ok bytes) {d : Definition} (hd : Definition.ofBytes bytes = .ok d)
    {dag : Dag} (hdag : Dag.ofDefinition d = .ok dag) :
    ∃ waves, ∃ p : Plan, dag.waves = .ok waves ∧ p = Plan.ofDefinition d waves none (some (contentHash bytes)) ∧
      (∀ format, p.Prints format (Id.run (outcome host { inv with command := .plan (some path) format }))) ∧
      (∀ merged fileHash, (Plan.ofDefinition d waves merged fileHash).Complete d waves) ∧
      (∀ digest ∈ d.digests, ∃ hash, digest.HasHash hash ∧ digest.short? = some (Digest.firstDigits hash) ∧
        Plan.short digest.text = Digest.firstDigits hash) ∧
      ∀ text ∈ p.shortened, ∃ hash, IsHash hash ∧ Digest.shorten? text = some (Digest.firstDigits hash) := by
  obtain ⟨h, rfl⟩ := Dag.ofDefinition_eq_ok_iff.1 hdag
  obtain ⟨waves, hwaves, hin⟩ := h.exists_inWaves
  refine ⟨waves, _, hwaves, rfl, prints_outcome_plan_file inv hread hd h hwaves, Plan.complete_ofDefinition h hwaves,
    ?_, ?_⟩
  · intro digest hdigest
    obtain ⟨hash, hhash⟩ := h.hasHash hdigest
    exact ⟨hash, hhash, hhash.short?_eq, hhash.plan_short.trans hhash.brief_eq⟩
  · rw [Plan.ofDefinition_eq]
    exact fun text => (Plan.hashed_ofWaves h hin.perm _ fun _ => isHash_of_mem).exists_shorten?

/-- A machine on which every file has the same content. -/
def contentHost (bytes : List UInt8) : Host Id :=
  { projectHost with files := { projectHost.files with read := fun _ => .ok bytes } }

theorem plan_of_file_complete_stacked :
    ∃ waves, ∃ p : Plan, p.Prints .text (Id.run (outcome (contentHost Dag.stackedDefinition.toBytes)
        (projectInvocation (.plan (some "def.json") .text)))) ∧
      p.Complete Dag.stackedDefinition waves ∧ (p.waves.map List.length).sum = 3 ∧
      ∃ hash, Dag.stacked.digest.HasHash hash ∧ Plan.short Dag.stacked.digest.text = Digest.firstDigits hash := by
  have hindices : AllIndices Dag.stackedDefinition.indices := by decide
  obtain ⟨hbytes, -⟩ := (readsBack_definition hindices).run
  obtain ⟨dag, hdag⟩ := Dag.accepted_stacked
  have hread : Id.run ((contentHost Dag.stackedDefinition.toBytes).files.read "def.json") =
      .ok Dag.stackedDefinition.toBytes := rfl
  obtain ⟨waves, p, -, rfl, hprints, hcomplete, hdigests, -⟩ :=
    plan_of_file_complete _ (projectInvocation .config) hread hbytes hdag
  have hplan := hcomplete none (some (contentHash Dag.stackedDefinition.toBytes))
  have hstacked : Dag.stacked.digest ∈ Dag.stackedDefinition.digests :=
    List.mem_append_left _ (List.mem_map_of_mem (by simp [Dag.stackedDefinition]))
  obtain ⟨hash, hhash, -, hshort⟩ := hdigests _ hstacked
  exact ⟨waves, _, hprints .text, hplan, hplan.sum.trans hplan.ops, hash, hhash, hshort⟩

end BuildGraph.Cli
