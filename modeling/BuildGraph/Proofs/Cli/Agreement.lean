import BuildGraph.Proofs.Cli.Printing
import BuildGraph.Proofs.Export.Indices
import BuildGraph.Proofs.Json.Extent
import BuildGraph.Proofs.Pipeline.ConfigFormat

/-!
# Marshal and plan agree

`marshal` and `plan` compile the project in the same way, and after that neither of them fails: what is compiled
holds together, so it has waves. The definition that `marshal` writes is read back as it is, so of the project and of
the file the same plan is printed, but for the stages and the hash of the file (`marshal_plan_agree`).

Here the machine is one that answers without effects.
-/

namespace BuildGraph

open Json

/-- Text that is read from a file consists of the bytes of the file. -/
theorem Files.read_of_readText {files : Files Id} {path text : String}
    (h : Id.run (files.readText path) = .ok text) : Id.run (files.read path) = .ok (utf8 text) := by
  rw [readText, Id.run_bind] at h
  cases hread : Id.run (files.read path) with
  | error e =>
      rw [hread] at h
      cases h
  | ok bytes =>
      rw [hread] at h
      dsimp only at h
      split at h
      · rename_i text' htext
        cases h
        rw [String.fromUTF8?] at htext
        split at htext
        · cases htext
          rfl
        · cases htext
      · cases h

/-- Text is read from a file whose bytes are text. -/
theorem Files.exists_readText {files : Files Id} {path : String} {bytes : List UInt8} (htext : IsText bytes)
    (hread : Id.run (files.read path) = .ok bytes) :
    ∃ text, Id.run (files.readText path) = .ok text ∧ utf8 text = bytes := by
  obtain ⟨text, hfrom, hutf8⟩ := htext.exists_fromUTF8?
  refine ⟨text, ?_, hutf8⟩
  rw [readText, Id.run_bind, hread]
  simp only [hfrom]
  rfl

/-- No file has more bytes than can be counted. -/
def Files.Bounded (files : Files Id) : Prop :=
  ∀ path bytes, Id.run (files.read path) = .ok bytes → bytes.length ≤ Codec.indexBound

/-- A file is loaded as a config if its text is read as the config and the config is valid. -/
theorem PipelineConfig.load_eq_ok_iff {files : Files Id} {path : String} {c : PipelineConfig} :
    Id.run (load files path) = .ok c ↔
      ∃ text, Id.run (files.readText path) = .ok text ∧ ofBytes (utf8 text) = .ok c ∧ c.validate = .ok () := by
  rw [load, Id.run_bind]
  cases Id.run (files.readText path) with
  | error e => simp
  | ok text =>
      cases hconfig : ofBytes (utf8 text) with
      | error e => simp [hconfig]
      | ok config =>
          simp only [hconfig, Id.run_pure, map_eq_ok_iff, mapError_eq_ok_iff, Except.ok.injEq, exists_eq_left']
          constructor
          · rintro ⟨⟨⟩, hvalid, rfl⟩
            exact ⟨rfl, hvalid⟩
          · rintro ⟨rfl, hvalid⟩
            exact ⟨(), hvalid, rfl⟩

/-- A valid config is loaded from a file of text that is read as it. -/
theorem PipelineConfig.load_of_isText {files : Files Id} {path : String} {bytes : List UInt8}
    (hread : Id.run (files.read path) = .ok bytes) (htext : IsText bytes) {c : PipelineConfig}
    (hbytes : ofBytes bytes = .ok c) (hvalid : c.validate = .ok ()) : Id.run (load files path) = .ok c := by
  obtain ⟨text, hread, hutf8⟩ := Files.exists_readText htext hread
  exact load_eq_ok_iff.2 ⟨text, hread, hutf8 ▸ hbytes, hvalid⟩

/-- A config has no more stages than can be counted, as its file has no more bytes. -/
theorem PipelineConfig.length_stages_of_load {files : Files Id} (hfiles : files.Bounded) {path : String}
    {c : PipelineConfig} (h : Id.run (load files path) = .ok c) : c.stages.length ≤ Codec.indexBound := by
  obtain ⟨text, htext, hconfig, -⟩ := load_eq_ok_iff.1 h
  exact Nat.le_trans (length_stages_le hconfig) (hfiles path _ (Files.read_of_readText htext))

namespace Cli

section

variable {ε α β : Type}

/-- What comes behind runs on the result, if there is one. -/
theorem run_bind (x : ExceptT ε Id α) (f : α → ExceptT ε Id β) :
    Id.run (x >>= f).run = Id.run x.run >>= fun a => Id.run (f a).run := by
  rw [ExceptT.run_bind, Id.run_bind]
  cases Id.run x.run <;> rfl

theorem run_bind_pure (x : ExceptT ε Id α) (f : α → β) :
    Id.run (x >>= fun a => pure (f a)).run = (Id.run x.run).map f := by
  rw [run_bind]
  cases Id.run x.run <;> rfl

/-- What is expected fails with what it lacks. -/
theorem run_expect (context : String) (causes : ε → List Cause) (outcome : Id (Except ε α)) :
    Id.run (expect context causes outcome).run = (Id.run outcome).mapError fun e => ⟨context, causes e⟩ := by
  change Id.run (expect context causes (pure (Id.run outcome))).run = _
  cases Id.run outcome <;> rfl

end

variable {host : Host Id} {inv : Invocation}

/-- The program ends as the report says, or as the failure. -/
theorem run_outcome : Id.run (outcome host inv) = .of (Id.run (run host inv)) := rfl

/-- What is loaded is the config of the file that applies, or the built-in one. -/
theorem loadConfig_eq_ok_iff {w : Workspace} {c : PipelineConfig} :
    Id.run (loadConfig host inv w).run = .ok c ↔
      match Id.run (PipelineConfig.resolvePath host.files inv.config host.configVariable w.root) with
      | none => c = .builtin
      | some path => Id.run (PipelineConfig.load host.files path) = .ok c := by
  rw [loadConfig, run_bind]
  change (Except.ok (Id.run (PipelineConfig.resolvePath _ _ _ _)) >>= _) = _ ↔ _
  cases Id.run (PipelineConfig.resolvePath host.files inv.config host.configVariable w.root) with
  | none =>
      change Except.ok _ = _ ↔ _
      rw [Except.ok.injEq, eq_comm]
  | some path =>
      change Id.run (ExceptT.run (expect _ _ _)) = _ ↔ _
      rw [run_expect, mapError_eq_ok_iff]

theorem length_stages_of_loadConfig (hfiles : host.files.Bounded) {w : Workspace} {c : PipelineConfig}
    (h : Id.run (loadConfig host inv w).run = .ok c) : c.stages.length ≤ Codec.indexBound := by
  rw [loadConfig_eq_ok_iff] at h
  split at h
  · rw [h]
    decide
  · exact PipelineConfig.length_stages_of_load hfiles h

/-- A project is compiled in its workspace once its config has been loaded. -/
theorem run_compileProject :
    Id.run (compileProject host inv).run =
      Id.run (openWorkspace host inv).run >>= fun w => Id.run (loadConfig host inv w).run >>= fun c =>
        (Id.run (compileIn host.files w c .target)).mapError fun e => ⟨"Failed to compile pipeline", e.causes⟩ := by
  rw [compileProject, run_bind]
  simp only [run_bind, run_expect]

/-- What a project is compiled to is what its config is compiled to. So its definition holds together, and is read
back from what is written of it. -/
theorem ofBytes_of_compileProject (hfiles : host.files.Bounded) {x : Export}
    (h : Id.run (compileProject host inv).run = .ok x) (pretty : Bool) :
    x.definition.WellFormed ∧ Definition.ofBytes (definitionBytes pretty x.definition) = .ok x.definition := by
  rw [run_compileProject] at h
  obtain ⟨w, -, h⟩ := bind_eq_ok_iff.1 h
  obtain ⟨c, hload, h⟩ := bind_eq_ok_iff.1 h
  rw [mapError_eq_ok_iff, run_compileIn] at h
  obtain ⟨info, -, hc⟩ := bind_eq_ok_iff.1 h
  obtain ⟨p, g, rs, u, hx⟩ := Export.exists_arises hc
  obtain ⟨hcompact, hpretty⟩ := Export.ofBytes_toBytes_of_compile hc (length_stages_of_loadConfig hfiles hload)
  refine ⟨hx.wellFormed, ?_⟩
  cases pretty
  · exact hcompact
  · exact hpretty

/-- A definition that is accepted and has waves has a plan, whatever tree it is for and whatever file it comes from. -/
theorem run_planOf {d : Definition} {dag : Dag} (hdag : Dag.ofDefinition d = .ok dag) {waves : List (List Digest)}
    (hwaves : dag.waves = .ok waves) (merged : Option MergedRoot) (fileHash : Option String) :
    Id.run (planOf (m := Id) ⟨d, merged, fileHash⟩).run = .ok (.ofDefinition d waves merged fileHash) := by
  rw [planOf, run_bind, run_expect, Id.run_pure, hdag]
  change Id.run (ExceptT.run (_ >>= _)) = _
  rw [run_bind, run_expect, Id.run_pure, hwaves]
  rfl

theorem run_marshal (pretty : Bool) :
    Id.run (run host { inv with command := .marshal pretty }) =
      (Id.run (compileProject host inv).run).map fun made =>
        ⟨definitionBytes pretty made.definition,
          [.success (toString made.definition.ops.length ++ " ops from " ++ toString made.merged.provenance.size ++
            " stage(s) for " ++ made.definition.platform.text ++ " in " ++ durationText (Id.run host.elapsed))],
          made.merged.overlaps⟩ :=
  run_bind_pure (compileProject host inv) _

theorem run_plan (definition : Option String) (format : OutputFormat) :
    Id.run (run host { inv with command := .plan definition format }) =
      Id.run (planned host inv definition).run >>= fun q =>
        (Id.run (planOf q).run).map fun p => planReport format p ((q.merged.map (·.overlaps)).getD []) := by
  change Id.run (planned host { inv with command := .plan definition format } definition >>= _).run = _
  rw [run_bind]
  simp only [run_bind_pure]
  cases definition <;> rfl

theorem run_planned_project :
    Id.run (planned host inv none).run =
      (Id.run (compileProject host inv).run).map fun made => ⟨made.definition, some made.merged, none⟩ :=
  run_bind_pure (compileProject host inv) _

theorem run_planned_file {path : String} {bytes : List UInt8}
    (hread : Id.run (host.files.read path) = .ok bytes) {d : Definition} (hd : Definition.ofBytes bytes = .ok d) :
    Id.run (planned host inv (some path)).run = .ok ⟨d, none, some (contentHash bytes)⟩ := by
  have hhash : Id.run (host.files.hash path) = .ok (contentHash bytes) := by
    rw [Files.hash, Id.run_bind, hread]
    rfl
  rw [planned, readDefinition, run_bind, run_expect, hread]
  change Id.run (ExceptT.run (_ >>= _)) = _
  rw [run_bind, run_expect, Id.run_pure, hd]
  change Id.run (ExceptT.run (_ >>= _)) = _
  rw [run_bind, run_expect, hhash]
  rfl

/-- Of a definition that holds together, wherever it is from, the plan is printed. -/
theorem prints_outcome_plan {definition : Option String} {q : Planned}
    (hq : Id.run (planned host inv definition).run = .ok q) (h : q.definition.WellFormed) {waves : List (List Digest)}
    (hwaves : (Dag.ofOps q.definition.ops).waves = .ok waves) (hfile : ∀ hash ∈ q.fileHash, IsHash hash)
    (format : OutputFormat) :
    (Plan.ofDefinition q.definition waves q.merged q.fileHash).Prints format
      (Id.run (outcome host { inv with command := .plan definition format })) := by
  have hplan := run_planOf (Dag.ofDefinition_eq_ok_iff.2 ⟨h, rfl⟩) hwaves q.merged q.fileHash
  have hrun : Id.run (run host { inv with command := .plan definition format }) =
      .ok (planReport format (.ofDefinition q.definition waves q.merged q.fileHash)
        ((q.merged.map (·.overlaps)).getD [])) := by
    rw [run_plan, hq]
    change (Id.run (planOf q).run).map _ = _
    rw [hplan]
    rfl
  rw [run_outcome, hrun, Plan.ofDefinition_eq]
  exact (Plan.hashed_ofWaves h (Definition.perm_opsOf h hwaves) _ hfile).prints format _

/-- So it is with a definition that is read from a file. -/
theorem prints_outcome_plan_file (inv : Invocation) {path : String} {bytes : List UInt8}
    (hread : Id.run (host.files.read path) = .ok bytes) {d : Definition} (hd : Definition.ofBytes bytes = .ok d)
    (h : d.WellFormed) {waves : List (List Digest)} (hwaves : (Dag.ofOps d.ops).waves = .ok waves)
    (format : OutputFormat) :
    (Plan.ofDefinition d waves none (some (contentHash bytes))).Prints format
      (Id.run (outcome host { inv with command := .plan (some path) format })) :=
  prints_outcome_plan (run_planned_file hread hd) h hwaves (fun _ => isHash_of_mem) format

/-- `marshal` and `plan` fail alike and leave the standard output empty. Or `marshal` succeeds and writes a definition.
Then the plan of the project is that of the definition, whose operations are shown in the waves of their levels, and so
is the plan of any file with what was written, for any invocation, but that this one has no stages and the hash of the
file. -/
theorem marshal_plan_agree (host : Host Id) (hfiles : host.files.Bounded) (inv : Invocation) (pretty : Bool) :
    (∃ e, Id.run (outcome host { inv with command := .marshal pretty }) = e ∧ e.code ≠ 0 ∧ e.stdout = [] ∧
        ∀ format, Id.run (outcome host { inv with command := .plan none format }) = e) ∨
      ∃ e d waves stages, Id.run (outcome host { inv with command := .marshal pretty }) = e ∧ e.code = 0 ∧
        Definition.ofBytes e.stdout = .ok d ∧ d.InWaves waves ∧
        (∀ format, (Plan.ofWaves d waves stages none).Prints format
          (Id.run (outcome host { inv with command := .plan none format }))) ∧
        ∀ (other : Host Id) (again : Invocation) path, Id.run (other.files.read path) = .ok e.stdout →
          ∀ format, (Plan.ofWaves d waves [] (some (contentHash e.stdout))).Prints format
            (Id.run (outcome other { again with command := .plan (some path) format })) := by
  have hmarshal := @run_marshal host inv pretty
  have hproject := @run_planned_project host inv
  cases hmade : Id.run (compileProject host inv).run with
  | error e =>
      rw [hmade] at hmarshal hproject
      have hcode : (1 : UInt32) ≠ 0 := by decide
      refine .inl ⟨.of (.error e), ?_, hcode, rfl, fun format => ?_⟩
      · rw [run_outcome, hmarshal]
        rfl
      · rw [run_outcome, run_plan, hproject]
        rfl
  | ok made =>
      rw [hmade] at hmarshal hproject
      obtain ⟨hwellFormed, hbytes⟩ := ofBytes_of_compileProject hfiles hmade pretty
      obtain ⟨waves, hwaves, hin⟩ := hwellFormed.exists_inWaves
      refine .inr ⟨_, made.definition, made.definition.opsOf waves, Plan.stagesOf made.merged, rfl, ?_⟩
      rw [run_outcome, hmarshal]
      refine ⟨rfl, hbytes, hin, fun format => ?_, fun other again path hread format => ?_⟩
      · have hprints := prints_outcome_plan hproject hwellFormed hwaves nofun format
        rwa [Plan.ofDefinition_eq] at hprints
      · have hprints := prints_outcome_plan_file again hread hbytes hwellFormed hwaves format
        rwa [Plan.ofDefinition_eq] at hprints

/-- A machine with a project of two stages. Its other files are empty. -/
def projectHost : Host Id where
  files := {
    canonical := .ok
    isDirectory := fun _ => true
    isFile := fun _ => true
    read := fun path => .ok (if path = "/project/stagegraph.json" then doubledConfig.toBytes else []) }
  configVariable := none
  elapsed := 0
  platform := none

def projectInvocation (command : Command) : Invocation := ⟨false, "/project", none, command⟩

theorem loadConfig_project :
    Id.run (loadConfig projectHost (projectInvocation .config) ⟨"/project"⟩).run = .ok doubledConfig := by
  have hread : Id.run (projectHost.files.read "/project/stagegraph.json") = .ok doubledConfig.toBytes := rfl
  have hvalid : doubledConfig.validate = .ok () := by decide
  have hpath : Id.run (PipelineConfig.resolvePath projectHost.files (projectInvocation .config).config
      projectHost.configVariable "/project") = some "/project/stagegraph.json" := by decide
  rw [loadConfig_eq_ok_iff, hpath]
  exact PipelineConfig.load_of_isText hread doubledConfig.isText_toBytes doubledConfig.ofBytes_written.1 hvalid

theorem exists_compileProject_project :
    ∃ x, Id.run (compileProject projectHost (projectInvocation .config)).run = .ok x := by
  obtain ⟨x, hx⟩ := compile_doubled
  obtain ⟨info, hinfo⟩ : ∃ info, Id.run (Workspace.manifest projectHost.files ⟨"/project"⟩ "Makefile") = .ok info :=
    exists_eq_ok (by decide +kernel)
  have hcompile : Id.run (compileIn projectHost.files ⟨"/project"⟩ doubledConfig .target) = .ok x := by
    rw [run_compileIn, hx]
    change Except.mapError _ (Id.run (Workspace.manifest projectHost.files ⟨"/project"⟩ "Makefile")) >>= _ = _
    rw [hinfo]
    rfl
  refine ⟨x, ?_⟩
  rw [run_compileProject, bind_eq_ok_iff]
  refine ⟨⟨"/project"⟩, rfl, ?_⟩
  rw [loadConfig_project, bind_eq_ok_iff]
  exact ⟨doubledConfig, rfl, mapError_eq_ok_iff.2 hcompile⟩

theorem marshal_plan_agree_project :
    projectHost.files.Bounded ∧
      ∃ e d waves stages, Id.run (outcome projectHost (projectInvocation (.marshal true))) = e ∧ e.code = 0 ∧
        Definition.ofBytes e.stdout = .ok d ∧ d.InWaves waves ∧
        (Plan.ofWaves d waves stages none).Prints .json
          (Id.run (outcome projectHost (projectInvocation (.plan none .json)))) ∧
        ∀ other : Host Id, Id.run (other.files.read "definition.json") = .ok e.stdout →
          (Plan.ofWaves d waves [] (some (contentHash e.stdout))).Prints .text
            (Id.run (outcome other (projectInvocation (.plan (some "definition.json") .text)))) := by
  have hfiles : projectHost.files.Bounded := by
    intro path bytes hread
    obtain rfl := Except.ok.inj hread
    split
    · decide +kernel
    · exact Nat.zero_le _
  refine ⟨hfiles, ?_⟩
  rcases marshal_plan_agree projectHost hfiles (projectInvocation .config) true with
    ⟨e, he, hcode, -⟩ | ⟨e, d, waves, stages, he, hcode, hd, hin, hproject, hfile⟩
  · obtain ⟨x, hx⟩ := exists_compileProject_project
    rw [run_outcome, run_marshal, hx] at he
    exact absurd (he ▸ rfl) hcode
  · exact ⟨e, d, waves, stages, he, hcode, hd, hin, hproject .json,
      fun other hread => hfile other (projectInvocation .config) _ hread .text⟩

end Cli
end BuildGraph
