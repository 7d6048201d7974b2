import BuildGraph.Proofs.Cli.Agreement

/-!
# A printed config is loaded again

`config` writes the config that applies to an invocation, which is a valid one, also where it is the built-in one. What
it writes is text and is read as the config, so whoever names a file of these bytes has the same config, on any machine
and in any workspace. Of the workspace only the manifest matters to what is compiled. So a project that has its manifest
is compiled from the file to what it was compiled to before (`printed_config_loads`).
-/

namespace BuildGraph

open Json

/-- A valid config is loaded from a file of what is printed of it. -/
theorem PipelineConfig.load_printed {files : Files Id} {path : String} {c : PipelineConfig}
    (hvalid : c.validate = .ok ()) (hread : Id.run (files.read path) = .ok (c.toPrettyBytes ++ [0x0a])) :
    Id.run (load files path) = .ok c := by
  have hnewline : IsText [0x0a] := isText_ascii (by decide)
  exact load_of_isText hread (c.isText_toPrettyBytes.append hnewline) c.ofBytes_written.2.2 hvalid

namespace Cli

/-- The config that an invocation is about. -/
def Applies (host : Host Id) (inv : Invocation) (c : PipelineConfig) : Prop :=
  ∃ w, Id.run (openWorkspace host inv).run = .ok w ∧ Id.run (loadConfig host inv w).run = .ok c

/-- The workspace of an invocation can be opened and has the manifest. -/
def HasManifest (host : Host Id) (inv : Invocation) (manifest : String) : Prop :=
  ∃ w info, Id.run (openWorkspace host inv).run = .ok w ∧ Id.run (w.manifest host.files manifest) = .ok info

variable {host : Host Id} {inv : Invocation} {c : PipelineConfig}

/-- Whatever is loaded is valid, and so is the built-in config. -/
theorem validate_of_loadConfig {w : Workspace} (h : Id.run (loadConfig host inv w).run = .ok c) :
    c.validate = .ok () := by
  rw [loadConfig_eq_ok_iff] at h
  split at h
  · rw [h]
    decide
  · obtain ⟨-, -, -, hvalid⟩ := PipelineConfig.load_eq_ok_iff.1 h
    exact hvalid

theorem run_config_eq_ok_iff {report : Report} :
    Id.run (run host { inv with command := .config }) = .ok report ↔
      ∃ c, Applies host inv c ∧ report = .ofBytes (c.toPrettyBytes ++ [0x0a]) := by
  change Id.run (ExceptT.run (openWorkspace host inv >>= _)) = _ ↔ _
  rw [run_bind]
  simp only [run_bind_pure, bind_eq_ok_iff, map_eq_ok_iff]
  constructor
  · rintro ⟨w, hw, c, hc, rfl⟩
    exact ⟨c, ⟨w, hw, hc⟩, rfl⟩
  · rintro ⟨c, ⟨w, hw, hc⟩, rfl⟩
    exact ⟨w, hw, c, hc, rfl⟩

theorem run_compileProject_of_loadConfig {w : Workspace} (hw : Id.run (openWorkspace host inv).run = .ok w)
    (hload : Id.run (loadConfig host inv w).run = .ok c) :
    Id.run (compileProject host inv).run =
      ((Id.run (w.manifest host.files c.base.manifest)).mapError ExportError.workspace >>= fun _ =>
        compile c .target).mapError fun e => ⟨"Failed to compile pipeline", e.causes⟩ := by
  rw [run_compileProject, hw]
  change Id.run (loadConfig host inv w).run >>= _ = _
  rw [hload, ← run_compileIn]
  rfl

/-- In a workspace with the manifest, a project is compiled to what its config is compiled to. -/
theorem run_compileProject_of_manifest (hc : Applies host inv c) (hmanifest : HasManifest host inv c.base.manifest) :
    Id.run (compileProject host inv).run =
      (compile c .target).mapError fun e => ⟨"Failed to compile pipeline", e.causes⟩ := by
  obtain ⟨w, hw, hload⟩ := hc
  obtain ⟨w', info, hw', hinfo⟩ := hmanifest
  obtain rfl := Except.ok.inj (hw.symm.trans hw')
  rw [run_compileProject_of_loadConfig hw hload, hinfo]
  rfl

theorem hasManifest_of_compileProject (hc : Applies host inv c) {x : Export}
    (h : Id.run (compileProject host inv).run = .ok x) : HasManifest host inv c.base.manifest := by
  obtain ⟨w, hw, hload⟩ := hc
  rw [run_compileProject_of_loadConfig hw hload, mapError_eq_ok_iff] at h
  obtain ⟨info, hinfo, -⟩ := bind_eq_ok_iff.1 h
  exact ⟨w, info, hw, mapError_eq_ok_iff.1 hinfo⟩

/-- Every config is read back from its compact and from its indented file. What `config` writes is the indented file of
the config that applies, and a valid config. A file of these bytes is loaded as that config, and where it is named, a
project with the manifest is compiled to what the project was compiled to before. -/
theorem printed_config_loads :
    (∀ c : PipelineConfig,
      PipelineConfig.ofBytes c.toBytes = .ok c ∧ PipelineConfig.ofBytes c.toPrettyBytes = .ok c) ∧
    ∀ (host : Host Id) (inv : Invocation),
      (∀ report, Id.run (run host { inv with command := .config }) = .ok report ↔
        ∃ c, Applies host inv c ∧ report = .ofBytes (c.toPrettyBytes ++ [0x0a])) ∧
      ∀ c, Applies host inv c →
        c.validate = .ok () ∧
        (∀ x, Id.run (compileProject host inv).run = .ok x → HasManifest host inv c.base.manifest) ∧
        ∀ (other : Host Id) (again : Invocation) (path : String),
          Id.run (other.files.read path) = .ok (c.toPrettyBytes ++ [0x0a]) →
            Id.run (PipelineConfig.load other.files path) = .ok c ∧
            (∀ w, Id.run (loadConfig other { again with config := some path } w).run = .ok c) ∧
            (HasManifest host inv c.base.manifest → HasManifest other again c.base.manifest →
              Id.run (compileProject other { again with config := some path }).run =
                Id.run (compileProject host inv).run) := by
  refine ⟨fun c => ⟨c.ofBytes_written.1, c.ofBytes_written.2.1⟩, fun host inv =>
    ⟨fun report => run_config_eq_ok_iff, fun c hc => ?_⟩⟩
  obtain ⟨w, hw, hload⟩ := hc
  have hvalid := validate_of_loadConfig hload
  refine ⟨hvalid, fun x hx => hasManifest_of_compileProject ⟨w, hw, hload⟩ hx, fun other again path hread => ?_⟩
  have hagain : Id.run (PipelineConfig.load other.files path) = .ok c := PipelineConfig.load_printed hvalid hread
  -- a file that is asked for goes first, whatever else there is
  have hasked : ∀ w, Id.run (loadConfig other { again with config := some path } w).run = .ok c := fun _ =>
    loadConfig_eq_ok_iff.2 hagain
  refine ⟨hagain, hasked, fun hmanifest hmanifest' => ?_⟩
  have hthere : Applies other { again with config := some path } c := by
    obtain ⟨w', -, hw', -⟩ := hmanifest'
    exact ⟨w', hw', hasked w'⟩
  rw [run_compileProject_of_manifest hthere hmanifest', run_compileProject_of_manifest ⟨w, hw, hload⟩ hmanifest]

/-- The machine of the project, where a file has what is printed of its config. -/
def printedHost : Host Id :=
  { projectHost with
    files := { projectHost.files with
      read := fun path => .ok (if path = "printed.json" then doubledConfig.toPrettyBytes ++ [0x0a] else []) } }

/-- A config with quotes, control characters, characters of several bytes, a stage named like a literal, and with each
mode, fields that are missing and fields that are not. -/
def unusualConfig : PipelineConfig where
  base := ⟨"alpine", "\"\\\x00\n\x1f", "é", "😀.txt", "/app", "\x7f"⟩
  stages :=
    [⟨"a\tb", ["", "\x5cu0041"], [⟨"run", .ofList [("b", "\\"), ("a", "")], .readOnly⟩, ⟨"\r", .empty, .none⟩], "/out",
        some "/é/😀"⟩,
      ⟨"null", [], [⟨"", .empty, .readWrite⟩], "", some ""⟩, ⟨"", [], [], "/", none⟩]

/-- The config of the project is printed, and is found again in the file. -/
theorem printed_config_loads_project :
    (PipelineConfig.ofBytes unusualConfig.toBytes = .ok unusualConfig ∧
      PipelineConfig.ofBytes unusualConfig.toPrettyBytes = .ok unusualConfig) ∧
    ∃ report x, Id.run (run projectHost (projectInvocation .config)) = .ok report ∧
      Id.run (printedHost.files.read "printed.json") = .ok report.stdout ∧
      Id.run (PipelineConfig.load printedHost.files "printed.json") = .ok doubledConfig ∧
      Id.run (compileProject projectHost (projectInvocation .config)).run = .ok x ∧
      Id.run (compileProject printedHost { projectInvocation .config with config := some "printed.json" }).run =
        .ok x := by
  obtain ⟨hcodec, hconfig⟩ := printed_config_loads
  obtain ⟨hprinted, hloads⟩ := hconfig projectHost (projectInvocation .config)
  have hc : Applies projectHost (projectInvocation .config) doubledConfig := ⟨⟨"/project"⟩, rfl, loadConfig_project⟩
  obtain ⟨-, hneeds, hagain⟩ := hloads doubledConfig hc
  obtain ⟨x, hx⟩ := exists_compileProject_project
  have hread : Id.run (printedHost.files.read "printed.json") = .ok (doubledConfig.toPrettyBytes ++ [0x0a]) := rfl
  have hthere : HasManifest printedHost (projectInvocation .config) "Makefile" := by
    obtain ⟨info, hinfo⟩ : ∃ info, Id.run (Workspace.manifest printedHost.files ⟨"/project"⟩ "Makefile") = .ok info :=
      exists_eq_ok (by decide +kernel)
    exact ⟨⟨"/project"⟩, info, rfl, hinfo⟩
  obtain ⟨hload, -, hsame⟩ := hagain printedHost (projectInvocation .config) "printed.json" hread
  refine ⟨hcodec unusualConfig, _, x, (hprinted _).2 ⟨doubledConfig, hc, rfl⟩, hread, hload, hx, ?_⟩
  exact (hsame (hneeds x hx) hthere).trans hx

end Cli
end BuildGraph
