import BuildGraph.Proofs.Export.Success
import BuildGraph.Proofs.Path.Climb
import BuildGraph.Proofs.Pipeline.Manifest
import BuildGraph.Proofs.Pipeline.Outcome

/-!
# Manifests that stay in the workspace

Three places read the path of a manifest. A valid config has a relative one, which may go up. A workspace refuses every
path with `..`, wherever that leads. And a build copies what the path leads to from the root of the local directory,
above which there is nothing, so that a way out of the workspace becomes a way inside.

The three agree just where the path has no `..` (`confined_iff`). Where it goes up and comes back, only the workspace
refuses it; where it leads out, what is copied is another file than the one that the path names.
-/

namespace BuildGraph

/-- The manifest of a config is one file of the workspace for whoever looks at its path. The way to it does not leave
the workspace, what is copied is what the path names, and the workspace accepts the path, so that a build for the
workspace refuses it just if a build by itself does. -/
structure PipelineConfig.Confined (c : PipelineConfig) (w : Workspace) : Prop where
  stays : Path.StaysIn w.root c.base.manifest
  names : Path.join w.root c.base.manifest =
    Path.rooted (Path.parts w.root ++ Path.parts (Build.manifestPath c.base))
  accepted : ∃ file, w.file c.base.manifest = .ok file
  agrees : ∀ (files : Files Id) (platform : Platform),
    Id.run (compileIn files w c platform) = .error (.workspace (.outsideWorkspace c.base.manifest)) ↔
      compile c platform = .error (.pipeline (.invalidConfig (.badManifest c.base.manifest)))

theorem Path.climb_eq_zero_of_up_notMem {path : String} (h : up ∉ segments path.toList) : climb path = 0 := by
  obtain ⟨names, hplain, -, hstack⟩ := exists_names_of_up_notMem (fun _ => slash_notMem_segments) h
  rw [climb, parts, reduce, hstack, List.append_nil, List.reverse_reverse, count_up_of_plain hplain]

theorem PipelineConfig.isManifest_iff {path : String} :
    isManifest path = true ↔ path ≠ "" ∧ Path.isAbsolute path.toList = false := by
  simp [isManifest]

/-- Of the manifest of a valid config a workspace asks no more than that it does not go up. -/
theorem Workspace.isInner_iff_of_isManifest {path : String} (h : PipelineConfig.isManifest path = true) :
    isInner path = true ↔ Path.up ∉ Path.segments path.toList := by
  obtain ⟨hne, hrelative⟩ := PipelineConfig.isManifest_iff.1 h
  have hhead : path.toList.head? ≠ some '/' := by simpa [Path.isAbsolute] using hrelative
  rw [isInner_iff, and_iff_right hne, and_iff_right hhead]

/-- A workspace refuses a path before it looks for the file. -/
theorem Workspace.manifest_eq_outside_iff {files : Files Id} {w : Workspace} {path : String} :
    Id.run (w.manifest files path) = .error (.outsideWorkspace path) ↔ isInner path = false := by
  unfold Workspace.manifest Workspace.file
  cases isInner path with
  | false => exact iff_of_true rfl rfl
  | true =>
      refine iff_of_false ?_ nofun
      simp only [Id.run, pure, bind, if_true]
      split
      · split <;> nofun
      · nofun

namespace Build

/-- What can be wrong with a config that is compiled by itself. -/
theorem compile_error_cases {c : PipelineConfig} {platform : Platform} {e : ExportError}
    (h : BuildGraph.compile c platform = .error e) :
    (∃ reason, c.Failure reason ∧ e = .pipeline reason) ∨ (∃ reason, e = .marshal reason) ∨
      ∃ reason, e = .dag reason := by
  cases hassembled : (assemble c).run (.empty ⟨0⟩) with
  | mk result g =>
      cases result with
      | error reason =>
          have hfailure := (error_iff_failure c (Graph.sound_empty ⟨0⟩)).1 (congrArg Prod.fst hassembled)
          rw [BuildGraph.compile, compile, run_bind, run_mapError, hassembled] at h
          exact .inl ⟨reason, hfailure, (Except.error.inj h).symm⟩
      | ok p =>
          right
          obtain ⟨merged, g', -, hmerged, -⟩ := exists_merged_of_assemble hassembled
          rw [compile_of_merged hassembled hmerged] at h
          rcases bind_eq_error_iff.1 h with h | ⟨d, -, h⟩
          · obtain ⟨reason, -, rfl⟩ := mapError_eq_error_iff.1 h
            exact .inl ⟨reason, rfl⟩
          · rcases bind_eq_error_iff.1 h with h | ⟨dag, -, h⟩
            · obtain ⟨reason, -, rfl⟩ := mapError_eq_error_iff.1 h
              exact .inr ⟨reason, rfl⟩
            · cases h

end Build

/-- A build by itself never refuses a valid config for the path of its manifest. -/
theorem compile_ne_badManifest {c : PipelineConfig} (hc : c.validate = .ok ()) (platform : Platform) (path : String) :
    compile c platform ≠ .error (.pipeline (.invalidConfig (.badManifest path))) := by
  intro h
  rcases Build.compile_error_cases h with ⟨reason, hfailure, heq⟩ | ⟨reason, heq⟩ | ⟨reason, heq⟩
  · cases heq
    cases hfailure with
    | config hproblem =>
        rw [hc] at hproblem
        cases hproblem
  · cases heq
  · cases heq

/-- A build for a workspace refuses the path of a manifest just if the workspace does. -/
theorem compileIn_eq_outside_iff {files : Files Id} {w : Workspace} {c : PipelineConfig} {platform : Platform} :
    Id.run (compileIn files w c platform) = .error (.workspace (.outsideWorkspace c.base.manifest)) ↔
      Workspace.isInner c.base.manifest = false := by
  rw [run_compileIn, bind_eq_error_iff, mapError_eq_error_iff, ← Workspace.manifest_eq_outside_iff]
  constructor
  · rintro (⟨reason, hreason, heq⟩ | ⟨info, -, h⟩)
    · cases heq
      exact hreason
    · rcases Build.compile_error_cases h with ⟨reason, -, heq⟩ | ⟨reason, heq⟩ | ⟨reason, heq⟩ <;> cases heq
  · intro h
    exact .inl ⟨_, h, rfl⟩

/-- The manifest of a valid config is confined to a workspace just if its path has no `..`. That the way to it does not
leave the workspace, or that what is copied is what the path names, takes no more than that the path does not climb, or
that there is nothing above the workspace. -/
theorem confined_iff {c : PipelineConfig} (hc : c.validate = .ok ()) {w : Workspace}
    (hw : Path.isAbsolute w.root.toList = true) :
    (c.Confined w ↔ Path.up ∉ Path.segments c.base.manifest.toList) ∧
      (Path.StaysIn w.root c.base.manifest ↔ Path.climb c.base.manifest = 0 ∨ Path.parts w.root = []) ∧
      (Path.join w.root c.base.manifest = Path.rooted (Path.parts w.root ++ Path.parts (Build.manifestPath c.base)) ↔
        Path.climb c.base.manifest = 0 ∨ Path.parts w.root = []) ∧
      ∀ (g g' : Graph) (s : State), g.Reachable → (Build.baseState c.base).run g = (.ok s, g') →
        g'.CopiesManifest c.base s (Build.manifestPath c.base) := by
  have hmanifest := (PipelineConfig.validate_eq_ok_iff.1 hc).manifest
  have hrelative := (PipelineConfig.isManifest_iff.1 hmanifest).2
  have hinner := Workspace.isInner_iff_of_isManifest hmanifest
  have hstays : Path.StaysIn w.root c.base.manifest ↔ _ := Path.staysIn_iff hrelative
  have hnames := Path.join_eq_rooted_iff hw hrelative
  refine ⟨⟨fun h => ?_, fun hup => ?_⟩, hstays, hnames, fun g g' s hg hrun => copiesManifest_of_baseState hg.sound hrun⟩
  · obtain ⟨file, hfile⟩ := h.accepted
    exact hinner.1 (Workspace.file_eq_ok_iff.1 hfile).1
  · have hclimb := Path.climb_eq_zero_of_up_notMem hup
    refine ⟨hstays.2 (.inl hclimb), hnames.2 (.inl hclimb), ⟨_, Workspace.file_eq_ok_iff.2 ⟨hinner.2 hup, rfl⟩⟩, ?_⟩
    intro files platform
    rw [compileIn_eq_outside_iff, hinner.2 hup]
    exact iff_of_false nofun (compile_ne_badManifest hc platform _)

/-- A pipeline of one stage whose dependencies are listed at some path. -/
def listedAt (manifest : String) : PipelineConfig :=
  ⟨⟨"alpine", "apk add make", "make deps", manifest, "/app", "src"⟩,
    [⟨"build", [], [⟨"make", .empty, .readWrite⟩], "/app/dist", none⟩]⟩

/-- A path that goes up and comes back stays in the workspace, which refuses it. -/
theorem confined_iff_returning :
    (listedAt "deps/../list.txt").validate = .ok () ∧ Path.isAbsolute "/project".toList = true ∧
      ¬(listedAt "deps/../list.txt").Confined ⟨"/project"⟩ ∧ Path.StaysIn "/project" "deps/../list.txt" ∧
      Path.join "/project" "deps/../list.txt" = Path.rooted (Path.parts "/project" ++ Path.parts "/list.txt") := by
  have hvalid : (listedAt "deps/../list.txt").validate = .ok () := by decide +kernel
  have hclimb : Path.climb "deps/../list.txt" = 0 := by decide +kernel
  have hpath : Build.manifestPath (listedAt "deps/../list.txt").base = "/list.txt" := by decide +kernel
  obtain ⟨hconfined, hstays, hnames, -⟩ := confined_iff hvalid (w := ⟨"/project"⟩) rfl
  rw [hpath] at hnames
  refine ⟨hvalid, rfl, ?_, hstays.2 (.inl hclimb), hnames.2 (.inl hclimb)⟩
  exact fun h => absurd (by decide +kernel) (hconfined.1 h)

/-- A valid config may name a file outside of the workspace. A build by itself copies another file for it, and a build
for the workspace refuses the path. -/
theorem climbing_manifest_valid :
    (listedAt "../secret.txt").validate = .ok () ∧
      ¬Path.StaysIn "/project" "../secret.txt" ∧ Path.join "/project" "../secret.txt" = "/secret.txt" ∧
      Path.rooted (Path.parts "/project" ++ Path.parts (Build.manifestPath (listedAt "../secret.txt").base)) =
        "/project/secret.txt" ∧
      (∃ p g, (Build.assemble (listedAt "../secret.txt")).run (.empty ⟨0⟩) = (.ok p, g)) ∧
      (⟨"/project"⟩ : Workspace).file "../secret.txt" = .error (.outsideWorkspace "../secret.txt") ∧
      ∀ (files : Files Id) (platform : Platform),
        Id.run (compileIn files ⟨"/project"⟩ (listedAt "../secret.txt") platform) =
          .error (.workspace (.outsideWorkspace "../secret.txt")) := by
  have houtside : Workspace.isInner "../secret.txt" = false := by decide +kernel
  refine ⟨by decide +kernel, by decide +kernel, by decide +kernel, by decide +kernel,
    Build.exists_run_eq_ok (by decide +kernel), by decide +kernel, fun files platform => ?_⟩
  exact compileIn_eq_outside_iff.2 houtside

end BuildGraph
