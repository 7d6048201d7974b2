import BuildGraph.Proofs.Path.Host
import BuildGraph.Proofs.Pipeline.Assembly
import BuildGraph.Proofs.Pipeline.Workspace

/-!
# The manifest of a build

A manifest is named twice: the host looks for the file in the workspace before anything is built, and the graph copies
a path out of the local directory, for the run that installs the dependencies. The two meet on the names of the path.
What the host looks for lies behind the root of the workspace by just the names that lead from the root of the local
directory to what is copied (`manifest_file_copied`).
-/

namespace BuildGraph

/-- A state is left by a run that sees, at the work directory, what has been copied from a path of the local directory
that a config names. -/
def Graph.CopiesManifest (g : Graph) (b : BaseConfig) (s : State) (path : String) : Prop :=
  ∃ o x system manifest context, s.output = some o ∧ g.vertex? o.vertex = some ⟨.exec x, [system, manifest]⟩ ∧
    ⟨some 1, none, b.workdir, none, true⟩ ∈ x.mounts ∧
    g.vertex? manifest.vertex = some ⟨.copy ⟨none, some 0, path, path, .extract⟩, [context]⟩ ∧
    g.vertex? context.vertex =
      some ⟨.source ⟨"local://" ++ b.context, .ofList [(Build.localHint, b.context)]⟩, []⟩

/-- The copy that a base is built with is that of its manifest, from the root of the local directory. -/
theorem copiesManifest_of_baseState {b : BaseConfig} {g g' : Graph} {s : State} (hg : g.Sound)
    (h : (Build.baseState b).run g = (.ok s, g')) : g'.CopiesManifest b s (Path.join "/" b.manifest) := by
  obtain ⟨r, hr, -, hg', ⟨o, ho, hshows⟩, -⟩ := (Build.follows_baseState hg b).of_run_eq_ok h
  obtain ⟨-, -, -, -, hcontext, hmanifest, hworkdir⟩ := BaseConfig.recipe_eq_ok_iff.1 hr
  have hmode := BaseConfig.install_readOnly hr
  have hunfold := hshows.unfold
  rw [r.installTree_eq hmode] at hunfold
  -- the installation, the copy that it sees, and the directory that is copied from
  obtain ⟨inputs, hrun, hinputs⟩ := Graph.exists_vertex_of_unfold hg' hunfold
  simp only [List.forall₂_cons_right_iff, List.forall₂_nil_right_iff] at hinputs
  obtain ⟨system, -, -, ⟨manifest, -, hmanifestTree, rfl, rfl⟩, rfl⟩ := hinputs
  obtain ⟨inputs, hcopy, hinputs⟩ := Graph.exists_vertex_of_unfold hg' hmanifestTree
  simp only [List.forall₂_cons_right_iff, List.forall₂_nil_right_iff] at hinputs
  obtain ⟨context, -, hcontextTree, rfl, rfl⟩ := hinputs
  obtain ⟨inputs, hsource, hinputs⟩ := Graph.exists_vertex_of_unfold hg' hcontextTree
  obtain rfl := List.forall₂_nil_right_iff.1 hinputs
  rw [Graph.CopiesManifest, Path.join_root, ← hmanifest, ← hcontext, ← hworkdir]
  refine ⟨o, _, system, manifest, context, ho, hrun, ?_, hcopy, hsource⟩
  rw [EffectiveRun.exec, hmode]
  exact List.mem_cons_of_mem _ List.mem_cons_self

theorem Workspace.manifest_eq_ok {files : Files Id} {w : Workspace} {path : String} {info : ManifestInfo}
    (h : Id.run (w.manifest files path) = .ok info) :
    w.file path = .ok info.path ∧ files.isFile info.path = true := by
  unfold Workspace.manifest at h
  split at h
  · cases h
  · rename_i file hfile
    simp only [Id.run, pure, bind] at h
    split at h
    · rename_i hchecked
      split at h
      · cases h
      · obtain rfl := Except.ok.inj h
        exact ⟨hfile, hchecked⟩
    · cases h

/-- A manifest can be looked for in a workspace just if it is a path that does not begin at the root and has no `..`,
which is to say that none of the components that the host finds in it leads out of a directory. The file that is
looked for then lies behind the root of the workspace by some names, and by the same names the path that is copied
into the graph lies behind the root of the local directory. A workspace that has been opened has an absolute root, so
it is not the empty path. -/
theorem manifest_file_copied (w : Workspace) (hw : w.root ≠ "") (path : String) :
    ((∃ file, w.file path = .ok file) ↔
        path ≠ "" ∧ path.toList.head? ≠ some '/' ∧ Path.up ∉ Path.segments path.toList) ∧
      ((∃ file, w.file path = .ok file) ↔ path ≠ "" ∧ ∀ c ∈ Path.hostComponents path, c.Stays) ∧
      ∀ file, w.file path = .ok file →
        (∃ names : List Path.Segment, (∀ s ∈ names, Path.Plain s) ∧
          Path.hostComponents file = Path.hostComponents w.root ++ names.map .name ∧
          Path.hostComponents (Path.join "/" path) = .root :: names.map .name) ∧
        (∀ (files : Files Id) (info : ManifestInfo), Id.run (w.manifest files path) = .ok info →
          info.path = file ∧ files.isFile file = true) ∧
        ∀ (b : BaseConfig) (g g' : Graph) (s : State), b.manifest = path → g.Reachable →
          (Build.baseState b).run g = (.ok s, g') → g'.CopiesManifest b s (Path.join "/" path) := by
  have hfile : (∃ file, w.file path = .ok file) ↔ Workspace.isInner path = true := by
    simp [Workspace.file_eq_ok_iff]
  refine ⟨hfile.trans Workspace.isInner_iff, hfile.trans Workspace.isInner_iff_stays, fun file hok => ⟨?_, ?_, ?_⟩⟩
  · obtain ⟨hinner, rfl⟩ := Workspace.file_eq_ok_iff.1 hok
    obtain ⟨-, hrelative, hup⟩ := Workspace.isInner_iff.1 hinner
    obtain ⟨names, hplain, htrail, hjoin⟩ := Path.exists_join_root_eq_rooted hup
    refine ⟨names, hplain, ?_, ?_⟩
    · rw [Path.hostComponents_hostJoin hw (by simpa [Path.isAbsolute] using hrelative), htrail]
    · rw [hjoin, Path.hostComponents_rooted hplain]
  · intro files info hinfo
    obtain ⟨hpath, hchecked⟩ := Workspace.manifest_eq_ok hinfo
    obtain rfl := Except.ok.inj (hok.symm.trans hpath)
    exact ⟨rfl, hchecked⟩
  · rintro b g g' s rfl hg hrun
    exact copiesManifest_of_baseState hg.sound hrun

/-- A project whose manifest is named with more dots and slashes than needed. -/
def spelledBase : BaseConfig := ⟨"alpine", "apk add pip", "pip install", "./deps//list.txt", "/app", "src"⟩

theorem manifest_file_copied_spelled :
    (⟨"/project"⟩ : Workspace).root ≠ "" ∧ ∃ names : List Path.Segment, ∃ s g',
      (⟨"/project"⟩ : Workspace).file spelledBase.manifest = .ok "/project/./deps//list.txt" ∧
      Path.hostComponents "/project/./deps//list.txt" = Path.hostComponents "/project" ++ names.map .name ∧
      Path.hostComponents "/deps/list.txt" = .root :: names.map .name ∧
      (Build.baseState spelledBase).run (.empty ⟨0⟩) = (.ok s, g') ∧
      g'.CopiesManifest spelledBase s "/deps/list.txt" := by
  have hroot : (⟨"/project"⟩ : Workspace).root ≠ "" := by decide
  have hfound : (⟨"/project"⟩ : Workspace).file spelledBase.manifest = .ok "/project/./deps//list.txt" := by
    decide +kernel
  have hjoin : Path.join "/" spelledBase.manifest = "/deps/list.txt" := by decide +kernel
  obtain ⟨s, g', hrun⟩ : ∃ s g', (Build.baseState spelledBase).run (.empty ⟨0⟩) = (.ok s, g') :=
    Build.exists_run_eq_ok (by decide +kernel)
  obtain ⟨-, -, hcopied⟩ := manifest_file_copied ⟨"/project"⟩ hroot spelledBase.manifest
  obtain ⟨⟨names, -, hfile, hcopy⟩, -, hbase⟩ := hcopied _ hfound
  have hmanifest := hbase spelledBase _ _ _ rfl (.empty ⟨0⟩) hrun
  rw [hjoin] at hcopy hmanifest
  exact ⟨hroot, names, s, g', hfound, hfile, hcopy, hrun, hmanifest⟩

end BuildGraph
