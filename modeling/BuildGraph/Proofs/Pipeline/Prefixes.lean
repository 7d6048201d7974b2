import BuildGraph.Proofs.Path.Normal
import BuildGraph.Proofs.Pipeline.Recipe
import Mathlib.Data.List.Induction

/-!
# What recipes have in common

Two stages of one config start at the same site, and from there each run leads to another one. Where runs have
differed once the sites differ for good (`BaseRecipe.root_siteAfter_inj`), and no run comes to something that is
there before the stages start: a filesystem lies as deep as the runs that have led to it are many. The results of two
stages are the same just if the recipes are (`StageRecipe.eq_of_tree_eq`).
-/

namespace BuildGraph

/-- How many operations lie behind an output, along the first input of each. -/
def Unfolding.depth : Unfolding → Nat
  | node _ _ [] => 0
  | node _ _ (u :: _) => u.depth + 1

/-- The arguments, the environment and the mounts of an exec tell what has been run. -/
theorem EffectiveRun.eq_of_exec_eq {workdir : String} {run run' : EffectiveRun}
    (h : run.exec workdir = run'.exec workdir) : run = run' := by
  obtain ⟨args, env, mode⟩ := run
  obtain ⟨args', env', mode'⟩ := run'
  obtain ⟨hprocess, hmounts⟩ := Exec.mk.inj h
  obtain ⟨rfl, rfl, -⟩ := Process.mk.inj hprocess
  cases mode <;> cases mode' <;> simp [WorkspaceMode.mountPoints] at hmounts ⊢

namespace Site

variable {workdir : String} {site site' : Site} {run run' : EffectiveRun}

theorem inputs_eq_cons (site : Site) (mode : WorkspaceMode) : ∃ others, site.inputs mode = site.root :: others := by
  cases mode <;> exact ⟨_, rfl⟩

/-- An output tells the run, its number, and the root filesystem that the run had. -/
theorem of_output_eq {index index' : Nat} (h : site.output workdir run index = site'.output workdir run' index') :
    run = run' ∧ index = index' ∧ site.root = site'.root := by
  obtain ⟨hop, hindex, hinputs⟩ := Unfolding.node.inj h
  obtain ⟨others, hsite⟩ := site.inputs_eq_cons run.workspace
  obtain ⟨others', hsite'⟩ := site'.inputs_eq_cons run'.workspace
  rw [hsite, hsite'] at hinputs
  exact ⟨EffectiveRun.eq_of_exec_eq (Op.exec.inj hop), hindex, (List.cons.inj hinputs).1⟩

theorem depth_output (workdir : String) (site : Site) (run : EffectiveRun) (index : Nat) :
    (site.output workdir run index).depth = site.root.depth + 1 := by
  obtain ⟨others, hinputs⟩ := site.inputs_eq_cons run.workspace
  rw [output, hinputs, Unfolding.depth]

theorem depth_afterAll (workdir : String) (site : Site) (runs : List EffectiveRun) :
    (site.afterAll workdir runs).root.depth = site.root.depth + runs.length := by
  induction runs generalizing site with
  | nil => rfl
  | cons run runs ih =>
      have hafter : (site.after workdir run).root.depth = site.root.depth + 1 := depth_output workdir site run 0
      have hrest := ih (site.after workdir run)
      rw [hafter] at hrest
      rw [List.length_cons, Nat.add_comm runs.length, ← Nat.add_assoc]
      exact hrest

end Site

namespace BaseRecipe

variable (b : BaseRecipe)

theorem depth_systemTree : b.systemTree.depth = 1 := Site.depth_output b.workdir _ b.system 0

theorem depth_installTree : b.installTree.depth = 2 :=
  (Site.depth_output b.workdir _ b.install 0).trans (congrArg (· + 1) b.depth_systemTree)

theorem depth_root_siteAfter (runs : List EffectiveRun) : (b.siteAfter runs).root.depth = runs.length + 2 := by
  rw [siteAfter, Site.depth_afterAll, start, depth_installTree, Nat.add_comm]

theorem depth_le_of_mem_trees {u : Unfolding} (hu : u ∈ b.trees) : u.depth ≤ 2 := by
  simp only [trees, List.mem_cons, List.not_mem_nil, or_false] at hu
  rcases hu with rfl | rfl | rfl | rfl | rfl
  · exact Nat.zero_le 2
  · rw [depth_systemTree]
    exact Nat.le_succ 1
  · exact Nat.zero_le 2
  · exact Nat.le_succ 1
  · rw [depth_installTree]

/-- The base adds five different filesystems. -/
theorem nodup_trees : b.trees.Nodup := by
  have himage : imageTree b.image ≠ contextTree b.context := imageTree_ne_contextTree b.image b.context
  have hinstall : b.systemTree ≠ b.installTree := by
    intro h
    have hdepth := congrArg Unfolding.depth h
    rw [depth_systemTree, depth_installTree] at hdepth
    cases hdepth
  simp only [trees, List.nodup_cons, List.mem_cons, List.not_mem_nil, not_or, not_false_eq_true, or_false,
    List.nodup_nil, and_true]
  refine ⟨⟨?_, himage, ?_, ?_⟩, ⟨?_, ?_, hinstall⟩, ⟨?_, ?_⟩, ?_⟩ <;>
    exact fun h => nomatch (Unfolding.node.inj h).1

/-- Sites behind different runs differ. -/
theorem root_siteAfter_inj {xs ys : List EffectiveRun} (h : (b.siteAfter xs).root = (b.siteAfter ys).root) :
    xs = ys := by
  have hlength : xs.length = ys.length := by
    have hdepth := congrArg Unfolding.depth h
    rw [depth_root_siteAfter, depth_root_siteAfter] at hdepth
    exact Nat.add_right_cancel hdepth
  induction xs using List.reverseRecOn generalizing ys with
  | nil => exact (List.length_eq_zero_iff.1 hlength.symm).symm
  | append_singleton xs x ih =>
      obtain rfl | ⟨ys, y, rfl⟩ := ys.eq_nil_or_concat'
      · simp at hlength
      · rw [siteAfter_concat, siteAfter_concat] at h
        obtain ⟨rfl, -, hroot⟩ := Site.of_output_eq h
        rw [ih hroot (by simpa using hlength)]

theorem index_root_siteAfter (runs : List EffectiveRun) : (b.siteAfter runs).root.index = 0 := by
  obtain rfl | ⟨runs, run, rfl⟩ := runs.eq_nil_or_concat'
  · rfl
  · rw [siteAfter_concat]
    rfl

end BaseRecipe

namespace StageRecipe

theorem depth_tree (r : StageRecipe) : r.tree.depth = r.runs.length + 3 := by
  have hheld : r.held.1.depth = r.runs.length + 2 := by
    rcases r.held_cases with hheld | ⟨before, run, rest, hruns, -, hheld⟩
    · rw [hheld, BaseRecipe.depth_root_siteAfter]
    · rw [hheld, hruns, List.length_append, Site.depth_output, BaseRecipe.depth_root_siteAfter]
      rfl
  exact congrArg (· + 1) hheld

/-- Where a result is held tells all runs and the path of the result. -/
theorem of_held_eq {r r' : StageRecipe} (hbase : r.base = r'.base)
    (hworkdir : Path.isAbsolute r.base.workdir.toList = true)
    (hr : Path.isAbsolute r.output.toList = true ∧ Path.normalize r.output = r.output)
    (hr' : Path.isAbsolute r'.output.toList = true ∧ Path.normalize r'.output = r'.output) (h : r.held = r'.held) :
    r.runs = r'.runs ∧ r.output = r'.output := by
  -- a root has number 0, a workspace that a run has left has number 1
  rcases r.held_cases with hheld | ⟨before, run, rest, hruns, hrest, hheld⟩ <;>
    rcases r'.held_cases with hheld' | ⟨before', run', rest', hruns', hrest', hheld'⟩ <;>
    rw [hheld, hheld', ← hbase] at h <;> obtain ⟨hfilesystem, hpath⟩ := Prod.mk.inj h
  · exact ⟨r.base.root_siteAfter_inj hfilesystem, hpath⟩
  · have hindex := congrArg Unfolding.index hfilesystem
    rw [BaseRecipe.index_root_siteAfter] at hindex
    cases hindex
  · have hindex := congrArg Unfolding.index hfilesystem
    rw [BaseRecipe.index_root_siteAfter] at hindex
    cases hindex
  · obtain ⟨rfl, -, hroot⟩ := Site.of_output_eq hfilesystem
    obtain rfl := r.base.root_siteAfter_inj hroot
    rw [← hbase, ← hpath] at hrest'
    have houtput := Path.normalize_eq_of_stripBase? hr.1 hr'.1 hworkdir hrest hrest'
    rw [hr.2, hr'.2] at houtput
    exact ⟨hruns.trans hruns'.symm, houtput⟩

/-- Stages with the same base have the same result only if they have the same recipe. -/
theorem eq_of_tree_eq {r r' : StageRecipe} (hbase : r.base = r'.base)
    (hworkdir : Path.isAbsolute r.base.workdir.toList = true)
    (hr : Path.isAbsolute r.output.toList = true ∧ Path.normalize r.output = r.output)
    (hr' : Path.isAbsolute r'.output.toList = true ∧ Path.normalize r'.output = r'.output) (h : r.tree = r'.tree) :
    r = r' := by
  obtain ⟨hop, -, hinputs⟩ := Unfolding.node.inj h
  obtain ⟨-, -, hpath, hexport, -⟩ := Copy.mk.inj (Op.copy.inj hop)
  have hheld : r.held = r'.held := Prod.ext (List.cons.inj hinputs).1 hpath
  obtain ⟨hruns, houtput⟩ := of_held_eq hbase hworkdir hr hr' hheld
  obtain ⟨base, runs, output, exportPath⟩ := r
  obtain ⟨base', runs', output', exportPath'⟩ := r'
  subst hbase hruns houtput hexport
  rfl

end StageRecipe

end BuildGraph
