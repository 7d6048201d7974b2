import BuildGraph.Proofs.Definition.Marshalable
import BuildGraph.Proofs.Graph.Consistency
import BuildGraph.Proofs.Op.Mistakes
import BuildGraph.Proofs.Path.Within
import Mathlib.Data.List.Induction
import Mathlib.Data.List.Pairwise

/-!
# The mount that holds a path

After a run a path is looked for in the mounts that can be written, and a mount can be asked for by its target. The
first goes by the lengths of texts, and takes the last one of several of the same length; the second takes the first
mount with the target. What is said here is that they agree: a path is held by the mount with the deepest target that
the path lies in, and that mount is the one found by this target (`holder_mount_agree`).

This needs the mounts of a valid operation, which are at different absolute paths, and outputs that differ
(`RunResult.Proper`). Then the targets that a path lies in form a chain, in which a longer text is a deeper target.
-/

namespace BuildGraph

/-- The targets of the mounts that can be written. -/
def RunOptions.writable (options : RunOptions) : List String :=
  (options.mounts.filter fun m => !m.readonly).map (·.target)

/-- Of some directories one that a path lies in, such that it lies in no deeper one of them. -/
structure Deepest (dirs : List String) (path dir : String) : Prop where
  mem : dir ∈ dirs
  within : Path.Within path dir
  deepest : ∀ d ∈ dirs, Path.Within path d → Path.depth d ≤ Path.depth dir

theorem Deepest.parts_eq {dirs : List String} {path dir dir' : String} (h : Deepest dirs path dir)
    (h' : Deepest dirs path dir') : Path.parts dir = Path.parts dir' :=
  h.within.parts_eq h'.within (Nat.le_antisymm (h'.deepest dir h.mem h.within) (h.deepest dir' h'.mem h'.within))

theorem deepest?_concat (holders : List Holder) (h : Holder) :
    deepest? (holders ++ [h]) =
      match deepest? holders with
      | none => some h
      | some b => if b.depth ≤ h.depth then some h else some b := by
  unfold deepest?
  rw [List.foldl_append]
  rfl

/-- Nothing is found only where there is nothing, and what is found is as deep as anything. -/
theorem deepest?_cases (holders : List Holder) :
    deepest? holders = none ∧ holders = [] ∨
      ∃ b ∈ holders, deepest? holders = some b ∧ ∀ h ∈ holders, h.depth ≤ b.depth := by
  induction holders using List.reverseRecOn with
  | nil => exact .inl ⟨rfl, rfl⟩
  | append_singleton holders h ih =>
      right
      rw [deepest?_concat]
      rcases ih with ⟨hnone, rfl⟩ | ⟨b, hb, hsome, hle⟩
      · rw [hnone]
        exact ⟨h, by simp, rfl, by simp⟩
      · rw [hsome]
        dsimp only
        by_cases hdeeper : b.depth ≤ h.depth
        · rw [if_pos hdeeper]
          refine ⟨h, by simp, rfl, fun x hx => ?_⟩
          rcases List.mem_append.1 hx with hx | hx
          · exact Nat.le_trans (hle x hx) hdeeper
          · rw [List.mem_singleton.1 hx]
        · rw [if_neg hdeeper]
          refine ⟨b, List.mem_append_left _ hb, rfl, fun x hx => ?_⟩
          rcases List.mem_append.1 hx with hx | hx
          · exact hle x hx
          · rw [List.mem_singleton.1 hx]
            exact Nat.le_of_not_le hdeeper

theorem MountResult.holder?_eq_some_iff {path : String} {m : MountResult} {h : Holder}
    (hpath : Path.isAbsolute path.toList = true) (hm : Path.isAbsolute m.target.toList = true) :
    m.holder? path = some h ↔
      ∃ index below, m.output = some index ∧ Path.parts path = Path.parts m.target ++ below ∧
        h = ⟨(Path.normalize m.target).utf8ByteSize, index, Path.rooted below⟩ := by
  constructor
  · intro hholder
    obtain ⟨index, hindex, hholder⟩ := Option.bind_eq_some_iff.1 hholder
    obtain ⟨rest, hrest, hholder⟩ := Option.bind_eq_some_iff.1 hholder
    obtain ⟨below, hparts, rfl⟩ := (Path.stripBase?_eq_some_iff hpath hm).1 hrest
    exact ⟨index, below, hindex, hparts, (Option.some.inj hholder).symm⟩
  · rintro ⟨index, below, hindex, hparts, rfl⟩
    have hrest := (Path.stripBase?_eq_some_iff hpath hm).2 ⟨below, hparts, rfl⟩
    simp [holder?, hindex, hrest]

namespace RunResult

/-- The targets of the mounts that have an output. -/
def writable (r : RunResult) : List String := (r.mounts.filter (·.output.isSome)).map (·.target)

/-- The mounts are at different absolute paths, and their outputs differ. -/
structure Proper (r : RunResult) : Prop where
  absolute : ∀ m ∈ r.mounts, Path.isAbsolute m.target.toList = true
  targets : (r.mounts.map fun m => Path.normalize m.target).Nodup
  outputs : (r.mounts.filterMap (·.output)).Nodup

variable {r : RunResult}

theorem mem_writable_iff {target : String} :
    target ∈ r.writable ↔ ∃ m ∈ r.mounts, ∃ index, m.output = some index ∧ m.target = target := by
  simp [writable, Option.isSome_iff_exists, and_assoc]

theorem absolute_of_mem_writable (hr : r.Proper) {target : String} (h : target ∈ r.writable) :
    Path.isAbsolute target.toList = true := by
  obtain ⟨m, hm, -, -, rfl⟩ := mem_writable_iff.1 h
  exact hr.absolute m hm

/-- A mount is found by its target. -/
theorem mount_of_mem (hr : r.Proper) {m : MountResult} (hm : m ∈ r.mounts) {index : Nat}
    (hindex : m.output = some index) {target : String} (htarget : Path.normalize target = Path.normalize m.target) :
    r.mount target = .ok (r.output index) := by
  obtain ⟨before, after, hsplit⟩ := List.append_of_mem hm
  have hfind : r.mounts.find? (fun m => Path.normalize m.target == Path.normalize target) = some m := by
    refine List.find?_eq_some_iff_append.2 ⟨beq_iff_eq.2 htarget.symm, before, after, hsplit, fun m' hm' => ?_⟩
    have htargets := hr.targets
    rw [hsplit, List.map_append, List.map_cons, List.nodup_append] at htargets
    have hne := htargets.2.2 _ (List.mem_map_of_mem hm') _ List.mem_cons_self
    rw [htarget, beq_false_of_ne hne]
    rfl
  rw [mount, hfind]
  dsimp only
  rw [hindex]

/-- Mounts with the same output are the same. -/
theorem eq_of_output_eq (hr : r.Proper) {m m' : MountResult} (hm : m ∈ r.mounts) (hm' : m' ∈ r.mounts) {index : Nat}
    (hindex : m.output = some index) (hindex' : m'.output = some index) : m = m' := by
  have hsymm : Std.Symm fun m m' : MountResult => ∀ b, m.output = some b → ∀ b', m'.output = some b' → b ≠ b' :=
    ⟨fun _ _ h b hb b' hb' => (h b' hb' b hb).symm⟩
  by_contra hne
  exact (List.pairwise_filterMap.1 hr.outputs).forall hm hm' hne index hindex index hindex' rfl

/-- A path is held by a mount with the deepest target that it lies in, if there is one, or by the root. -/
theorem holder_cases (hr : r.Proper) {path : String} (hpath : Path.isAbsolute path.toList = true) :
    (∀ t ∈ r.writable, ¬Path.Within path t) ∧ r.holder path = (r.root, Path.normalize path) ∨
      ∃ m ∈ r.mounts, ∃ index below, m.output = some index ∧ Deepest r.writable path m.target ∧
        Path.parts path = Path.parts m.target ++ below ∧ r.holder path = (r.output index, Path.rooted below) := by
  -- Each target that the path lies in is among the holders that are looked at.
  have hmem : ∀ m ∈ r.mounts, ∀ index, m.output = some index → Path.Within path m.target → ∃ rest,
      ⟨(Path.normalize m.target).utf8ByteSize, index, rest⟩ ∈ r.mounts.filterMap (MountResult.holder? path) := by
    rintro m hm index hindex ⟨below, hbelow⟩
    refine ⟨Path.rooted below, List.mem_filterMap.2 ⟨m, hm, ?_⟩⟩
    exact (MountResult.holder?_eq_some_iff hpath (hr.absolute m hm)).2 ⟨index, below, hindex, hbelow.symm, rfl⟩
  rcases deepest?_cases (r.mounts.filterMap (MountResult.holder? path)) with ⟨hnone, hnil⟩ | ⟨b, hb, hsome, hle⟩
  · left
    refine ⟨fun t ht hwithin => ?_, by rw [holder, hnone]⟩
    obtain ⟨m, hm, index, hindex, rfl⟩ := mem_writable_iff.1 ht
    obtain ⟨rest, hholder⟩ := hmem m hm index hindex hwithin
    rw [hnil] at hholder
    cases hholder
  · right
    obtain ⟨m, hm, hholder⟩ := List.mem_filterMap.1 hb
    have habsolute := hr.absolute m hm
    obtain ⟨index, below, hindex, hparts, rfl⟩ := (MountResult.holder?_eq_some_iff hpath habsolute).1 hholder
    have hwithin : Path.Within path m.target := ⟨below, hparts.symm⟩
    refine ⟨m, hm, index, below, hindex, ⟨mem_writable_iff.2 ⟨m, hm, index, hindex, rfl⟩, hwithin, ?_⟩, hparts, ?_⟩
    · intro d hd hd'
      obtain ⟨m', hm', index', hindex', rfl⟩ := mem_writable_iff.1 hd
      obtain ⟨rest, hholder'⟩ := hmem m' hm' index' hindex' hd'
      exact hd'.of_size_le (hr.absolute m' hm') habsolute hwithin (hle _ hholder')
    · rw [holder, hsome]

/-- The mount with the deepest target that a path lies in holds the path, and is found by the target. -/
theorem holder_of_deepest (hr : r.Proper) {path target : String} (hpath : Path.isAbsolute path.toList = true)
    (h : Deepest r.writable path target) :
    ∃ s rest, r.mount target = .ok s ∧ r.holder path = (s, "/" ++ rest) ∧ Path.normalize ("/" ++ rest) = "/" ++ rest ∧
      Path.isAbsolute rest.toList = false ∧ Path.join target rest = Path.normalize path := by
  rcases holder_cases hr hpath with ⟨hnone, -⟩ | ⟨m, hm, index, below, hindex, hdeepest, hparts, hholder⟩
  · exact absurd h.within (hnone target h.mem)
  have htarget := absolute_of_mem_writable hr h.mem
  have hsame : Path.parts target = Path.parts m.target := h.parts_eq hdeepest
  have hplain : ∀ s ∈ below, Path.Plain s := fun s hs =>
    Path.plain_parts hpath s (hparts ▸ List.mem_append_right _ hs)
  obtain ⟨hrelative, hjoin⟩ := Path.join_rest htarget hplain
  refine ⟨r.output index, String.ofList (['/'].intercalate below), ?_, ?_, ?_, ?_, ?_⟩
  · exact mount_of_mem hr hm hindex ((Path.parts_eq_iff htarget (hr.absolute m hm)).2 hsame)
  · rw [← Path.rooted_eq_append, hholder]
  · rw [← Path.rooted_eq_append, Path.normalize_rooted hplain]
  · rw [String.toList_ofList]
    exact hrelative
  · rw [hjoin, hsame, ← hparts, Path.normalize_eq_rooted hpath]

/-- A path that lies in a target lies in a deepest one. -/
theorem exists_deepest (hr : r.Proper) {path target : String} (hpath : Path.isAbsolute path.toList = true)
    (htarget : target ∈ r.writable) (hwithin : Path.Within path target) : ∃ t, Deepest r.writable path t := by
  rcases holder_cases hr hpath with ⟨hnone, -⟩ | ⟨m, -, -, -, -, hdeepest, -, -⟩
  · exact absurd hwithin (hnone target htarget)
  · exact ⟨m.target, hdeepest⟩

/-- A mount holds the paths in its target that lie in no deeper one, and no others. -/
theorem holder_eq_mount_iff (hr : r.Proper) {path target : String} (hpath : Path.isAbsolute path.toList = true)
    (htarget : target ∈ r.writable) (hwithin : Path.Within path target) :
    ∃ s, r.mount target = .ok s ∧
      ((r.holder path).1 = s ↔ ∀ t ∈ r.writable, Path.Within path t → Path.depth t ≤ Path.depth target) := by
  obtain ⟨m, hm, index, hindex, rfl⟩ := mem_writable_iff.1 htarget
  refine ⟨r.output index, mount_of_mem hr hm hindex rfl, fun hsame => ?_, fun hdeepest => ?_⟩
  · rcases holder_cases hr hpath with ⟨hnone, -⟩ | ⟨m', hm', index', below, hindex', hdeepest, -, hholder⟩
    · exact absurd hwithin (hnone _ htarget)
    · rw [hholder] at hsame
      have hindices : index' = index := by
        simpa [output, State.ofOutput] using hsame
      rw [eq_of_output_eq hr hm hm' hindex (hindices ▸ hindex')]
      exact hdeepest.deepest
  · obtain ⟨s, rest, hmount, hholder, -⟩ := holder_of_deepest hr hpath ⟨htarget, hwithin, hdeepest⟩
    rw [mount_of_mem hr hm hindex rfl] at hmount
    rw [hholder, Except.ok.inj hmount]

end RunResult

/-- The outputs of a run are numbered one after another. -/
theorem outputs_mountResults (next : Nat) (mounts : List Mount) :
    (mountResults next mounts).filterMap (·.output) = List.range' next (writableCount mounts) := by
  induction mounts generalizing next with
  | nil => rfl
  | cons m ms ih =>
      rw [writableCount_cons]
      cases h : m.readonly with
      | true => simp [mountResults, h, ih]
      | false => simp [mountResults, h, ih, Nat.add_comm 1, List.range'_succ]

theorem targets_mountResults (next : Nat) (mounts : List Mount) :
    (mountResults next mounts).map (·.target) = mounts.map (·.target) := by
  induction mounts generalizing next with
  | nil => rfl
  | cons m ms ih => rw [mountResults, List.map_cons, ih, List.map_cons]

theorem writable_mountResults (next : Nat) (mounts : List Mount) :
    ((mountResults next mounts).filter (·.output.isSome)).map (·.target) =
      (mounts.filter fun m => !m.readonly).map (·.target) := by
  induction mounts generalizing next with
  | nil => rfl
  | cons m ms ih => cases h : m.readonly <;> simp [mountResults, h, ih]

theorem targets_bindMounts (inputs : List Output) (next : Nat) (mounts : List Mount) :
    (bindMounts inputs next mounts).1.map (·.dest) = mounts.map (·.target) := by
  induction mounts generalizing inputs next with
  | nil => rfl
  | cons m ms ih => rw [bindMounts, List.map_cons, ih, List.map_cons]

/-- The mounts of a run whose operation is valid. -/
theorem proper_of_run {g g' : Graph} {base : State} {options : RunOptions} {r : RunResult}
    (h : (Build.exec base options).run g = (.ok r, g')) (hvalid : g'.ValidAt r.vertex) :
    r.Proper ∧ r.writable = options.writable := by
  rw [Build.run_exec] at h
  obtain ⟨rfl, rfl⟩ := Graph.accept_eq_ok h
  have hop : (runVertex base options).op.validate (runVertex base options).inputs.length = .ok () :=
    hvalid _ (g.vertex?_intern _)
  obtain ⟨hpaths, hnodup⟩ := Op.checkMounts_eq_ok_iff.1 (Op.validateExec_eq_ok_iff.1 hop).2.2.2.2
  have htargets := targets_mountResults 1 options.mounts
  have hdests := targets_bindMounts (slot [] base).2 1 options.mounts
  refine ⟨⟨fun m hm => ?_, ?_, ?_⟩, writable_mountResults 1 options.mounts⟩
  · have htarget : m.target ∈ (bindMounts (slot [] base).2 1 options.mounts).1.map (·.dest) := by
      rw [hdests, ← htargets]
      exact List.mem_map_of_mem hm
    obtain ⟨p, hp, hdest⟩ := List.mem_map.1 htarget
    rw [← hdest]
    exact (Op.of_checkPath_eq_ok (hpaths p (List.mem_cons_of_mem _ hp)).2.1).2
  · have hsame := congrArg (List.map Path.normalize) (htargets.trans hdests.symm)
    simp only [List.map_map, Function.comp_def] at hsame
    rw [hsame]
    exact (List.nodup_cons.1 hnodup).2
  · dsimp only
    rw [outputs_mountResults]
    exact List.nodup_range'

/-- Where a path is after a valid run. If it lies in mounts that can be written, then in a deepest one of them; this is
the mount found by the target, and what is given as the rest is the way from the target to the path. Otherwise the path
is in the root. The other way round, what is reached from a target without leaving it is in the mount with this target
just if it lies in no deeper one. -/
theorem holder_mount_agree {g g' : Graph} {base : State} {options : RunOptions} {r : RunResult}
    (h : (Build.exec base options).run g = (.ok r, g')) (hvalid : g'.ValidAt r.vertex) :
    (∀ path, Path.isAbsolute path.toList = true →
      ((∃ t ∈ options.writable, Path.Within path t) → ∃ t, Deepest options.writable path t) ∧
      (∀ t, Deepest options.writable path t →
        ∃ s rest, r.mount t = .ok s ∧ r.holder path = (s, "/" ++ rest) ∧ Path.normalize ("/" ++ rest) = "/" ++ rest ∧
          Path.isAbsolute rest.toList = false ∧ Path.join t rest = Path.normalize path) ∧
      ((∀ t ∈ options.writable, ¬Path.Within path t) → r.holder path = (r.root, Path.normalize path))) ∧
    ∀ t ∈ options.writable, ∀ path, Path.isAbsolute path.toList = false → Path.StaysIn t path →
      ∃ s, r.mount t = .ok s ∧
        ((r.holder (Path.join t path)).1 = s ↔
          ∀ t' ∈ options.writable, Path.Within (Path.join t path) t' → Path.depth t' ≤ Path.depth t) := by
  obtain ⟨hr, hwritable⟩ := proper_of_run h hvalid
  rw [← hwritable]
  refine ⟨fun path hpath => ⟨?_, fun t ht => RunResult.holder_of_deepest hr hpath ht, fun hnone => ?_⟩, ?_⟩
  · rintro ⟨t, ht, hwithin⟩
    exact RunResult.exists_deepest hr hpath ht hwithin
  · rcases RunResult.holder_cases hr hpath with ⟨-, hroot⟩ | ⟨m, -, -, -, -, hdeepest, -, -⟩
    · exact hroot
    · exact absurd hdeepest.within (hnone _ hdeepest.mem)
  · intro t ht path hpath hstays
    have habsolute := RunResult.absolute_of_mem_writable hr ht
    have hjoin := (Path.normalize_join habsolute path).1
    exact RunResult.holder_eq_mount_iff hr hjoin ht (hstays.within habsolute hpath)

/-- A directory mounted in another one, both of which can be written, and one in it that is only read. -/
def nestedRun : RunOptions :=
  { RunOptions.ofArgs ["make"] with
    mounts := [⟨"/src", sampleState 1 0, none, false⟩, ⟨"/src/./cache/", .scratch, none, false⟩,
      ⟨"/src/cache/ro", sampleState 1 0, none, true⟩] }

def nestedResult : RunResult :=
  ⟨⟨0⟩, 3, sampleState 3 0, [⟨"/src", some 1⟩, ⟨"/src/./cache/", some 2⟩, ⟨"/src/cache/ro", none⟩]⟩

/-- A path in all three is held by the second. One that goes into the second and comes out again is held by the
first. -/
theorem holder_mount_agree_nested :
    (Build.exec (sampleState 0 0) nestedRun).run sampleGraph =
        (.ok nestedResult, (Call.exec (sampleState 0 0) nestedRun).next sampleGraph) ∧
      (Deepest nestedRun.writable "/src/cache/ro/../x" "/src/./cache/" ∧
        ∃ s rest, nestedResult.mount "/src/./cache/" = .ok s ∧
          nestedResult.holder "/src/cache/ro/../x" = (s, "/" ++ rest) ∧ Path.normalize ("/" ++ rest) = "/" ++ rest ∧
            Path.isAbsolute rest.toList = false ∧
            Path.join "/src/./cache/" rest = Path.normalize "/src/cache/ro/../x") ∧
      Path.StaysIn "/src" "cache/../x" ∧
        ∃ s, nestedResult.mount "/src" = .ok s ∧
          ((nestedResult.holder (Path.join "/src" "cache/../x")).1 = s ↔
            ∀ t ∈ nestedRun.writable,
              Path.Within (Path.join "/src" "cache/../x") t → Path.depth t ≤ Path.depth "/src") := by
  have hrun : (Build.exec (sampleState 0 0) nestedRun).run sampleGraph =
      (.ok nestedResult, (Call.exec (sampleState 0 0) nestedRun).next sampleGraph) := rfl
  have hvalid : ((Call.exec (sampleState 0 0) nestedRun).next sampleGraph).ValidAt nestedResult.vertex := by
    intro v hv
    obtain rfl := Option.some.inj hv
    rfl
  have hdeepest : Deepest nestedRun.writable "/src/cache/ro/../x" "/src/./cache/" :=
    ⟨by decide, by decide, by decide⟩
  have hstays : Path.StaysIn "/src" "cache/../x" := by decide
  obtain ⟨hholder, hmount⟩ := holder_mount_agree hrun hvalid
  exact ⟨hrun, ⟨hdeepest, (hholder _ rfl).2.1 _ hdeepest⟩, hstays, hmount "/src" (by decide) _ rfl hstays⟩

end BuildGraph
