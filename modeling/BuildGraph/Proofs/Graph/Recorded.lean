import BuildGraph.Proofs.Graph.Apart
import BuildGraph.Proofs.Op.Mistakes
import BuildGraph.Proofs.Path.Normal

/-!
# What graphs record

A state that can be had has an absolute directory in normal form (`State.Placed`): it starts at `/`, and whatever
path is followed from such a directory leads to one again. Calls keep to this, since a state that is answered has its
setting from one that the call was given, or none. So the paths that calls put together are absolute, and every vertex
that possible requests lead to has an operation that is prepared and inputs for all its indices
(`Graphs.Possible.prepared`).
-/

namespace BuildGraph

/-- The directory is absolute and in normal form. -/
structure State.Placed (s : State) : Prop where
  absolute : Path.isAbsolute s.dir.toList = true
  normal : Path.normalize s.dir = s.dir

/-- Requests of which each is given states that can be had by then. -/
inductive Graphs.Possible : List Request → Prop
  | nil : Possible []
  | snoc {rs : List Request} {r : Request} (h : Possible rs) (hstates : ∀ s ∈ r.call.states, Graphs.Given rs s) :
      Possible (rs ++ [r])

namespace State.Placed

/-- Only the setting matters. -/
theorem of_setting_eq {s s' : State} (h : s.Placed) (hsetting : s'.setting = s.setting) : s'.Placed := by
  have hdir : s'.dir = s.dir := by rw [State.dir, hsetting, State.dir]
  constructor
  · rw [hdir]
    exact h.absolute
  · rw [hdir]
    exact h.normal

theorem scratch : State.scratch.Placed := ⟨rfl, rfl⟩

theorem ofOutput (o : Output) : (State.ofOutput o).Placed := scratch.of_setting_eq rfl

theorem withDir {s : State} (h : s.Placed) (dir : String) : (s.withDir dir).Placed := by
  obtain ⟨habsolute, hnormal⟩ := Path.normalize_join h.absolute dir
  exact ⟨habsolute, hnormal⟩

theorem withEnv {s : State} (h : s.Placed) (key value : String) : (s.withEnv key value).Placed :=
  ⟨h.absolute, h.normal⟩

end State.Placed

/-- The filesystems of a run start at the root, where they are not that of the run itself. -/
theorem RunResult.placed_of_shows {r : RunResult} (hroot : r.root.Placed) {s : State} (hs : (Answer.run r).Shows s) :
    s.Placed := by
  cases hs with
  | root => exact hroot
  | mount hmount =>
      obtain ⟨m, -, index, -, rfl⟩ := RunResult.mount_eq_ok hmount
      exact .ofOutput _
  | holder _ path =>
      rcases r.holder_eq path with h | ⟨m, -, index, -, h⟩
      · rw [h]
        exact hroot
      · rw [h]
        exact .ofOutput _

namespace Call

variable {c : Call} {g g' : Graph}

/-- A call that succeeds gives the answer that belongs to it. -/
theorem exists_answer {a : Answer} (h : c.build.run g = (.ok a, g')) : ∃ vertex, a = c.answer g.id vertex := by
  cases hcondition : c.condition g with
  | error e =>
      rw [run_build_of_error hcondition] at h
      cases h
  | ok _ =>
      rcases run_build_of_ok hcondition with ⟨v, -, hrun⟩ | ⟨-, hrun⟩
      · rw [hrun] at h
        cases h
        exact ⟨_, rfl⟩
      · rw [hrun] at h
        cases h
        exact ⟨0, rfl⟩

/-- What can be had from an answer has its directory from a state of the call, or starts at the root. -/
theorem placed_of_shows (hstates : ∀ s ∈ c.states, s.Placed) {id : GraphId} {vertex : Nat} {s : State}
    (hs : (c.answer id vertex).Shows s) : s.Placed := by
  cases c with
  | image reference =>
      cases hs
      exact .ofOutput _
  | localDir name =>
      cases hs
      exact .ofOutput _
  | exec base options =>
      have hbase : base.Placed := hstates base List.mem_cons_self
      exact RunResult.placed_of_shows (hbase.of_setting_eq rfl) hs
  | copy src srcPath dest destPath flags =>
      cases hs
      exact (hstates dest (List.mem_cons_of_mem _ List.mem_cons_self)).of_setting_eq rfl
  | merge states =>
      have hlayers : ∀ s ∈ Build.layersOf states, s.Placed := fun s hs => hstates s (List.mem_of_mem_filter hs)
      rw [answer] at hs
      cases hlist : Build.layersOf states with
      | nil =>
          rw [hlist] at hs
          cases hs
          exact .scratch
      | cons layer layers =>
          rw [hlist] at hs hlayers
          cases layers with
          | nil =>
              cases hs
              exact hlayers _ List.mem_cons_self
          | cons =>
              cases hs
              exact .ofOutput _

theorem built_vertex? {v : Vertex} (hv : c.vertex? = some v) : v.Built := by
  cases c with
  | image reference =>
      rw [vertex?] at hv
      split at hv
      · cases hv
      · cases hv
        exact .source _
  | localDir name =>
      cases hv
      exact .source _
  | exec base options =>
      cases hv
      exact .exec base options
  | copy src srcPath dest destPath flags =>
      cases hv
      exact .copy src srcPath dest destPath flags
  | merge states =>
      rw [vertex?] at hv
      split at hv
      · cases hv
      · cases hv
      · cases hv
        exact .merge _

end Call

/-- The environment of a process consists of keys and values. -/
theorem mem_envEntries {env : StringMap} {entry : String} (h : entry ∈ envEntries env) : '=' ∈ entry.toList := by
  obtain ⟨e, -, rfl⟩ := List.mem_map.1 h
  simp

/-- A selector is followed from the root. -/
theorem absolute_selector {inputs : List Output} {next : Nat} {mounts : List Mount} {m : MountPoint}
    (hm : m ∈ (bindMounts inputs next mounts).1) {path : String} (hpath : m.selector = some path) :
    Path.isAbsolute path.toList = true := by
  induction mounts generalizing inputs next with
  | nil => cases hm
  | cons n ns ih =>
      rcases List.mem_cons.1 hm with rfl | hm
      · obtain ⟨selector, -, rfl⟩ := Option.map_eq_some_iff.1 hpath
        exact (Path.normalize_join rfl selector).1
      · exact ih hm

theorem prepared_runVertex {base : State} (hbase : base.Placed) {options : RunOptions}
    (hprogram : hasProgram options.args = true) : (runVertex base options).op.Prepared := by
  refine .exec hprogram (fun _ => mem_envEntries) ?_ rfl rfl rfl fun _ hm _ hpath => absolute_selector hm hpath
  dsimp only
  split
  · exact (Path.normalize_join hbase.absolute _).1
  · exact hbase.absolute

/-- A path that is given is followed from the directory of the state. -/
theorem absolute_resolve {s : State} (hs : s.Placed) (path : String) :
    Build.resolve s.dir path = "" ∨ Path.isAbsolute (Build.resolve s.dir path).toList = true := by
  rw [Build.resolve]
  split
  · exact .inl rfl
  · exact .inr (Path.normalize_join hs.absolute path).1

/-- States that count have outputs, so a merge of some has inputs. -/
theorem prepared_mergeVertex {states : List State} (hne : Build.layersOf states ≠ []) :
    (Build.mergeVertex (Build.layersOf states)).op.Prepared := by
  cases hlayers : Build.layersOf states with
  | nil => exact absurd hlayers hne
  | cons first rest =>
      have hfirst : first ∈ states.filter fun s => !s.isScratch := by
        rw [← Build.layersOf, hlayers]
        exact List.mem_cons_self
      have hcounts := (List.mem_filter.1 hfirst).2
      cases houtput : first.output with
      | none => simp [State.isScratch, houtput] at hcounts
      | some o =>
          refine .merge ?_
          simp [Build.slots, slot, houtput]

namespace Call

variable {c : Call} {g : Graph}

/-- A vertex behind a call was there, or belongs to the call, with which nothing is wrong then. -/
theorem mem_vertices_next {v : Vertex} (hv : v ∈ (c.next g).vertices) :
    v ∈ g.vertices ∨ c.vertex? = some v ∧ c.fault = .ok () := by
  rw [← snd_run_build] at hv
  cases hcondition : c.condition g with
  | error e =>
      rw [run_build_of_error hcondition] at hv
      exact .inl hv
  | ok _ =>
      have hfault : c.fault = .ok () := (check_bind_eq_ok_iff.1 hcondition).1
      rcases run_build_of_ok hcondition with ⟨w, hw, hrun⟩ | ⟨-, hrun⟩
      · rw [hrun] at hv
        rcases Graph.mem_vertices_intern hv with hv | rfl
        · exact .inl hv
        · exact .inr ⟨hw, hfault⟩
      · rw [hrun] at hv
        exact .inl hv

/-- What a call records is prepared, if nothing is wrong with the call and its states have been had. -/
theorem prepared_vertex? (hfault : c.fault = .ok ()) (hstates : ∀ s ∈ c.states, s.Placed) {v : Vertex}
    (hv : c.vertex? = some v) : v.op.Prepared := by
  cases c with
  | image reference =>
      rw [vertex?] at hv
      split at hv
      · cases hv
      · cases hv
        refine .source ?_
        rw [String.toList_append]
        rfl
  | localDir name =>
      cases hv
      refine .source ?_
      rw [String.toList_append]
      rfl
  | exec base options =>
      cases hv
      refine prepared_runVertex (hstates base List.mem_cons_self) ?_
      by_contra hnone
      rw [fault, Build.checkProgram, if_neg hnone] at hfault
      cases hfault
  | copy src srcPath dest destPath flags =>
      cases hv
      exact .copy (absolute_resolve (hstates src List.mem_cons_self) srcPath)
        (absolute_resolve (hstates dest (List.mem_cons_of_mem _ List.mem_cons_self)) destPath)
  | merge states =>
      rw [vertex?] at hv
      split at hv
      · cases hv
      · cases hv
      · rename_i layers hnil hsingle
        cases hv
        exact prepared_mergeVertex hnil

end Call

namespace Graphs

variable {rs : List Request}

theorem Given.placed (h : ∀ r ∈ rs, ∀ s ∈ r.call.states, s.Placed) {s : State} (hs : Given rs s) : s.Placed := by
  induction hs with
  | scratch => exact .scratch
  | @answer before after r a hanswer s hs =>
      obtain ⟨vertex, rfl⟩ := Call.exists_answer (Prod.ext hanswer rfl)
      exact Call.placed_of_shows (h r (List.mem_append_right before List.mem_cons_self)) hs
  | withDir _ dir ih => exact (ih h).withDir dir
  | withEnv _ key value ih => exact (ih h).withEnv key value

/-- All states of possible requests have absolute directories in normal form. -/
theorem Possible.placed (h : Possible rs) : ∀ r ∈ rs, ∀ s ∈ r.call.states, s.Placed := by
  induction h with
  | nil => exact fun r hr => absurd hr List.not_mem_nil
  | @snoc rs r h hstates ih =>
      intro r' hr' s hs
      rcases List.mem_append.1 hr' with hr' | hr'
      · exact ih r' hr' s hs
      · obtain rfl := List.mem_singleton.1 hr'
        exact (hstates s hs).placed ih

/-- Possible requests lead to vertices whose operations are prepared and whose indices have inputs. -/
theorem Possible.prepared (h : Possible rs) (id : GraphId) :
    ∀ v ∈ ((empty.run rs).graph id).vertices, v.op.Prepared ∧ v.Tidy := by
  induction h with
  | nil => exact fun v hv => absurd hv List.not_mem_nil
  | @snoc rs r h hstates ih =>
      intro v hv
      rw [run_concat] at hv
      by_cases hid : id = r.graph
      · subst hid
        rw [graph_next_self] at hv
        rcases Call.mem_vertices_next hv with hv | ⟨hv, hfault⟩
        · exact ih v hv
        · have hplaced : ∀ s ∈ r.call.states, s.Placed := fun s hs => (hstates s hs).placed h.placed
          exact ⟨Call.prepared_vertex? hfault hplaced hv, (Call.built_vertex? hv).tidy⟩
      · rw [graph_next_of_ne hid] at hv
        exact ih v hv

end Graphs

end BuildGraph
