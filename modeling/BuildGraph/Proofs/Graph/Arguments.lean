import BuildGraph.Proofs.Definition.Emission
import BuildGraph.Proofs.Graph.Recorded
import BuildGraph.Proofs.Graph.Variables
import BuildGraph.Proofs.Path.Join

/-!
# What a vertex was made of

A vertex refers to filesystems by their places among its inputs, where a filesystem that is given again has the place
that it had, and the empty one has none. Nothing is lost by this: each reference leads back to the filesystem that was
given (`Refers`), whatever is repeated and in which order, since a place is kept when inputs are added. So what a run,
a copy or a merge was asked for, with filesystems instead of states, can be read off its vertex (`arguments_vertex`).
What is asked for are the variables and the places themselves, however they were written: the variables that the process
has in the end, and the places that paths lead to from the directory of their state.

Nothing is added either. The places are handed out by looking at the filesystems only, so calls that are asked for the
same have the same vertex (`vertex?_congr`). As vertices are interned, calls are answered with the same vertex just if
they are asked for the same (`recorded_as_given`).
-/

namespace BuildGraph

/-- The filesystem that an index among some inputs stands for. -/
def dereference (inputs : List Output) (index : Option Nat) : Option Output := index.bind (inputs[·]?)

/-- The index leads to the filesystem of the state, and it is missing just for the empty filesystem. -/
structure Refers (inputs : List Output) (index : Option Nat) (s : State) : Prop where
  output : dereference inputs index = s.output
  scratch : index = none ↔ s.output = none

/-- A mount as a process sees it, with the filesystem that is mounted. -/
structure BoundMount where
  source : Option Output
  selector : Option String
  target : String
  readonly : Bool
deriving DecidableEq

/-- The mount, whose selector leads somewhere from the root of what is mounted. -/
def Mount.bound (m : Mount) : BoundMount :=
  ⟨m.source.output, m.selector.map (Path.reached "/"), m.target, m.readonly⟩

/-- Where a path leads from the directory of a state. The empty path leads nowhere. -/
def State.place (s : State) (path : String) : String := if path = "" then "" else Path.reached s.dir path

/-- What is asked for by a run, a copy or a merge: the filesystems in their order and what is done with them. -/
inductive Arguments
  | run (process : Process) (root : Option Output) (mounts : List BoundMount)
  | copy (src : Option Output) (srcPath : String) (dest : Option Output) (destPath : String) (flags : CopyFlags)
  | merge (layers : List Output)
deriving DecidableEq

/-- The process of a run: its arguments, the entries of its variables, and the place where it starts. -/
def RunOptions.process (options : RunOptions) (base : State) : Process where
  args := options.args
  env := recordedEnv base.env options.env
  cwd := match options.cwd with
    | some cwd => Path.reached base.dir cwd
    | none => base.dir

namespace Call

/-- What a call asks for if it is a run, a copy, or a merge of at least two filesystems that are not empty. -/
def arguments : Call → Option Arguments
  | image _ | localDir _ => none
  | exec base options => some (.run (options.process base) base.output (options.mounts.map Mount.bound))
  | copy src srcPath dest destPath flags =>
      some (.copy src.output (src.place srcPath) dest.output (dest.place destPath) flags)
  | merge states =>
      let layers := states.filterMap (·.output)
      if layers.length < 2 then none else some (.merge layers)

/-- The states of a call in the order in which its vertex refers to them. -/
def recorded : Call → List State
  | image _ | localDir _ => []
  | exec base options => base :: options.mounts.map (·.source)
  | copy src _ dest _ _ => [dest, src]
  | merge states => states.filter (·.output.isSome)

end Call

/-- What a vertex says that it was made of. -/
def Vertex.arguments (v : Vertex) : Option Arguments :=
  match v.op with
  | .source _ => none
  | .exec e =>
      some (.run e.process (dereference v.inputs (e.mounts.head?.bind (·.input)))
        ((e.mounts.drop 1).map fun m => ⟨dereference v.inputs m.input, m.selector, m.dest, m.readonly⟩))
  | .copy c => some (.copy (dereference v.inputs c.srcInput) c.src (dereference v.inputs c.destInput) c.dest c.flags)
  | .merge m => some (.merge (m.inputs.filterMap (v.inputs[·]?)))

/-- The vertex that an answer is about. -/
def Answer.vertex? : Answer → Option Nat
  | state s => s.output.map (·.vertex)
  | run r => some r.vertex

/-!
### Places lead back
-/

/-- More inputs do not change what is referred to. -/
theorem Refers.append {inputs more : List Output} {index : Option Nat} {s : State} (h : Refers inputs index s)
    (hmore : inputs <+: more) : Refers more index s where
  output := by
    obtain ⟨rest, rfl⟩ := hmore
    cases index with
    | none => exact h.output
    | some i =>
        obtain ⟨o, ho⟩ := Option.ne_none_iff_exists'.1 (mt h.scratch.2 (Option.some_ne_none i))
        have hi : inputs[i]? = some o := h.output.trans ho
        exact (List.getElem?_append_left (List.getElem?_eq_some_iff.1 hi).1).trans h.output
  scratch := h.scratch

theorem refers_slot (inputs : List Output) (s : State) : Refers (slot inputs s).2 (slot inputs s).1 s := by
  cases ho : s.output with
  | none =>
      rw [slot, ho]
      exact ⟨ho.symm, by simp [ho]⟩
  | some o =>
      obtain ⟨index, hindex, hget⟩ := getElem?_slot ho inputs
      rw [hindex]
      exact ⟨hget.trans ho.symm, by simp [ho]⟩

theorem prefix_bindMounts (inputs : List Output) (next : Nat) (mounts : List Mount) :
    inputs <+: (bindMounts inputs next mounts).2 := by
  induction mounts generalizing inputs next with
  | nil => exact List.prefix_refl _
  | cons m ms ih => exact (prefix_slot inputs m.source).trans (ih _ _)

theorem refers_bindMounts (inputs : List Output) (next : Nat) (mounts : List Mount) :
    List.Forall₂ (Refers (bindMounts inputs next mounts).2) ((bindMounts inputs next mounts).1.map (·.input))
      (mounts.map (·.source)) := by
  induction mounts generalizing inputs next with
  | nil => exact .nil
  | cons m ms ih => exact .cons ((refers_slot inputs m.source).append (prefix_bindMounts _ _ ms)) (ih _ _)

/-- The states that count in a merge are those with a filesystem that is not empty. -/
theorem layersOf_eq_filter (states : List State) : Build.layersOf states = states.filter (·.output.isSome) := by
  refine List.filter_congr fun s _ => ?_
  rw [State.isScratch, Option.not_isNone]

theorem output_layersOf (states : List State) :
    (Build.layersOf states).map (·.output) = (states.filterMap (·.output)).map some := by
  induction states with
  | nil => rfl
  | cons s ss ih =>
      cases ho : s.output with
      | none => simpa [Build.layersOf, State.isScratch, ho] using ih
      | some o => simpa [Build.layersOf, State.isScratch, ho] using ih

theorem length_layersOf (states : List State) :
    (Build.layersOf states).length = (states.filterMap (·.output)).length := by
  simpa using congrArg List.length (output_layersOf states)

theorem refers_mergeVertex (states : List State) :
    List.Forall₂ (Refers (Build.mergeVertex (Build.layersOf states)).inputs)
      ((Build.slots [] (Build.layersOf states)).1.map some) (Build.layersOf states) := by
  have houtput : ∀ s ∈ Build.layersOf states, ∃ o, s.output = some o := by
    intro s hs
    have hmem := List.mem_map_of_mem (f := (·.output)) hs
    rw [output_layersOf] at hmem
    obtain ⟨o, -, ho⟩ := List.mem_map.1 hmem
    exact ⟨o, ho.symm⟩
  rw [List.forall₂_map_left_iff]
  refine (Build.forall₂_slots houtput []).imp ?_
  rintro index s ⟨o, ho, hindex⟩
  exact ⟨hindex.trans ho.symm, by simp [ho]⟩

namespace Call

theorem vertex?_merge (states : List State) :
    (merge states).vertex? =
      if (Build.layersOf states).length < 2 then none else some (Build.mergeVertex (Build.layersOf states)) := by
  rw [vertex?]
  cases Build.layersOf states with
  | nil => rfl
  | cons layer layers =>
      cases layers with
      | nil => rfl
      | cons other layers =>
          have hmany : ¬(layer :: other :: layers).length < 2 := by simp
          rw [if_neg hmany]

/-- What a vertex refers to are the states that were given. -/
theorem refers_vertex {c : Call} {v : Vertex} (h : c.vertex? = some v) :
    List.Forall₂ (Refers v.inputs) v.op.references c.recorded := by
  cases c with
  | image reference =>
      rw [vertex?] at h
      split at h <;> cases h
      exact .nil
  | localDir name =>
      cases h
      exact .nil
  | exec base options =>
      cases h
      exact .cons ((refers_slot [] base).append (prefix_bindMounts _ 1 options.mounts)) (refers_bindMounts _ 1 _)
  | copy src srcPath dest destPath flags =>
      cases h
      exact .cons ((refers_slot [] dest).append (prefix_slot _ src)) (.cons (refers_slot _ src) .nil)
  | merge states =>
      rw [vertex?_merge] at h
      split at h <;> cases h
      rw [recorded, ← layersOf_eq_filter]
      exact refers_mergeVertex states

end Call

/-!
### What was asked for can be read off

What is recorded is made of the environment and the directory of the state as they are. The directory is absolute, so a
path that is joined to it is that of a place.
-/

theorem Mount.bound_eq (m : Mount) :
    m.bound = ⟨m.source.output, m.selector.map (Path.join "/"), m.target, m.readonly⟩ := by
  rw [bound, funext (@Path.join_eq_reached "/" rfl)]

theorem runVertex_eq {base : State} (h : base.Placed) (options : RunOptions) :
    runVertex base options =
      ⟨.exec ⟨options.process base, ⟨(slot [] base).1, none, "/", some 0, false⟩ ::
          (bindMounts (slot [] base).2 1 options.mounts).1⟩,
        (bindMounts (slot [] base).2 1 options.mounts).2⟩ := by
  rw [RunOptions.process, ← envEntries_effectiveEnv, ← funext (Path.join_eq_reached h.absolute)]
  rfl

theorem State.Placed.resolve_eq {s : State} (h : s.Placed) (path : String) :
    Build.resolve s.dir path = s.place path := by
  rw [Build.resolve, place, Path.join_eq_reached h.absolute]

theorem copyVertex_eq {src dest : State} (h : ∀ s ∈ [src, dest], s.Placed) (srcPath destPath : String)
    (flags : CopyFlags) :
    Build.copyVertex src srcPath dest destPath flags =
      ⟨.copy ⟨(slot [] dest).1, (slot (slot [] dest).2 src).1, src.place srcPath, dest.place destPath, flags⟩,
        (slot (slot [] dest).2 src).2⟩ := by
  obtain ⟨hsrc, hdest⟩ := List.forall_mem_cons.1 h
  rw [← hsrc.resolve_eq, ← (List.forall_mem_singleton.1 hdest).resolve_eq]
  rfl

theorem bound_bindMounts {inputs all : List Output} {next : Nat} {mounts : List Mount}
    (h : (bindMounts inputs next mounts).2 <+: all) :
    ((bindMounts inputs next mounts).1.map fun m => ⟨dereference all m.input, m.selector, m.dest, m.readonly⟩) =
      mounts.map Mount.bound := by
  induction mounts generalizing inputs next with
  | nil => rfl
  | cons m ms ih =>
      have hsource := ((refers_slot inputs m.source).append ((prefix_bindMounts _ _ ms).trans h)).output
      rw [List.map_cons, ← ih h, Mount.bound_eq, ← hsource]
      rfl

theorem layers_mergeVertex (states : List State) :
    (Build.slots [] (Build.layersOf states)).1.filterMap
        ((Build.mergeVertex (Build.layersOf states)).inputs[·]?) = states.filterMap (·.output) := by
  have hplaces : (Build.slots [] (Build.layersOf states)).1.map
      ((Build.mergeVertex (Build.layersOf states)).inputs[·]?) = (Build.layersOf states).map (·.output) := by
    have hrefers := List.forall₂_map_left_iff.1 (refers_mergeVertex states)
    rw [← List.forall₂_eq_eq_eq, List.forall₂_map_left_iff, List.forall₂_map_right_iff]
    exact hrefers.imp fun _ _ h => h.output
  have hlayers := congrArg (List.filterMap id) (hplaces.trans (output_layersOf states))
  simpa only [List.filterMap_map, Function.id_comp, Function.comp_def, id, List.filterMap_some] using hlayers

namespace Call

/-- A vertex says what the call asked for. -/
theorem arguments_vertex {c : Call} (hstates : ∀ s ∈ c.states, s.Placed) {v : Vertex} (h : c.vertex? = some v) :
    v.arguments = c.arguments := by
  cases c with
  | image reference =>
      rw [vertex?] at h
      split at h <;> cases h
      rfl
  | localDir name =>
      cases h
      rfl
  | exec base options =>
      obtain rfl := Option.some.inj h
      have hroot := ((refers_slot [] base).append (prefix_bindMounts _ 1 options.mounts)).output
      rw [arguments, ← hroot, ← bound_bindMounts (List.prefix_refl _), runVertex_eq (hstates base List.mem_cons_self)]
      rfl
  | copy src srcPath dest destPath flags =>
      obtain rfl := Option.some.inj h
      have hdest := ((refers_slot [] dest).append (prefix_slot _ src)).output
      have hsrc := (refers_slot (slot [] dest).2 src).output
      rw [arguments, ← hdest, ← hsrc, copyVertex_eq hstates]
      rfl
  | merge states =>
      rw [vertex?_merge, length_layersOf] at h
      rw [arguments]
      split at h <;> cases h
      rename_i hmany
      rw [if_neg hmany, ← layers_mergeVertex]
      rfl

end Call

/-!
### Only what was asked for counts
-/

theorem slot_congr {s s' : State} (h : s.output = s'.output) (inputs : List Output) :
    slot inputs s = slot inputs s' := by
  rw [slot, slot, h]

theorem bindMounts_congr {mounts mounts' : List Mount} (h : mounts.map Mount.bound = mounts'.map Mount.bound)
    (inputs : List Output) (next : Nat) : bindMounts inputs next mounts = bindMounts inputs next mounts' := by
  induction mounts generalizing mounts' inputs next with
  | nil =>
      rw [List.map_eq_nil_iff.1 h.symm]
  | cons m ms ih =>
      cases mounts' with
      | nil => cases h
      | cons m' ms' =>
          obtain ⟨hm, hms⟩ := List.cons.inj h
          rw [Mount.bound_eq, Mount.bound_eq] at hm
          obtain ⟨hsource, hselector, htarget, hreadonly⟩ := BoundMount.mk.inj hm
          simp only [bindMounts, slot_congr hsource, hselector, htarget, hreadonly, ih hms]

theorem slots_congr {states states' : List State} (h : states.map (·.output) = states'.map (·.output))
    (inputs : List Output) : Build.slots inputs states = Build.slots inputs states' := by
  induction states generalizing states' inputs with
  | nil => rw [List.map_eq_nil_iff.1 h.symm]
  | cons s ss ih =>
      cases states' with
      | nil => cases h
      | cons s' ss' =>
          obtain ⟨hs, hss⟩ := List.cons.inj h
          simp only [Build.slots, slot_congr hs, ih hss]

namespace Call

theorem arguments_eq_run {c : Call} {process : Process} {root : Option Output} {mounts : List BoundMount}
    (h : c.arguments = some (.run process root mounts)) :
    ∃ base options, c = exec base options ∧ options.process base = process ∧ base.output = root ∧
      options.mounts.map Mount.bound = mounts := by
  cases c with
  | exec base options =>
      obtain ⟨hprocess, hroot, hmounts⟩ := Arguments.run.inj (Option.some.inj h)
      exact ⟨base, options, rfl, hprocess, hroot, hmounts⟩
  | image | localDir | copy => cases h
  | merge states =>
      simp only [arguments] at h
      split at h <;> cases h

theorem arguments_eq_copy {c : Call} {src dest : Option Output} {srcPath destPath : String} {flags : CopyFlags}
    (h : c.arguments = some (.copy src srcPath dest destPath flags)) :
    ∃ s p t q, c = copy s p t q flags ∧ s.output = src ∧ s.place p = srcPath ∧ t.output = dest ∧
      t.place q = destPath := by
  cases c with
  | copy s p t q flags =>
      obtain ⟨hsrc, hsrcPath, hdest, hdestPath, rfl⟩ := Arguments.copy.inj (Option.some.inj h)
      exact ⟨s, p, t, q, rfl, hsrc, hsrcPath, hdest, hdestPath⟩
  | image | localDir | exec => cases h
  | merge states =>
      simp only [arguments] at h
      split at h <;> cases h

theorem arguments_eq_merge {c : Call} {layers : List Output} (h : c.arguments = some (.merge layers)) :
    ∃ states, c = merge states ∧ states.filterMap (·.output) = layers ∧ ¬layers.length < 2 := by
  cases c with
  | merge states =>
      simp only [arguments] at h
      split at h <;> cases h
      exact ⟨states, rfl, rfl, ‹_›⟩
  | image | localDir | exec | copy => cases h

/-- What calls ask for is all that tells their vertices apart. -/
theorem vertex?_congr {c c' : Call} (hstates : ∀ s ∈ c.states, s.Placed) (hstates' : ∀ s ∈ c'.states, s.Placed)
    {x : Arguments} (h : c.arguments = some x) (h' : c'.arguments = some x) :
    ∃ v, c.vertex? = some v ∧ c'.vertex? = some v := by
  cases x with
  | run process root mounts =>
      obtain ⟨base, options, rfl, rfl, rfl, rfl⟩ := arguments_eq_run h
      obtain ⟨base', options', rfl, hprocess, hroot, hmounts⟩ := arguments_eq_run h'
      refine ⟨runVertex base options, rfl, congrArg some ?_⟩
      rw [runVertex_eq (hstates base List.mem_cons_self), runVertex_eq (hstates' base' List.mem_cons_self), hprocess,
        slot_congr hroot, bindMounts_congr hmounts]
  | copy src srcPath dest destPath flags =>
      obtain ⟨s, p, t, q, rfl, rfl, rfl, rfl, rfl⟩ := arguments_eq_copy h
      obtain ⟨s', p', t', q', rfl, hsrc, hsrcPath, hdest, hdestPath⟩ := arguments_eq_copy h'
      refine ⟨Build.copyVertex s p t q flags, rfl, congrArg some ?_⟩
      rw [copyVertex_eq hstates, copyVertex_eq hstates', hsrcPath, hdestPath, slot_congr hdest, slot_congr hsrc]
  | merge layers =>
      obtain ⟨states, rfl, rfl, hmany⟩ := arguments_eq_merge h
      obtain ⟨states', rfl, hlayers, -⟩ := arguments_eq_merge h'
      have houtputs : (Build.layersOf states').map (·.output) = (Build.layersOf states).map (·.output) := by
        rw [output_layersOf, output_layersOf, hlayers]
      refine ⟨Build.mergeVertex (Build.layersOf states), ?_, ?_⟩
      · rw [vertex?_merge, length_layersOf, if_neg hmany]
      · rw [vertex?_merge, length_layersOf, hlayers, if_neg hmany, Build.mergeVertex, slots_congr houtputs]
        rfl

/-- Vertices are the same just if the same has been asked for. -/
theorem vertex_eq_iff_arguments {c c' : Call} (hstates : ∀ s ∈ c.states, s.Placed)
    (hstates' : ∀ s ∈ c'.states, s.Placed) {v v' : Vertex} {x x' : Arguments} (hv : c.vertex? = some v)
    (hv' : c'.vertex? = some v') (hx : c.arguments = some x) (hx' : c'.arguments = some x') : v' = v ↔ x' = x := by
  constructor
  · rintro rfl
    have hsame := (arguments_vertex hstates hv).symm.trans (arguments_vertex hstates' hv')
    rw [hx, hx'] at hsame
    exact (Option.some.inj hsame).symm
  · rintro rfl
    obtain ⟨w, hw, hw'⟩ := vertex?_congr hstates hstates' hx hx'
    rw [hv] at hw
    rw [hv'] at hw'
    exact Option.some.inj (hw'.trans hw.symm)

/-- The answer to a call with a vertex is about the vertex. -/
theorem vertex?_answer {c : Call} {v : Vertex} (h : c.vertex? = some v) (id : GraphId) (vertex : Nat) :
    (c.answer id vertex).vertex? = some vertex := by
  cases c with
  | image | localDir | exec | copy => rfl
  | merge states =>
      rw [vertex?] at h
      rw [answer]
      split at h
      · cases h
      · cases h
      · rfl

/-- A call that succeeds has its vertex in the graph behind it, at the place that the answer is about. -/
theorem vertex?_of_run_build {c : Call} {g g' : Graph} {a : Answer} (h : c.build.run g = (.ok a, g')) {v : Vertex}
    (hv : c.vertex? = some v) : ∃ vertex, a.vertex? = some vertex ∧ g'.vertex? vertex = some v := by
  rw [run_build, hv] at h
  obtain ⟨rfl, rfl⟩ := Graph.accept_eq_ok h
  exact ⟨(g.intern v).1, vertex?_answer hv _ _, g.vertex?_intern v⟩

end Call

/-- Possible requests have been made, of which the last one is a run, a copy or a merge of at least two filesystems and
succeeds. The references of its vertex lead to the filesystems of the states that were given, and what was asked for can
be read off. A request like that to the same graph, any number of requests later, is answered with the same vertex just
if it asks for the same. -/
theorem recorded_as_given {rs : List Request} {r : Request} (hrs : Graphs.Possible (rs ++ [r])) {a : Answer}
    (ha : (Graphs.empty.run rs).answer r = .ok a) {x : Arguments} (hx : r.call.arguments = some x) :
    ∃ vertex v, a.vertex? = some vertex ∧
      ((Graphs.empty.run (rs ++ [r])).graph r.graph).vertex? vertex = some v ∧
      List.Forall₂ (Refers v.inputs) v.op.references r.call.recorded ∧ v.arguments = some x ∧
        ∀ {later : List Request} {r' : Request} {a' : Answer} {x' : Arguments},
          Graphs.Possible (rs ++ r :: later ++ [r']) → r'.graph = r.graph →
            (Graphs.empty.run (rs ++ r :: later)).answer r' = .ok a' → r'.call.arguments = some x' →
              (a'.vertex? = some vertex ↔ x' = x) := by
  have hstates := hrs.placed r (List.mem_append_right rs List.mem_cons_self)
  obtain ⟨v, hv, -⟩ := Call.vertex?_congr hstates hstates hx hx
  obtain ⟨vertex, hanswer, hvertex⟩ := Call.vertex?_of_run_build (Graphs.run_build_of_answer ha) hv
  rw [← Graphs.run_concat] at hvertex
  refine ⟨vertex, v, hanswer, hvertex, Call.refers_vertex hv, (Call.arguments_vertex hstates hv).trans hx, ?_⟩
  intro later r' a' x' hrs' hid ha' hx'
  have hstates' := hrs'.placed r' (List.mem_append_right (rs ++ r :: later) List.mem_cons_self)
  obtain ⟨v', hv', -⟩ := Call.vertex?_congr hstates' hstates' hx' hx'
  obtain ⟨vertex', hanswer', hvertex'⟩ := Call.vertex?_of_run_build (Graphs.run_build_of_answer ha') hv'
  -- the vertex keeps its place in the graph, up to the later request
  have hkept : ((Graphs.empty.run (rs ++ r :: later ++ [r'])).graph r.graph).vertex? vertex = some v := by
    have hsplit : rs ++ r :: later ++ [r'] = (rs ++ [r]) ++ (later ++ [r']) := by simp
    rw [hsplit, Graphs.run_append]
    exact (Graphs.growsTo_run _ _ r.graph).vertex? hvertex
  rw [hid, ← Graphs.run_concat] at hvertex'
  rw [← Call.vertex_eq_iff_arguments hstates hstates' hv hv' hx hx', hanswer', Option.some.injEq]
  constructor
  · rintro rfl
    exact Option.some.inj (hvertex'.symm.trans hkept)
  · rintro rfl
    exact Option.some.inj ((Graph.position?_eq_some_iff.2 hvertex').symm.trans (Graph.position?_eq_some_iff.2 hkept))

/-- An image and a local directory, which are the first vertices of their graph. -/
def sourceRequests : List Request := [⟨⟨0⟩, .image "alpine"⟩, ⟨⟨0⟩, .localDir "src"⟩]

theorem given_sources (more : List Request) :
    Graphs.Given (sourceRequests ++ more) (sampleState 0 0) ∧ Graphs.Given (sourceRequests ++ more) (sampleState 1 0) :=
  ⟨@Graphs.Given.answer [] (⟨⟨0⟩, .localDir "src"⟩ :: more) _ _ rfl _ (.state _),
    @Graphs.Given.answer [⟨⟨0⟩, .image "alpine"⟩] more _ _ rfl _ (.state _)⟩

/-- A process in a directory of the image, which it also has mounted, beside an empty filesystem and a local directory.
A variable of the image is changed. -/
def sharingRequest : Request where
  graph := ⟨0⟩
  call := .exec ((sampleState 0 0).withEnv "CI" "1")
    { args := ["make"]
      mounts := [⟨"/old", sampleState 0 0, some "lib", true⟩, ⟨"/tmp", .scratch, none, false⟩,
        ⟨"/new", sampleState 1 0, none, false⟩]
      env := .ofList [("CI", "2")]
      cwd := some "src" }

/-- A process in the same places. Where it runs and what the value of the variable is are said by the state. -/
def inheritingRequest (value : String) : Request where
  graph := ⟨0⟩
  call := .exec (((sampleState 0 0).withDir "/src/").withEnv "CI" value)
    { RunOptions.ofArgs ["make"] with
      mounts := [⟨"/old", sampleState 0 0, some "./lib/", true⟩, ⟨"/tmp", .scratch, none, false⟩,
        ⟨"/new", (sampleState 1 0).withEnv "CI" "1", none, false⟩] }

/-- The arguments of the processes, which differ in the variable. -/
def sharedArguments (value : String) : Arguments :=
  .run ⟨["make"], ["CI=" ++ value, "PATH=/usr/local/sbin:/usr/local/bin:/usr/sbin:/usr/bin:/sbin:/bin"], "/src"⟩
    (some ⟨⟨0⟩, 0, 0⟩)
    [⟨some ⟨⟨0⟩, 0, 0⟩, some "/lib", "/old", true⟩, ⟨none, none, "/tmp", false⟩,
      ⟨some ⟨⟨0⟩, 1, 0⟩, none, "/new", false⟩]

theorem possible_sharing : Graphs.Possible (sourceRequests ++ [sharingRequest]) := by
  obtain ⟨himage, hdir⟩ := given_sources []
  refine .snoc (@Graphs.Possible.snoc [⟨⟨0⟩, .image "alpine"⟩] _ (@Graphs.Possible.snoc [] _ .nil nofun) nofun) ?_
  exact List.forall_mem_cons.2 ⟨himage.withEnv "CI" "1", List.forall_mem_cons.2 ⟨himage,
    List.forall_mem_cons.2 ⟨.scratch, List.forall_mem_singleton.2 hdir⟩⟩⟩

theorem possible_inheriting (value : String) :
    Graphs.Possible (sourceRequests ++ sharingRequest :: [⟨⟨0⟩, .image "busybox"⟩] ++ [inheritingRequest value]) := by
  obtain ⟨himage, hdir⟩ := given_sources [sharingRequest, ⟨⟨0⟩, .image "busybox"⟩]
  refine .snoc (@Graphs.Possible.snoc (sourceRequests ++ [sharingRequest]) _ possible_sharing nofun) ?_
  exact List.forall_mem_cons.2 ⟨(himage.withDir "/src/").withEnv "CI" value, List.forall_mem_cons.2 ⟨himage,
    List.forall_mem_cons.2 ⟨.scratch, List.forall_mem_singleton.2 (hdir.withEnv "CI" "1")⟩⟩⟩

/-- A process that is asked for again, in other words and behind another request, has the same vertex, which has two
inputs for the four filesystems. With another value of the variable it has another one. -/
theorem recorded_as_given_sharing :
    Graphs.Possible (sourceRequests ++ [sharingRequest]) ∧
      ∃ a vertex v, (Graphs.empty.run sourceRequests).answer sharingRequest = .ok a ∧ a.vertex? = some vertex ∧
        ((Graphs.empty.run (sourceRequests ++ [sharingRequest])).graph ⟨0⟩).vertex? vertex = some v ∧
        List.Forall₂ (Refers v.inputs) v.op.references sharingRequest.call.recorded ∧
        v.arguments = some (sharedArguments "2") ∧
        ∀ value ∈ ["2", "3"], ∃ a',
          (Graphs.empty.run (sourceRequests ++ sharingRequest :: [⟨⟨0⟩, .image "busybox"⟩])).answer
              (inheritingRequest value) = .ok a' ∧
            (inheritingRequest value).call.arguments = some (sharedArguments value) ∧
            (a'.vertex? = some vertex ↔ value = "2") := by
  obtain ⟨a, ha⟩ : ∃ a, (Graphs.empty.run sourceRequests).answer sharingRequest = .ok a := ⟨_, rfl⟩
  have hx : sharingRequest.call.arguments = some (sharedArguments "2") := by decide +kernel
  have hinheriting : ∀ value ∈ ["2", "3"],
      (inheritingRequest value).call.arguments = some (sharedArguments value) ∧
        (sharedArguments value = sharedArguments "2" ↔ value = "2") := by decide +kernel
  obtain ⟨vertex, v, hanswer, hvertex, hrefers, harguments, hagain⟩ := recorded_as_given possible_sharing ha hx
  refine ⟨possible_sharing, a, vertex, v, ha, hanswer, hvertex, hrefers, harguments, ?_⟩
  intro value hvalue
  obtain ⟨hx', hsame⟩ := hinheriting value hvalue
  exact ⟨_, rfl, hx', (hagain (possible_inheriting value) rfl rfl hx').trans hsame⟩

end BuildGraph
