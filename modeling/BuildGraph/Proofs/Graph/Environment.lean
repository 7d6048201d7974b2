import BuildGraph.Proofs.Definition.Emission
import BuildGraph.Proofs.Graph.Consistency
import BuildGraph.Proofs.Graph.Variables

/-!
# The environment of a run

A run says what its process finds in the environment by a list of entries `KEY=VALUE`, and whoever reads the list
cuts each entry at its first `=`. Nothing is escaped, so a key that has an `=` itself is cut in the wrong place:
what is read is the environment that was asked for just if no key has one (`assigns_envEntries_iff`). Nothing else
tells runs apart by their environments, since a vertex has the entries and not the map that they were made of.
-/

namespace BuildGraph

/-- An environment entry, cut at its first `=` into a key and a value. -/
def readVariable? (entry : String) : Option (String × String) :=
  (Text.cutFirst? '=' entry.toList).map fun e => (String.ofList e.1, String.ofList e.2)

theorem readVariable?_append {key : String} (h : '=' ∉ key.toList) (value : String) :
    readVariable? (key ++ "=" ++ value) = some (key, value) := by
  have htext : (key ++ "=" ++ value).toList = key.toList ++ '=' :: value.toList := by simp
  rw [readVariable?, htext, Text.cutFirst?_append h]
  simp

theorem notMem_key_of_readVariable? {entry : String} {e : String × String} (h : readVariable? entry = some e) :
    '=' ∉ e.1.toList := by
  obtain ⟨⟨before, after⟩, hcut, rfl⟩ := Option.map_eq_some_iff.1 h
  rw [String.toList_ofList]
  exact (Text.cutFirst?_eq_some hcut).2

/-- The entries say which variables there are and what their values are: read one after another they have
ascending keys, and the value of a variable is found under its name. -/
def Assigns (entries : List String) (value : String → Option String) : Prop :=
  ∃ pairs, entries.mapM readVariable? = some pairs ∧ Ascending pairs ∧ ∀ key, pairs.lookup key = value key

/-- No name of a variable has an `=`. -/
def PlainKeys (value : String → Option String) : Prop := ∀ key, value key ≠ none → '=' ∉ key.toList

namespace StringMap

/-- The entries of a map with plain keys are read as those of the map. -/
theorem mapM_readVariable?_envEntries {m : StringMap} (h : PlainKeys m.get?) :
    (envEntries m).mapM readVariable? = some m.entries := by
  rw [mapM_eq_some_iff, envEntries, List.forall₂_map_left_iff, List.forall₂_same]
  intro e he
  exact readVariable?_append (h e.1 (mem_keys_iff.1 (List.mem_map_of_mem he))) e.2

end StringMap

/-- The entries made of a map say what the map does just if the keys of the map are plain. -/
theorem assigns_envEntries_iff (m : StringMap) : Assigns (envEntries m) m.get? ↔ PlainKeys m.get? := by
  constructor
  · rintro ⟨pairs, hpairs, -, hvalue⟩ key hkey
    rw [← hvalue key] at hkey
    obtain ⟨value, hlookup⟩ := Option.ne_none_iff_exists'.1 hkey
    -- what is found has been read, and what is read has a plain key
    obtain ⟨entry, -, hread⟩ := exists_of_mem_right (mapM_eq_some_iff.1 hpairs) (mem_of_lookup hlookup)
    exact notMem_key_of_readVariable? hread
  · intro h
    exact ⟨m.entries, StringMap.mapM_readVariable?_envEntries h, m.ascending, fun _ => rfl⟩

/-- What a run records as the environment of its process. -/
theorem vertex?_of_run_exec {g g' : Graph} {base : State} {options : RunOptions} {r : RunResult}
    (h : (Build.exec base options).run g = (.ok r, g')) :
    ∃ e inputs, g'.vertex? r.vertex = some ⟨.exec e, inputs⟩ ∧
      e.process.env = envEntries (effectiveEnv base.env options.env) := by
  rw [Build.run_exec] at h
  obtain ⟨rfl, rfl⟩ := Graph.accept_eq_ok h
  exact ⟨_, _, g.vertex?_intern _, rfl⟩

/-- Runs with plain keys that record the same entries have the same environment. -/
theorem effectiveValue_eq_of_entries_eq {base base' changes changes' : StringMap}
    (h : PlainKeys (effectiveValue base changes)) (h' : PlainKeys (effectiveValue base' changes'))
    (hentries : envEntries (effectiveEnv base changes) = envEntries (effectiveEnv base' changes')) :
    effectiveValue base changes = effectiveValue base' changes' := by
  rw [← get?_effectiveEnv] at h h' ⊢
  rw [← get?_effectiveEnv base' changes']
  have hread := StringMap.mapM_readVariable?_envEntries h
  rw [hentries, StringMap.mapM_readVariable?_envEntries h', Option.some.injEq] at hread
  rw [StringMap.ext hread]

/-- The operation that a marshaled output comes from is the one that its root refers to. -/
theorem Graph.root_of_marshal {g : Graph} (hg : g.Sound) {s : State} {o : Output} (hs : s.output = some o)
    {platform : Platform} {d : Definition} (hd : marshal g s platform = .ok d) {v : Vertex}
    (hv : g.vertex? o.vertex = some v) :
    ∃ listed ∈ d.ops, listed.op = v.op ∧ d.root = some ⟨listed.digest, o.index⟩ := by
  obtain ⟨-, emitted, top, hemission, -, -, htop, rfl⟩ := marshal_eq_ok hg hs hd
  have hmem := mem_of_lookup htop
  obtain ⟨w, refs, hw, -, -, rfl⟩ := hemission.body hmem
  obtain rfl := Option.some.inj (hw.symm.trans hv)
  exact ⟨_, List.mem_map_of_mem hmem, rfl, rfl⟩

/-- Where an output of a run has been marshaled, the root of the definition is the process with its entries. They
say what the environment of the run is just if no key of it has an `=`. A later run that shares the vertex then has
the same environment if its keys have no `=` either, and only then. -/
theorem assigns_recorded_iff {g g' : Graph} (hg : g.Reachable) {base : State} {options : RunOptions} {r : RunResult}
    (h : (Build.exec base options).run g = (.ok r, g')) {s : State} {index : Nat}
    (hs : s.output = some ⟨r.graph, r.vertex, index⟩) {platform : Platform} {d : Definition}
    (hd : marshal g' s platform = .ok d) :
    ∃ e, (∃ listed ∈ d.ops, listed.op = .exec e ∧ d.root = some ⟨listed.digest, index⟩) ∧
      (Assigns e.process.env (effectiveValue base.env options.env) ↔
        PlainKeys (effectiveValue base.env options.env)) ∧
      (PlainKeys (effectiveValue base.env options.env) →
        ∀ (calls : List Call) (base' : State) (options' : RunOptions) (r' : RunResult) (g'' : Graph),
          (Build.exec base' options').run (calls.foldl Call.next g') = (.ok r', g'') → r'.vertex = r.vertex →
          (effectiveValue base'.env options'.env = effectiveValue base.env options.env ↔
            PlainKeys (effectiveValue base'.env options'.env))) := by
  obtain ⟨e, inputs, hv, henv⟩ := vertex?_of_run_exec h
  have hsound : g'.Sound := by
    have hnext : (Call.exec base options).next g = g' := by rw [Call.next, h]
    exact hnext ▸ (hg.call _).sound
  refine ⟨e, Graph.root_of_marshal hsound hs hd hv, ?_, ?_⟩
  · rw [henv, ← get?_effectiveEnv]
    exact assigns_envEntries_iff _
  · intro hplain calls base' options' r' g'' h' hvertex
    obtain ⟨e', inputs', hv', henv'⟩ := vertex?_of_run_exec h'
    have hgrows : g'.GrowsTo g'' := by
      have hrun := Build.grows_exec base' options' (calls.foldl Call.next g')
      rw [h'] at hrun
      exact (Call.growsTo_calls calls g').trans hrun
    have hsame := hgrows.vertex? hv
    rw [← hvertex, hv', Option.some.injEq, Vertex.mk.injEq, Op.exec.injEq] at hsame
    obtain ⟨rfl, -⟩ := hsame
    constructor
    · intro heq
      rwa [heq]
    · intro hplain'
      exact effectiveValue_eq_of_entries_eq hplain' hplain (henv'.symm.trans henv)

/-- A run of the same process as the sample, which has its environment from the base. -/
def inheritingBase : State := (sampleState 0 0).withEnv "PATH" "/bin"

def inheritingRun : RunOptions := { sampleRun with env := .empty }

theorem plainKeys_effectiveValue {base changes : StringMap}
    (h : ∀ key ∈ (effectiveEnv base changes).keys, '=' ∉ key.toList) : PlainKeys (effectiveValue base changes) := by
  intro key hkey
  rw [← get?_effectiveEnv] at hkey
  exact h key (StringMap.mem_keys_iff.2 hkey)

/-- The sample run has plain keys, and shares its vertex with the run that inherits what it sets itself. -/
theorem assigns_recorded_sample :
    ∃ r e r', (Build.exec (sampleState 0 0) sampleRun).run
        ([Call.image "alpine", .localDir "src"].foldl Call.next (.empty ⟨0⟩)) = (.ok r, sampleGraph) ∧
      marshal sampleGraph (sampleState 2 1) .target = .ok sampleDefinition ∧
      (∃ listed ∈ sampleDefinition.ops, listed.op = .exec e ∧ sampleDefinition.root = some ⟨listed.digest, 1⟩) ∧
      Assigns e.process.env (effectiveValue .empty sampleRun.env) ∧
      (Build.exec inheritingBase inheritingRun).run sampleGraph = (.ok r', sampleGraph) ∧ r'.vertex = r.vertex ∧
      effectiveValue inheritingBase.env inheritingRun.env = effectiveValue .empty sampleRun.env := by
  have hreachable : ([Call.image "alpine", .localDir "src"].foldl Call.next (.empty ⟨0⟩)).Reachable :=
    (Graph.Reachable.empty ⟨0⟩).calls _
  have hrun : (Build.exec (sampleState 0 0) sampleRun).run
      ([Call.image "alpine", .localDir "src"].foldl Call.next (.empty ⟨0⟩)) =
        (.ok ⟨⟨0⟩, 2, sampleState 2 0, [⟨"/src", some 1⟩]⟩, sampleGraph) := rfl
  have hinheriting : (Build.exec inheritingBase inheritingRun).run sampleGraph =
      (.ok ⟨⟨0⟩, 2, ⟨some ⟨⟨0⟩, 2, 0⟩, inheritingBase.setting⟩, [⟨"/src", some 1⟩]⟩, sampleGraph) := rfl
  have hplain : PlainKeys (effectiveValue .empty sampleRun.env) := plainKeys_effectiveValue (by decide)
  have hplain' : PlainKeys (effectiveValue inheritingBase.env inheritingRun.env) :=
    plainKeys_effectiveValue (by decide)
  obtain ⟨e, hroot, hassigns, hshared⟩ := assigns_recorded_iff hreachable hrun (s := sampleState 2 1) rfl marshal_sample
  have hsame := (hshared hplain [] _ _ _ _ hinheriting rfl).2 hplain'
  exact ⟨_, e, _, hrun, marshal_sample, hroot, hassigns.2 hplain, hinheriting, rfl, hsame⟩

/-- A run with one variable in its environment. -/
def variableRun (key value : String) : RunOptions :=
  { RunOptions.ofArgs ["true"] with env := .ofList [(key, value)] }

def imageGraph : Graph := (Call.image "alpine").next (.empty ⟨0⟩)

/-- A variable with an `=` in its name is recorded as another variable, for which a later run may have asked: both
runs have the same vertex, which has a definition. -/
theorem equals_in_key_misread :
    imageGraph.Reachable ∧
    ∃ r r' g' e inputs d, (Build.exec (sampleState 0 0) (variableRun "A=B" "c")).run imageGraph = (.ok r, g') ∧
      marshal g' r.root .target = .ok d ∧ g'.vertex? r.vertex = some ⟨.exec e, inputs⟩ ∧
      ¬Assigns e.process.env (effectiveValue .empty (variableRun "A=B" "c").env) ∧
      (Build.exec (sampleState 0 0) (variableRun "A" "B=c")).run g' = (.ok r', g') ∧ r'.vertex = r.vertex ∧
      effectiveValue .empty (variableRun "A=B" "c").env ≠ effectiveValue .empty (variableRun "A" "B=c").env := by
  have hvalue : effectiveValue .empty (variableRun "A=B" "c").env "A=B" = some "c" := by decide
  have hother : effectiveValue .empty (variableRun "A" "B=c").env "A=B" = none := by decide
  obtain ⟨d, hd⟩ : ∃ d, marshal ((Build.exec (sampleState 0 0) (variableRun "A=B" "c")).run imageGraph).2
      (sampleState 1 0) .target = .ok d := exists_eq_ok (by decide +kernel)
  refine ⟨(Graph.Reachable.empty ⟨0⟩).call _, _, _, _, _, _, d, rfl, hd, rfl, ?_, rfl, rfl, ?_⟩
  · intro h
    have hplain := (assigns_envEntries_iff (effectiveEnv .empty (variableRun "A=B" "c").env)).1
    rw [get?_effectiveEnv] at hplain
    exact hplain h "A=B" (by rw [hvalue]; nofun) (by decide)
  · intro h
    rw [h, hother] at hvalue
    cases hvalue

end BuildGraph
