import BuildGraph.Json.Codec
import BuildGraph.Path

/-!
# States

A `State` names a filesystem, one output of a vertex of a graph or the empty filesystem, together with the
`Setting` that what is built on it inherits: a directory and an environment. To change the setting makes another
state of the same filesystem.
-/

namespace BuildGraph

structure GraphId where
  number : Nat
deriving DecidableEq, Repr

/-- One output of a vertex, the vertex given by its position in its graph. -/
structure Output where
  graph : GraphId
  vertex : Nat
  index : Nat
deriving DecidableEq, Repr

/-- The directory and the environment that operations on a state start with. -/
structure Setting where
  dir : Option String
  env : StringMap
deriving DecidableEq

def Setting.none : Setting := ⟨.none, .empty⟩

/-- A filesystem, the empty one if there is no output, and its setting. -/
structure State where
  output : Option Output
  setting : Setting
deriving DecidableEq

namespace State

def scratch : State := ⟨none, .none⟩

instance : Inhabited State := ⟨scratch⟩

def ofOutput (o : Output) : State := ⟨some o, .none⟩

def isScratch (s : State) : Bool := s.output.isNone

def dir (s : State) : String := s.setting.dir.getD "/"

def env (s : State) : StringMap := s.setting.env

def withDir (s : State) (dir : String) : State :=
  { s with setting := { s.setting with dir := some (Path.join s.dir dir) } }

def withEnv (s : State) (key value : String) : State :=
  { s with setting := { s.setting with env := s.setting.env.insert key value } }

@[simp] theorem output_withDir (s : State) (dir : String) : (s.withDir dir).output = s.output := rfl

@[simp] theorem output_withEnv (s : State) (key value : String) : (s.withEnv key value).output = s.output := rfl

@[simp] theorem dir_withDir (s : State) (dir : String) : (s.withDir dir).dir = Path.join s.dir dir := rfl

@[simp] theorem dir_withEnv (s : State) (key value : String) : (s.withEnv key value).dir = s.dir := rfl

@[simp] theorem env_withDir (s : State) (dir : String) : (s.withDir dir).env = s.env := rfl

@[simp] theorem env_withEnv (s : State) (key value : String) :
    (s.withEnv key value).env = s.env.insert key value := rfl

end State

open Json Fields

def Setting.codec : Codec Setting :=
  (record "StateMeta" <|
    field (.optional "dir" .string) <|
    field (.required "env" .stringMap) done).imap
  (fun (dir, env, _) => ⟨dir, env⟩)
  (fun s => (s.dir, s.env, ()))

end BuildGraph
