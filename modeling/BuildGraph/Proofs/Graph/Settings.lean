import BuildGraph.Proofs.Graph.Recorded
import BuildGraph.Proofs.Path.Join
import BuildGraph.Proofs.StringMap

/-!
# What updates make of a state

A state is updated by going to a directory and by giving a variable a value. No update looks at what another kind of
update, or one of another variable, has done. So what becomes of the directory depends on the directories that are gone
to (`dir_updates`), what becomes of a variable on the values that it is given (`get?_env_updates`), and of updates in an
order where these are the same nothing else comes (`updates_congr`).
-/

namespace BuildGraph

namespace State

/-- A change of the setting. -/
inductive Update
  | dir (path : String)
  | env (key value : String)
deriving DecidableEq

def Update.dir? : Update → Option String
  | dir path => some path
  | env _ _ => none

def Update.value? (key : String) : Update → Option String
  | dir _ => none
  | env k value => if k = key then some value else none

def update (s : State) : Update → State
  | .dir path => s.withDir path
  | .env key value => s.withEnv key value

def updates (s : State) (us : List Update) : State := us.foldl update s

/-- The directories that some updates go to, in order. -/
def dirs (us : List Update) : List String := us.filterMap Update.dir?

/-- The values that some updates give to a variable, in order. -/
def values (key : String) (us : List Update) : List String := us.filterMap (Update.value? key)

/-- The updates of the directory are in the same order, and so are those of each variable. -/
structure SameOrder (us vs : List Update) : Prop where
  dirs : dirs us = dirs vs
  values : ∀ key, values key us = values key vs

/-- One more directory to go to. The first one is followed from the root. -/
def goTo (dir? : Option String) (path : String) : Option String := some (Path.join (dir?.getD "/") path)

theorem updates_concat (s : State) (us : List Update) (u : Update) :
    s.updates (us ++ [u]) = (s.updates us).update u :=
  List.foldl_concat ..

theorem dirs_concat (us : List Update) (u : Update) : dirs (us ++ [u]) = dirs us ++ u.dir?.toList := by
  rw [dirs, List.filterMap_append, dirs]
  cases u <;> rfl

theorem values_concat (key : String) (us : List Update) (u : Update) :
    values key (us ++ [u]) = values key us ++ (u.value? key).toList := by
  rw [values, List.filterMap_append, values, List.filterMap_cons]
  cases u.value? key <;> rfl

theorem eq_of_components {s s' : State} (houtput : s.output = s'.output) (hdir : s.setting.dir = s'.setting.dir)
    (henv : s.env = s'.env) : s = s' := by
  obtain ⟨output, dir, env⟩ := s
  obtain ⟨output', dir', env'⟩ := s'
  obtain rfl : output = output' := houtput
  obtain rfl : dir = dir' := hdir
  obtain rfl : env = env' := henv
  rfl

variable {s : State}

/-- What every update keeps is kept by all of them. -/
theorem updates_induction {p : State → Prop} (hstep : ∀ s u, p s → p (s.update u)) (h : p s) (us : List Update) :
    p (s.updates us) := by
  induction us generalizing s with
  | nil => exact h
  | cons u us ih => exact ih (hstep s u h)

theorem Placed.update (h : s.Placed) (u : Update) : (s.update u).Placed := by
  cases u with
  | dir path => exact h.withDir path
  | env key value => exact h.withEnv key value

theorem Placed.updates (h : s.Placed) (us : List Update) : (s.updates us).Placed :=
  updates_induction (fun _ u h => h.update u) h us

theorem output_update (s : State) (u : Update) : (s.update u).output = s.output := by
  cases u <;> rfl

theorem output_updates (s : State) (us : List Update) : (s.updates us).output = s.output :=
  updates_induction (fun s' u h => (output_update s' u).trans h) rfl us

theorem dir?_updates (s : State) (us : List Update) :
    (s.updates us).setting.dir = (dirs us).foldl goTo s.setting.dir := by
  induction us using List.reverseRecOn with
  | nil => rfl
  | append_singleton us u ih =>
      rw [updates_concat, dirs_concat, List.foldl_append, ← ih]
      cases u <;> rfl

/-- To go to the directory is to go to the directories one after another. -/
theorem walk_dir_updates (h : s.Placed) (us : List Update) :
    Path.walk [] (s.updates us).dir = (dirs us).foldl Path.walk (Path.walk [] s.dir) := by
  induction us using List.reverseRecOn with
  | nil => rfl
  | append_singleton us u ih =>
      rw [updates_concat, dirs_concat, List.foldl_append, ← ih]
      cases u with
      | dir path => exact Path.walk_join (Path.ne_empty_of_isAbsolute (h.updates us).absolute) path []
      | env key value => rfl

theorem dir_updates (h : s.Placed) (us : List Update) :
    (s.updates us).dir = Path.rooted ((dirs us).foldl Path.walk (Path.walk [] s.dir)).reverse := by
  have hplaced := h.updates us
  rw [← walk_dir_updates h, Path.rooted_walk hplaced.absolute, hplaced.normal]

/-- A variable has the value that it is given last. -/
theorem get?_env_updates (s : State) (us : List Update) (key : String) :
    (s.updates us).env.get? key = (values key us).getLast?.or (s.env.get? key) := by
  induction us using List.reverseRecOn with
  | nil => rfl
  | append_singleton us u ih =>
      rw [updates_concat, values_concat]
      cases u with
      | dir path =>
          rw [Update.value?, Option.toList_none, List.append_nil]
          exact ih
      | env k value =>
          rw [update, env_withEnv, StringMap.get?_insert, Update.value?]
          by_cases hkey : k = key
          · rw [if_pos hkey.symm, if_pos hkey, Option.toList_some, List.getLast?_concat, Option.some_or]
          · rw [if_neg (Ne.symm hkey), if_neg hkey, Option.toList_none, List.append_nil, ih]

theorem updates_congr {us vs : List Update} (h : SameOrder us vs) (s : State) : s.updates us = s.updates vs := by
  have hdir : (s.updates us).setting.dir = (s.updates vs).setting.dir := by
    rw [dir?_updates, dir?_updates, h.dirs]
  have henv : (s.updates us).env = (s.updates vs).env := by
    refine StringMap.eq_of_get?_eq fun key => ?_
    rw [get?_env_updates, get?_env_updates, h.values]
  exact eq_of_components ((output_updates s us).trans (output_updates s vs).symm) hdir henv

end State

namespace Graphs.Given

variable {rs : List Request} {s : State}

theorem update (h : Given rs s) (u : State.Update) : Given rs (s.update u) := by
  cases u with
  | dir path => exact h.withDir path
  | env key value => exact h.withEnv key value

theorem updates (h : Given rs s) (us : List State.Update) : Given rs (s.updates us) :=
  State.updates_induction (fun _ u h => h.update u) h us

end Graphs.Given

/-- A state that can be had is updated any number of times. This gives a state of the same filesystem that can be had.
Its directory is absolute and in normal form: the place that is reached from that of the first state when the
directories are followed one after another. Each variable has the last value that it has been given, or else the one
that it had. And it is the same state in every order of the updates where those of the directory, and those of each
variable, follow each other as before. -/
theorem setting_of_updates {rs : List Request} (hrs : Graphs.Possible rs) {s : State} (hs : Graphs.Given rs s)
    (us : List State.Update) :
    Graphs.Given rs (s.updates us) ∧ (s.updates us).output = s.output ∧
      (s.updates us).Placed ∧
      (s.updates us).dir = Path.rooted ((State.dirs us).foldl Path.walk (Path.walk [] s.dir)).reverse ∧
      (∀ key, (s.updates us).env.get? key = (State.values key us).getLast?.or (s.env.get? key)) ∧
      ∀ vs, State.SameOrder us vs → s.updates us = s.updates vs := by
  have hplaced := hs.placed hrs.placed
  exact ⟨hs.updates us, State.output_updates s us, hplaced.updates us, State.dir_updates hplaced us,
    State.get?_env_updates s us, fun vs h => State.updates_congr h s⟩

/-- Updates that go up to the root, take a directory by its absolute path, and give a variable a value twice. -/
def sampleUpdates : List State.Update :=
  [.env "MODE" "debug", .dir "app/src", .dir "../../..", .env "LANG" "C", .dir "/lib//.", .dir "x/../y",
    .env "MODE" "release"]

/-- The same updates, the variables in another order and before all directories. -/
def sortedUpdates : List State.Update :=
  [.env "LANG" "C", .env "MODE" "debug", .env "MODE" "release", .dir "app/src", .dir "../../..", .dir "/lib//.",
    .dir "x/../y"]

theorem sameOrder_sorted : State.SameOrder sampleUpdates sortedUpdates where
  dirs := rfl
  values := by
    intro key
    by_cases hmode : "MODE" = key
    · subst hmode
      rfl
    by_cases hlang : "LANG" = key
    · subst hlang
      rfl
    · simp [sampleUpdates, sortedUpdates, State.values, State.Update.value?, List.filterMap_cons, hmode, hlang]

theorem setting_of_updates_sorted :
    Graphs.Possible [⟨⟨0⟩, .image "alpine"⟩] ∧ Graphs.Given [⟨⟨0⟩, .image "alpine"⟩] (firstState ⟨0⟩) ∧
      ((firstState ⟨0⟩).updates sampleUpdates).dir = "/lib/y" ∧
      ((firstState ⟨0⟩).updates sampleUpdates).env.get? "MODE" = some "release" ∧
      (firstState ⟨0⟩).updates sampleUpdates = (firstState ⟨0⟩).updates sortedUpdates := by
  have hpossible : Graphs.Possible [⟨⟨0⟩, .image "alpine"⟩] := @Graphs.Possible.snoc [] _ .nil nofun
  have hgiven : Graphs.Given [⟨⟨0⟩, .image "alpine"⟩] (firstState ⟨0⟩) :=
    @Graphs.Given.answer [] [] _ _ rfl _ (.state _)
  obtain ⟨-, -, -, hdir, henv, horder⟩ := setting_of_updates hpossible hgiven sampleUpdates
  exact ⟨hpossible, hgiven, hdir.trans (by decide +kernel), henv "MODE", horder _ sameOrder_sorted⟩

end BuildGraph
