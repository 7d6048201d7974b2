import BuildGraph.Proofs.Path.Walk
import BuildGraph.Workspace

/-!
# Paths as the host sees them

The files of a workspace lie on a host, which reads a path in its own way: it takes the path apart into components.
The root of an absolute path is one, a dot is one where a relative path begins with it, and behind that each name and
each `..` is one; slashes that repeat or end a path and all other dots say nothing (`hostComponents`). Unlike in a
normal form, `..` takes nothing back.

Where nothing goes up there is nothing to take back, so the two readings come to the same names
(`exists_names_of_up_notMem`). Such a path, put behind a directory, adds just its names to the components of the
directory (`hostComponents_hostJoin`), and the normal form that it has from the root has the root and the same names
(`hostComponents_rooted`).
-/

namespace BuildGraph.Path

/-- A component of a path. -/
inductive HostComponent
  | root
  | current
  | parent
  | name (s : Segment)
deriving DecidableEq

namespace HostComponent

/-- The component that a segment behind the front of a path is, if it is one. -/
def ofSegment? (s : Segment) : Option HostComponent :=
  if s = [] ∨ s = here then none else if s = up then some parent else some (name s)

/-- One does not come out of a directory with it. -/
def Stays : HostComponent → Prop
  | current | name _ => True
  | root | parent => False

theorem ofSegment?_of_stay {s : Segment} (h : s = [] ∨ s = here) : ofSegment? s = none := if_pos h

theorem ofSegment?_of_plain {s : Segment} (h : Plain s) : ofSegment? s = some (name s) := by
  rw [ofSegment?, if_neg (not_or.2 ⟨h.ne_nil, h.ne_here⟩), if_neg h.ne_up]

/-- Of the segments only `..` gives a component that leads out. -/
theorem stays_of_ofSegment? {s : Segment} {c : HostComponent} (h : ofSegment? s = some c) : c.Stays ↔ s ≠ up := by
  unfold ofSegment? at h
  split at h
  · cases h
  · split at h
    · rename_i hup
      obtain rfl := Option.some.inj h
      exact ⟨False.elim, fun hne => hne hup⟩
    · rename_i hup
      obtain rfl := Option.some.inj h
      exact ⟨fun _ => hup, fun _ => trivial⟩

end HostComponent

/-- The component that a path begins with, if its beginning says more than the names that follow: the root, or a dot
that no root is in front of. -/
def front (path : List Char) : List HostComponent :=
  if isAbsolute path then [.root] else if (segments path).head? = some here then [.current] else []

/-- The components behind the front. -/
def trail (path : List Char) : List HostComponent := (segments path).filterMap HostComponent.ofSegment?

/-- The components that the host takes a path apart into. -/
def hostComponents (path : String) : List HostComponent := front path.toList ++ trail path.toList

theorem trail_append_slash (dir path : List Char) : trail (dir ++ '/' :: path) = trail dir ++ trail path := by
  rw [trail, segments_append_slash, List.filterMap_append]
  rfl

theorem trail_slash (path : List Char) : trail ('/' :: path) = trail path := by
  rw [trail, segments_slash_cons]
  rfl

/-- A path begins as the directory that it is put behind does. -/
theorem front_append_slash {dir : List Char} (hdir : dir ≠ []) (path : List Char) :
    front (dir ++ '/' :: path) = front dir := by
  have hhead : (segments (dir ++ '/' :: path)).head? = (segments dir).head? := by
    rw [segments_append_slash]
    exact List.head?_append_of_ne_nil _ (List.splitOn_ne_nil '/' dir)
  rw [front, isAbsolute_append_of_ne_nil hdir, hhead]
  rfl

/-- A relative path adds what is behind its front, whether the directory ends in a slash or not. -/
theorem hostComponents_hostJoin {dir path : String} (hdir : dir ≠ "") (hpath : isAbsolute path.toList = false) :
    hostComponents (hostJoin dir path) = hostComponents dir ++ trail path.toList := by
  have hrelative : path.toList.head? ≠ some '/' := fun h => by simp [isAbsolute, h] at hpath
  have hchars : dir.toList ≠ [] := fun h => hdir (String.toList_eq_nil_iff.1 h)
  rw [hostJoin, if_neg hrelative]
  by_cases hslash : dir.toList.getLast? = some '/'
  · -- the slash that the directory ends in is the one in front of the path
    obtain ⟨above, habove⟩ := List.getLast?_eq_some_iff.1 hslash
    rw [if_pos (.inr hslash), hostComponents, hostComponents, String.toList_append, habove, List.append_assoc,
      List.singleton_append]
    cases above with
    | nil =>
        rw [List.nil_append, List.nil_append, trail_slash, trail_slash]
        rfl
    | cons c above =>
        have hne : c :: above ≠ [] := List.cons_ne_nil c above
        rw [front_append_slash hne, front_append_slash hne, trail_append_slash, trail_append_slash]
        simp [trail, segments, HostComponent.ofSegment?]
  · have htext : (dir ++ "/" ++ path).toList = dir.toList ++ '/' :: path.toList := by simp
    rw [if_neg (not_or.2 ⟨hdir, hslash⟩), hostComponents, htext, front_append_slash hchars, trail_append_slash,
      hostComponents, List.append_assoc]

theorem filterMap_ofSegment?_of_plain {ss : List Segment} (hss : ∀ s ∈ ss, Plain s) :
    ss.filterMap HostComponent.ofSegment? = ss.map .name := by
  rw [← List.filterMap_eq_map]
  exact List.filterMap_congr fun s hs => HostComponent.ofSegment?_of_plain (hss s hs)

/-- The components of an absolute path in normal form are the root and its names. -/
theorem hostComponents_rooted {ss : List Segment} (hss : ∀ s ∈ ss, Plain s) :
    hostComponents (rooted ss) = .root :: ss.map .name := by
  rw [hostComponents, toList_rooted, trail_slash]
  cases ss with
  | nil => rfl
  | cons s ss =>
      have hsplit : segments (['/'].intercalate (s :: ss)) = s :: ss :=
        List.splitOn_intercalate '/' (fun t ht => (hss t ht).no_slash) (List.cons_ne_nil s ss)
      rw [trail, hsplit, filterMap_ofSegment?_of_plain hss]
      rfl

/-- Where nothing goes up, a normal form keeps the names that are the components. -/
theorem exists_names_of_up_notMem {ss : List Segment} (hss : ∀ s ∈ ss, '/' ∉ s) (hup : up ∉ ss) :
    ∃ names : List Segment, (∀ s ∈ names, Plain s) ∧ ss.filterMap HostComponent.ofSegment? = names.map .name ∧
      ∀ absolute stack, ss.foldl (step absolute) stack = names.reverse ++ stack := by
  induction ss with
  | nil => exact ⟨[], fun _ hs => absurd hs List.not_mem_nil, rfl, fun _ _ => rfl⟩
  | cons s ss ih =>
      obtain ⟨hs, hss⟩ := List.forall_mem_cons.1 hss
      obtain ⟨hne, hup⟩ := not_or.1 (mt List.mem_cons.2 hup)
      obtain ⟨names, hplain, hcomponents, hstack⟩ := ih hss hup
      rcases stay_or_up_or_plain hs with hstay | rfl | hname
      · refine ⟨names, hplain, ?_, fun absolute stack => ?_⟩
        · rw [List.filterMap_cons_none (HostComponent.ofSegment?_of_stay hstay), hcomponents]
        · rw [List.foldl_cons, step_of_stay hstay, hstack]
      · exact absurd rfl hne
      · refine ⟨s :: names, List.forall_mem_cons.2 ⟨hname, hplain⟩, ?_, fun absolute stack => ?_⟩
        · rw [List.filterMap_cons_some (HostComponent.ofSegment?_of_plain hname), hcomponents]
          rfl
        · rw [List.foldl_cons, step_of_plain hname, hstack, List.reverse_cons, List.append_assoc]
          rfl

/-- A path without `..` leads from the root to its names. -/
theorem exists_join_root_eq_rooted {path : String} (hup : up ∉ segments path.toList) :
    ∃ names : List Segment, (∀ s ∈ names, Plain s) ∧ trail path.toList = names.map .name ∧
      join "/" path = rooted names := by
  obtain ⟨names, hplain, hcomponents, hstack⟩ := exists_names_of_up_notMem (fun _ => slash_notMem_segments) hup
  refine ⟨names, hplain, hcomponents, ?_⟩
  rw [join_root, normalize_slash_append, hstack, List.append_nil, List.reverse_reverse]

theorem forall_front_stays_iff {path : List Char} : (∀ c ∈ front path, c.Stays) ↔ isAbsolute path = false := by
  unfold front
  split
  · rename_i h
    simp [h, HostComponent.Stays]
  · rename_i h
    split <;> simp [h, HostComponent.Stays]

theorem forall_trail_stays_iff {path : List Char} : (∀ c ∈ trail path, c.Stays) ↔ up ∉ segments path := by
  constructor
  · intro h hup
    exact h .parent (List.mem_filterMap.2 ⟨up, hup, by decide⟩)
  · intro hup c hc
    obtain ⟨s, hs, hsc⟩ := List.mem_filterMap.1 hc
    exact (HostComponent.stays_of_ofSegment? hsc).2 fun h => hup (h ▸ hs)

end BuildGraph.Path

namespace BuildGraph.Workspace

theorem isInner_iff {path : String} :
    isInner path = true ↔ path ≠ "" ∧ path.toList.head? ≠ some '/' ∧ Path.up ∉ Path.segments path.toList := by
  simp [isInner, Path.segments, Path.up, and_assoc]

/-- A path stays in a directory just if all that the host finds in it does. -/
theorem isInner_iff_stays {path : String} :
    isInner path = true ↔ path ≠ "" ∧ ∀ c ∈ Path.hostComponents path, c.Stays := by
  have habsolute : Path.isAbsolute path.toList = false ↔ path.toList.head? ≠ some '/' := by simp [Path.isAbsolute]
  rw [isInner_iff, Path.hostComponents, List.forall_mem_append, Path.forall_front_stays_iff,
    Path.forall_trail_stays_iff, habsolute]

theorem file_eq_ok_iff {w : Workspace} {path file : String} :
    w.file path = .ok file ↔ isInner path = true ∧ file = hostJoin w.root path := by
  unfold Workspace.file
  split
  · rename_i hinner
    rw [Except.ok.injEq, and_iff_right hinner, eq_comm]
  · rename_i hinner
    exact ⟨nofun, fun h => absurd h.1 hinner⟩

end BuildGraph.Workspace
