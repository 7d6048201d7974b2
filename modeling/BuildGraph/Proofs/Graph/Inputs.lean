import BuildGraph.Proofs.Graph.Call
import BuildGraph.Proofs.Op.Valid
import Mathlib.Data.List.Forall2

/-!
# The inputs of what calls add

A call collects the inputs of its vertex one by one: a filesystem that is there already keeps its place, another
one is put at the end, the empty one has no place. `Places` says what this gives, whatever the number of
filesystems and the order in which they come: the inputs differ, and the places that were handed out are those
of the inputs that came in. So the operation of a vertex refers to its inputs and to nothing else, and to each of
them (`Vertex.Tidy`). A place has the filesystem that it was handed out for, also when more have been put behind it
(`getElem?_slot`, `forall₂_slots`).

The outputs of a run are numbered on the way. The root comes first with the number 0, the mounts that can be
written follow from 1 on, and a read-only mount has no output (`Exec.Ordered`).
-/

namespace BuildGraph

/-- The inputs differ, and the operation refers to all of them and to nothing else. -/
structure Vertex.Tidy (v : Vertex) : Prop where
  nodup : v.inputs.Nodup
  references : ∀ index, some index ∈ v.op.references ↔ index < v.inputs.length

/-- The first mount is the root filesystem and has output 0. The mounts behind it that can be written have the
outputs from 1 on in their order, and read-only mounts have none. -/
structure Exec.Ordered (e : Exec) : Prop where
  root : ∃ m, e.mounts.head? = some m ∧ m.dest = "/" ∧ m.output = some 0
  writable : ∃ count, ((e.mounts.drop 1).filter fun m => !m.readonly).map (·.output) =
    (List.range' 1 count).map some
  readonly : ∀ m ∈ e.mounts, m.readonly = true → m.output = none

/-- From some inputs a call has come to more of them and has handed out places on the way. -/
structure Places (before after : List Output) (places : List (Option Nat)) : Prop where
  nodup : before.Nodup → after.Nodup
  mem : ∀ index, index < after.length ↔ index < before.length ∨ some index ∈ places

namespace Places

variable {a b c : List Output} {p q : List (Option Nat)}

theorem nil (a : List Output) : Places a a [] where
  nodup := id
  mem := by simp

theorem append (h : Places a b p) (h' : Places b c q) : Places a c (p ++ q) where
  nodup := fun ha => h'.nodup (h.nodup ha)
  mem := by
    intro index
    rw [h'.mem, h.mem, List.mem_append, or_assoc]

/-- Only the places that are not empty count. -/
theorem congr (h : Places a b p) (hpq : ∀ index, some index ∈ p ↔ some index ∈ q) : Places a b q where
  nodup := h.nodup
  mem := by
    intro index
    rw [h.mem, hpq]

theorem tidy {op : Op} (h : Places [] b op.references) : (⟨op, b⟩ : Vertex).Tidy where
  nodup := h.nodup List.nodup_nil
  references := by
    intro index
    rw [h.mem]
    simp

end Places

theorem prefix_slot (inputs : List Output) (s : State) : inputs <+: (slot inputs s).2 := by
  unfold slot
  split
  · exact List.prefix_refl _
  · split
    · exact List.prefix_refl _
    · exact List.prefix_append _ _

/-- The place of a state has its output. -/
theorem getElem?_slot {s : State} {o : Output} (ho : s.output = some o) (inputs : List Output) :
    ∃ index, (slot inputs s).1 = some index ∧ (slot inputs s).2[index]? = some o := by
  unfold slot
  rw [ho]
  dsimp only
  split
  · rename_i index hindex
    obtain ⟨hlt, heq, -⟩ := List.idxOf?_eq_some_iff.1 hindex
    exact ⟨index, rfl, List.getElem?_eq_some_iff.2 ⟨hlt, heq⟩⟩
  · exact ⟨inputs.length, rfl, List.getElem?_concat_length⟩

namespace Build

theorem prefix_slots (inputs : List Output) (states : List State) : inputs <+: (slots inputs states).2 := by
  induction states generalizing inputs with
  | nil => exact List.prefix_refl _
  | cons s ss ih => exact (prefix_slot inputs s).trans (ih _)

theorem length_slots (inputs : List Output) (states : List State) :
    (slots inputs states).2.length ≤ inputs.length + states.length := by
  induction states generalizing inputs with
  | nil => exact Nat.le_refl _
  | cons s ss ih =>
      have hslot : (slot inputs s).2.length ≤ inputs.length + 1 := by
        unfold slot
        split
        · exact Nat.le_succ _
        · split
          · exact Nat.le_succ _
          · exact Nat.le_of_eq (List.length_append ..)
      have hrest := ih (slot inputs s).2
      rw [slots, List.length_cons]
      dsimp only
      omega

/-- Each of several states with outputs has a place, where its output is found. -/
theorem forall₂_slots {states : List State} (h : ∀ s ∈ states, ∃ o, s.output = some o) (inputs : List Output) :
    List.Forall₂ (fun index (s : State) => ∃ o, s.output = some o ∧ (slots inputs states).2[index]? = some o)
      (slots inputs states).1 states := by
  induction states generalizing inputs with
  | nil => exact .nil
  | cons s ss ih =>
      obtain ⟨⟨o, ho⟩, hss⟩ := List.forall_mem_cons.1 h
      obtain ⟨index, hplace, hindex⟩ := getElem?_slot ho inputs
      obtain ⟨more, hmore⟩ := prefix_slots (slot inputs s).2 ss
      have hkept : (slots (slot inputs s).2 ss).2[index]? = some o := by
        rw [← hmore, List.getElem?_append_left (List.getElem?_eq_some_iff.1 hindex).1, hindex]
      simp only [slots, hplace]
      exact .cons ⟨o, ho, hkept⟩ (ih hss _)

end Build

theorem places_slot (inputs : List Output) (s : State) :
    Places inputs (slot inputs s).2 [(slot inputs s).1] := by
  unfold slot
  split
  · exact (Places.nil inputs).congr (by simp)
  · rename_i o ho
    split
    · rename_i index hindex
      obtain ⟨hlt, -, -⟩ := List.idxOf?_eq_some_iff.1 hindex
      constructor
      · exact id
      · intro i
        rw [List.mem_singleton, Option.some.injEq]
        dsimp only
        omega
    · rename_i hnew
      constructor
      · intro hnodup
        have hdisjoint : inputs.Disjoint [o] :=
          List.disjoint_singleton.2 (List.idxOf?_eq_none_iff.1 hnew)
        exact hnodup.append (List.nodup_singleton o) hdisjoint
      · intro i
        rw [List.length_append, List.length_singleton, List.mem_singleton, Option.some.injEq]
        omega

theorem places_slots (inputs : List Output) (states : List State) :
    Places inputs (Build.slots inputs states).2 ((Build.slots inputs states).1.map some) := by
  induction states generalizing inputs with
  | nil => exact .nil inputs
  | cons s ss ih =>
      have hslot : Places inputs (slot inputs s).2 ((slot inputs s).1.toList.map some) := by
        apply (places_slot inputs s).congr
        cases (slot inputs s).1 <;> simp
      simp only [Build.slots, List.map_append]
      exact hslot.append (ih _)

theorem places_bindMounts (inputs : List Output) (next : Nat) (mounts : List Mount) :
    Places inputs (bindMounts inputs next mounts).2 ((bindMounts inputs next mounts).1.map (·.input)) := by
  induction mounts generalizing inputs next with
  | nil => exact .nil inputs
  | cons m ms ih =>
      simp only [bindMounts, List.map_cons]
      exact (places_slot inputs m.source).append (ih _ _)

/-- The number of mounts that can be written. -/
def writableCount (mounts : List Mount) : Nat := (mounts.filter fun m => !m.readonly).length

theorem writableCount_cons (m : Mount) (ms : List Mount) :
    writableCount (m :: ms) = (if m.readonly then 0 else 1) + writableCount ms := by
  cases h : m.readonly <;> simp [writableCount, h, Nat.add_comm]

/-- The mounts that can be written are numbered in their order. -/
theorem writable_bindMounts (inputs : List Output) (next : Nat) (mounts : List Mount) :
    ((bindMounts inputs next mounts).1.filter fun m => !m.readonly).map (·.output) =
      (List.range' next (writableCount mounts)).map some := by
  induction mounts generalizing inputs next with
  | nil => rfl
  | cons m ms ih =>
      rw [writableCount_cons]
      cases h : m.readonly with
      | true => simp [bindMounts, h, ih]
      | false => simp [bindMounts, h, ih, Nat.add_comm 1, List.range'_succ]

theorem output_bindMounts {inputs : List Output} {next : Nat} {mounts : List Mount} {m : MountPoint}
    (hm : m ∈ (bindMounts inputs next mounts).1) : m.readonly = true ↔ m.output = none := by
  induction mounts generalizing inputs next with
  | nil => cases hm
  | cons n ns ih =>
      rcases List.mem_cons.1 hm with rfl | hm
      · cases h : n.readonly <;> simp
      · exact ih hm

/-- A mount that can be written has an output whose number is below the next one. -/
theorem output_mountResults {next : Nat} {mounts : List Mount} {m : MountResult}
    (hm : m ∈ mountResults next mounts) {index : Nat} (hindex : m.output = some index) :
    index < next + writableCount mounts := by
  induction mounts generalizing next with
  | nil => cases hm
  | cons n ns ih =>
      rw [writableCount_cons]
      rcases List.mem_cons.1 hm with rfl | hm
      · cases h : n.readonly with
        | true => simp [h] at hindex
        | false =>
            obtain rfl : next = index := by simpa [h] using hindex
            simp only [Bool.false_eq_true, if_false]
            omega
      · have hlt := ih hm
        cases h : n.readonly with
        | true => simpa [h] using hlt
        | false =>
            simp only [h, Bool.false_eq_true, if_false] at hlt ⊢
            omega

/-- A run has the output of its root, and one for each mount that can be written. -/
theorem outputCount_runVertex (base : State) (options : RunOptions) :
    (runVertex base options).op.outputCount = 1 + writableCount options.mounts := by
  have hcount := congrArg List.length (writable_bindMounts (slot [] base).2 1 options.mounts)
  rw [List.length_map, List.length_map, List.length_range'] at hcount
  have hfilter : (bindMounts (slot [] base).2 1 options.mounts).1.filter (·.output.isSome) =
      (bindMounts (slot [] base).2 1 options.mounts).1.filter fun m => !m.readonly := by
    apply List.filter_congr
    intro m hm
    have hm := output_bindMounts hm
    cases h : m.output <;> simp_all
  simp only [runVertex, Op.outputCount, List.filter_cons, Option.isSome_some, if_true, List.length_cons,
    hfilter, hcount, Nat.add_comm]

theorem ordered_runVertex (base : State) (options : RunOptions) {e : Exec}
    (he : (runVertex base options).op = .exec e) : e.Ordered := by
  obtain rfl := Op.exec.inj he
  constructor
  · exact ⟨_, rfl, rfl, rfl⟩
  · exact ⟨_, writable_bindMounts _ _ _⟩
  · intro m hm hreadonly
    rcases List.mem_cons.1 hm with rfl | hm
    · cases hreadonly
    · exact (output_bindMounts hm).1 hreadonly

/-- What a call can add: a source, a run, a copy or a merge. -/
inductive Vertex.Built : Vertex → Prop
  | source (s : Source) : Built ⟨.source s, []⟩
  | exec (base : State) (options : RunOptions) : Built (runVertex base options)
  | copy (src : State) (srcPath : String) (dest : State) (destPath : String) (flags : CopyFlags) :
      Built (Build.copyVertex src srcPath dest destPath flags)
  | merge (layers : List State) : Built (Build.mergeVertex layers)

namespace Vertex.Built

theorem tidy {v : Vertex} (h : v.Built) : v.Tidy := by
  cases h with
  | source s =>
      have hsource : Places [] [] (Op.source s).references := .nil []
      exact hsource.tidy
  | exec base options =>
      apply Places.tidy
      exact (places_slot [] base).append (places_bindMounts _ _ _)
  | copy src srcPath dest destPath flags =>
      apply Places.tidy
      exact (places_slot [] dest).append (places_slot _ src)
  | merge layers =>
      apply Places.tidy
      exact places_slots [] layers

theorem ordered {v : Vertex} (h : v.Built) {e : Exec} (he : v.op = .exec e) : e.Ordered := by
  cases h with
  | source s => cases he
  | exec base options => exact ordered_runVertex base options he
  | copy src srcPath dest destPath flags => cases he
  | merge layers => cases he

end Vertex.Built

end BuildGraph
