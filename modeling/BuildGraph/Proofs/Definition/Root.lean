import BuildGraph.Proofs.Definition.Commitment
import BuildGraph.Proofs.Definition.Contents
import BuildGraph.Proofs.Definition.Walk

/-!
# The root finishes last

The operations of a marshaled definition stand for what an output needs, and a vertex is only needed because
vertices lead up from it to the output. So the root reaches every operation (`Definition.Lists.reaches`), and seen
from below every other operation comes to be read by the root (`Dag.Feeds`).

Nothing reads what is last in an order with readers behind, and nothing reads an operation of the last wave, since
its reader would belong to a later one. Both are therefore the root.
-/

namespace BuildGraph

open Relation

namespace Definition.Lists

variable {d : Definition} {g : Graph} {o : Output} {vertices : List Nat}

theorem position_eq (h : d.Lists g o vertices) {j k vertex : Nat} (hj : vertices[j]? = some vertex)
    (hk : vertices[k]? = some vertex) : j = k := by
  have hnodup : vertices.Nodup := h.ascending.imp fun hlt => Nat.ne_of_lt hlt
  exact (List.getElem?_inj (List.getElem?_eq_some_iff.1 hj).1 hnodup).1 (hj.trans hk.symm)

/-- Some operation stands for each vertex that is needed. -/
theorem exists_op (h : d.Lists g o vertices) {vertex : Nat} (hvertex : g.Needs o.vertex vertex) :
    ∃ (k : Nat) (e : DefinitionOp), vertices[k]? = some vertex ∧ d.ops[k]? = some e := by
  obtain ⟨k, hk⟩ := List.mem_iff_getElem?.1 ((h.mem_iff vertex).2 hvertex)
  have hlt := (List.getElem?_eq_some_iff.1 hk).1
  rw [← h.length_eq] at hlt
  exact ⟨k, _, hk, List.getElem?_eq_getElem hlt⟩

/-- What stands for the output itself is the root. -/
theorem reaches_root (h : d.Lists g o vertices) {k : Nat} {e : DefinitionOp} (hk : vertices[k]? = some o.vertex)
    (he : d.ops[k]? = some e) : d.Reaches e := by
  obtain ⟨top, hlast, htop, hroot⟩ := h.root
  rw [List.getLast?_eq_getElem?] at hlast htop
  obtain rfl := h.position_eq hk hlast
  rw [← h.length_eq] at he
  obtain rfl := Option.some.inj (he.symm.trans htop)
  exact .root hroot (List.mem_of_getElem? he) rfl

/-- The root reaches all operations, since each stands for a vertex that the output needs. -/
theorem reaches (h : d.Lists g o vertices) : ∀ e ∈ d.ops, d.Reaches e := by
  -- down the way from the output to a vertex
  have hneeds : ∀ vertex, g.Needs o.vertex vertex → ∀ (k : Nat) (e : DefinitionOp), vertices[k]? = some vertex →
      d.ops[k]? = some e → d.Reaches e := by
    intro vertex hvertex
    induction hvertex with
    | refl => exact fun k e hk he => h.reaches_root hk he
    | @tail reader vertex hreader hreads ih =>
        intro k e hk he
        obtain ⟨k', p, hk', hp⟩ := h.exists_op hreader
        obtain ⟨v, hv, i, hi, rfl⟩ := hreads
        obtain ⟨v', hv', -, -, hinputs⟩ := h.op k' reader p hk' hp
        obtain rfl := Option.some.inj (hv.symm.trans hv')
        obtain ⟨r, hr, j, -, q, hj, hq, rfl⟩ := exists_of_mem_left hinputs hi
        obtain rfl := h.position_eq hj hk
        obtain rfl := Option.some.inj (hq.symm.trans he)
        exact .input (ih k' p hk' hp) hr (List.mem_of_getElem? he) rfl
  intro e he
  obtain ⟨k, hk⟩ := List.mem_iff_getElem?.1 he
  have hlt := (List.getElem?_eq_some_iff.1 hk).1
  rw [h.length_eq] at hlt
  have hvertex : vertices[k]? = some vertices[k] := List.getElem?_eq_getElem hlt
  exact hneeds _ ((h.mem_iff _).1 (List.mem_of_getElem? hvertex)) k e hvertex hk

end Definition.Lists

namespace Dag

/-- One operation is an input of another one, or of one that is an input in turn, and so on. -/
def Feeds (dag : Dag) : Digest → Digest → Prop := TransGen fun input reader => input ∈ dag.dependencies reader

theorem mem_dependencies_of_reads {ops : List DefinitionOp} (h : Listing ops) {o : DefinitionOp} (ho : o ∈ ops)
    {r : InputRef} (hr : r ∈ o.inputs) : r.digest ∈ (ofOps ops).dependencies o.digest :=
  (mem_dependencies_iff (nodup_ofOps h)).2 ⟨node o, List.mem_map_of_mem ho, rfl, List.mem_map_of_mem hr⟩

/-- What the root reaches and is not the root feeds it. -/
theorem feeds_of_reaches {d : Definition} (hd : d.WellFormed) {root : InputRef} (hroot : d.root = some root)
    {e : DefinitionOp} (h : d.Reaches e) : e.digest = root.digest ∨ (ofOps d.ops).Feeds e.digest root.digest := by
  induction h with
  | root hr ho hdigest =>
      obtain rfl := Option.some.inj (hroot.symm.trans hr)
      exact .inl hdigest
  | @input p e r hp hr he hdigest ih =>
      have hread := mem_dependencies_of_reads hd.ops hp.mem hr
      rw [← hdigest] at hread
      rcases ih with heq | hfeeds
      · rw [heq] at hread
        exact .inr (.single hread)
      · exact .inr (.head hread hfeeds)

/-- What feeds an operation has a reader in the definition. -/
theorem Feeds.exists_reader {ops : List DefinitionOp} (h : Listing ops) {digest top : Digest}
    (hfeeds : (ofOps ops).Feeds digest top) : ∃ o ∈ ops, ∃ r ∈ o.inputs, r.digest = digest := by
  obtain ⟨reader, hreader, -⟩ := TransGen.head'_iff.1 hfeeds
  obtain ⟨n, hn, -, hinput⟩ := (mem_dependencies_iff (nodup_ofOps h)).1 hreader
  obtain ⟨o, ho, rfl⟩ := List.mem_map.1 hn
  obtain ⟨r, hr, hdigest⟩ := List.mem_map.1 hinput
  exact ⟨o, ho, r, hr, hdigest⟩

/-- With readers behind what they read, nothing reads the last operation. -/
theorem ReadersBehind.readers_getLast? {dag : Dag} {ds : List Digest} (h : dag.ReadersBehind ds) {last : Digest}
    (hlast : ds.getLast? = some last) : dag.readers last = [] := by
  induction ds with
  | nil => cases hlast
  | cons d ds ih =>
      obtain ⟨hreaders, -, hbehind⟩ := h
      cases ds with
      | nil =>
          obtain rfl := Option.some.inj hlast
          exact List.eq_nil_iff_forall_not_mem.2 fun r hr => List.not_mem_nil (hreaders r hr)
      | cons d' ds => exact ih hbehind hlast

namespace Levels

variable {ops : List DefinitionOp} {level : Digest → Nat} {waves : List (List Digest)}

theorem level_lt (h : Levels ops level waves) {o : DefinitionOp} (ho : o ∈ ops) {r : InputRef} (hr : r ∈ o.inputs) :
    level r.digest < level o.digest := by
  have habove := above_le_iff.1 (Nat.le_of_eq (h.level_eq o ho).symm)
  exact habove _ (List.mem_map_of_mem hr)

/-- A reader of an operation of the last wave would be in a later wave. -/
theorem not_reads_of_mem_last (h : Levels ops level waves) {wave : List Digest} (hlast : waves.getLast? = some wave)
    {digest : Digest} (hmem : digest ∈ wave) : ∀ o ∈ ops, ∀ r ∈ o.inputs, r.digest ≠ digest := by
  rintro o ho r hr rfl
  rw [List.getLast?_eq_getElem?] at hlast
  obtain ⟨-, hlevel⟩ := (h.mem_iff _ _).1 ⟨wave, hlast, hmem⟩
  obtain ⟨later, hlater, -⟩ := (h.mem_iff (level o.digest) o.digest).2 ⟨⟨o, ho, rfl⟩, rfl⟩
  have hbound := (List.getElem?_eq_some_iff.1 hlater).1
  have hlt := h.level_lt ho hr
  omega

/-- A last wave without readers is a single operation, if only one operation is without readers. -/
theorem getLast?_eq (h : Levels ops level waves) (hops : ops ≠ []) {top : Digest}
    (honly : ∀ e ∈ ops, e.digest ≠ top → ∃ o ∈ ops, ∃ r ∈ o.inputs, r.digest = e.digest) :
    waves.getLast? = some [top] := by
  have hne : waves ≠ [] := by
    obtain ⟨o, ho⟩ := List.exists_mem_of_ne_nil ops hops
    obtain ⟨wave, hwave, -⟩ := (h.mem_iff (level o.digest) o.digest).2 ⟨⟨o, ho, rfl⟩, rfl⟩
    exact List.ne_nil_of_mem (List.mem_of_getElem? hwave)
  obtain ⟨wave, hwave⟩ : ∃ wave, waves.getLast? = some wave := ⟨_, List.getLast?_eq_some_getLast hne⟩
  have hmem : wave ∈ waves := List.mem_of_getLast? hwave
  have htop : ∀ digest ∈ wave, digest = top := by
    intro digest hdigest
    by_contra hother
    obtain ⟨⟨e, he, rfl⟩, -⟩ := (h.mem_iff (waves.length - 1) digest).1
      ⟨wave, by rw [← List.getLast?_eq_getElem?, hwave], hdigest⟩
    obtain ⟨o, ho, r, hr, hreads⟩ := honly e he hother
    exact h.not_reads_of_mem_last hwave hdigest o ho r hr hreads
  have hascending := h.ascending wave hmem
  rw [hwave, Option.some.injEq]
  -- ascending digests that are all the same are just one
  match wave, h.ne_nil wave hmem, htop, hascending with
  | [digest], _, htop, _ => rw [htop digest List.mem_cons_self]
  | digest :: digest' :: _, _, htop, hascending =>
      have hlt := (List.pairwise_cons.1 hascending).1 digest' List.mem_cons_self
      rw [htop digest List.mem_cons_self, htop digest' (List.mem_cons_of_mem _ List.mem_cons_self)] at hlt
      exact absurd hlt (String.lt_irrefl _)

end Levels

/-- The last operation in the order is the only one without readers, if there is only one. -/
theorem finishingOrder_getLast?_eq {ops : List DefinitionOp} (h : Listing ops) (hops : ops ≠ []) {top : Digest}
    (honly : ∀ e ∈ ops, e.digest ≠ top → ∃ o ∈ ops, ∃ r ∈ o.inputs, r.digest = e.digest) :
    (ofOps ops).finishingOrder.getLast? = some top := by
  have hrank := ranked_ofOps h
  obtain ⟨hbehind, hall⟩ := readersBehind_finishingOrder hrank
  have hne : (ofOps ops).finishingOrder ≠ [] := by
    obtain ⟨o, ho⟩ := List.exists_mem_of_ne_nil ops hops
    exact List.ne_nil_of_mem (hall (node o) (List.mem_map_of_mem ho))
  obtain ⟨last, hlast⟩ : ∃ last, (ofOps ops).finishingOrder.getLast? = some last :=
    ⟨_, List.getLast?_eq_some_getLast hne⟩
  obtain ⟨n, hn, hdigest⟩ := List.mem_map.1 ((mem_finishingOrder_iff hrank).1 (List.mem_of_getLast? hlast))
  obtain ⟨e, he, rfl⟩ := List.mem_map.1 hn
  obtain rfl : e.digest = last := hdigest
  rw [hlast, Option.some.injEq]
  by_contra hother
  obtain ⟨o, ho, r, hr, hreads⟩ := honly e he hother
  have hreader : o.digest ∈ (ofOps ops).readers e.digest :=
    mem_readers_iff.2 ⟨node o, List.mem_map_of_mem ho, rfl, hreads ▸ List.mem_map_of_mem hr⟩
  rw [hbehind.readers_getLast? hlast] at hreader
  exact List.not_mem_nil hreader

/-- Of the operations of a definition only the root has no readers, if the root reaches all of them. So it is last
in the order, and alone in the last wave. -/
theorem last_eq_root {d : Definition} (hd : d.WellFormed) {root : InputRef} (hroot : d.root = some root)
    (hreaches : ∀ e ∈ d.ops, d.Reaches e) :
    (ofOps d.ops).finishingOrder.getLast? = some root.digest ∧
      ∃ waves, (ofOps d.ops).waves = .ok waves ∧ waves.getLast? = some [root.digest] := by
  have honly : ∀ e ∈ d.ops, e.digest ≠ root.digest → ∃ o ∈ d.ops, ∃ r ∈ o.inputs, r.digest = e.digest := by
    intro e he hother
    exact Feeds.exists_reader hd.ops ((feeds_of_reaches hd hroot (hreaches e he)).resolve_left hother)
  obtain ⟨top, htop, -, -⟩ := hd.root root hroot
  have hops : d.ops ≠ [] := List.ne_nil_of_mem htop
  obtain ⟨level, waves, -, hwaves, hlevels⟩ := exists_levels hd.ops
  exact ⟨finishingOrder_getLast?_eq hd.ops hops honly, waves, hwaves, hlevels.getLast?_eq hops honly⟩

end Dag

/-- Where SHA-256 does not collide, the definition of an output of a graph that calls lead to is finished by its
root: every other operation feeds the root, which is the last one of the order and the only one of the last wave. -/
theorem root_finishes_last {g : Graph} (hg : g.Reachable) {s : State} {o : Output} (hs : s.output = some o)
    {platform : Platform} {d : Definition} (hd : marshal g s platform = .ok d) (hc : CollisionFree d.encodings) :
    ∃ dag root order waves, Dag.ofDefinition d = .ok dag ∧ d.root = some root ∧ dag.topologicalOrder = .ok order ∧
      dag.waves = .ok waves ∧ (∃ top ∈ d.ops, top.digest = root.digest) ∧
      (∀ e ∈ d.ops, e.digest ≠ root.digest → dag.Feeds e.digest root.digest) ∧
      order.getLast? = some root.digest ∧ waves.getLast? = some [root.digest] := by
  have hwellFormed := wellFormed_marshal hg.sound hd hc
  obtain ⟨ho, -⟩ := marshal_eq_ok hg.sound hs hd
  obtain ⟨vertices, hvertices, -⟩ := reachable_eq_ok hg.sound ho.lt_size
  have hlists := Graph.lists_of_marshal hg.sound hs hd hvertices
  obtain ⟨_, -, -, hroot⟩ := hlists.root
  obtain ⟨top, htop, hdigest, -⟩ := hwellFormed.root _ hroot
  obtain ⟨hlast, waves, hwaves, hwave⟩ := Dag.last_eq_root hwellFormed hroot hlists.reaches
  refine ⟨_, _, _, waves, Dag.ofDefinition_eq_ok_iff.2 ⟨hwellFormed, rfl⟩, hroot,
    Dag.topologicalOrder_ofOps hwellFormed.ops, hwaves, ⟨top, htop, hdigest⟩, ?_, hlast, hwave⟩
  intro e he hother
  exact (Dag.feeds_of_reaches hwellFormed hroot (hlists.reaches e he)).resolve_left hother

/-- A process with a directory mounted, whose output in the directory is wanted, comes behind the image and the
directory. -/
theorem root_finishes_last_sample :
    sampleGraph.Reachable ∧ marshal sampleGraph (sampleState 2 1) .target = .ok sampleDefinition ∧
      CollisionFree sampleDefinition.encodings ∧
      ∃ dag order waves, Dag.ofDefinition sampleDefinition = .ok dag ∧ dag.topologicalOrder = .ok order ∧
        dag.waves = .ok waves ∧ dag.Feeds sampleDir.digest sampleExec.digest ∧
        order.getLast? = some sampleExec.digest ∧ waves.getLast? = some [sampleExec.digest] := by
  obtain ⟨dag, root, order, waves, hdag, hroot, horder, hwaves, -, hfeeds, hlast, hwave⟩ :=
    root_finishes_last reachable_sample (o := ⟨⟨0⟩, 2, 1⟩) rfl marshal_sample collisionFree_sample
  have hsame : (⟨sampleExec.digest, 1⟩ : InputRef) = root := Option.some.inj hroot
  subst hsame
  have hdir : sampleDir ∈ sampleDefinition.ops := by simp [sampleDefinition]
  exact ⟨reachable_sample, marshal_sample, collisionFree_sample, dag, order, waves, hdag, horder, hwaves,
    hfeeds sampleDir hdir (by decide +kernel), hlast, hwave⟩

end BuildGraph
