import BuildGraph.Proofs.Definition.Encoding
import BuildGraph.Proofs.Json.RoundTrip

/-!
# Definitions as files

A definition that is written and read again is the same definition, in both layouts of the file
(`ofBytes_toBytes`). Nothing is asked of its texts, and it need not hold together. Only its numbers matter: an index
is a word of 64 bits wherever definitions are made, and a larger natural would not be read as an index.
-/

namespace BuildGraph

open Json Fields Field Codec

/-- The inputs and the outputs that a mount point, an operation, a listed operation or a definition has numbers
for. -/
def MountPoint.indices (m : MountPoint) : List Nat := m.input.toList ++ m.output.toList

def Op.indices : Op → List Nat
  | source _ => []
  | exec e => e.mounts.flatMap MountPoint.indices
  | copy c => c.destInput.toList ++ c.srcInput.toList
  | merge m => m.inputs

def DefinitionOp.indices (o : DefinitionOp) : List Nat := o.inputs.map (·.index) ++ o.op.indices

def Definition.indices (d : Definition) : List Nat :=
  d.ops.flatMap DefinitionOp.indices ++ (d.root.map (·.index)).toList

/-- Numbers that fit into 64 bits. -/
def AllIndices (ns : List Nat) : Prop := ∀ n ∈ ns, n < Codec.indexBound

instance (ns : List Nat) : Decidable (AllIndices ns) :=
  inferInstanceAs (Decidable (∀ n ∈ ns, n < Codec.indexBound))

theorem allIndices_append {ms ns : List Nat} : AllIndices (ms ++ ns) ↔ AllIndices ms ∧ AllIndices ns :=
  List.forall_mem_append

theorem AllIndices.of_flatMap {α : Type} {f : α → List Nat} {xs : List α} (h : AllIndices (xs.flatMap f)) {x : α}
    (hx : x ∈ xs) : AllIndices (f x) := fun n hn => h n (List.mem_flatMap.2 ⟨x, hx, hn⟩)

theorem AllIndices.readsBack {n : Option Nat} (h : AllIndices n.toList) : ∀ i ∈ n, index.ReadsBack i :=
  fun i hi => readsBack_index (h i (Option.mem_toList.2 hi))

theorem readsBack_source (s : Source) : Source.codec.ReadsBack s := by
  refine readsBack_imap rfl (readsBack_record ?_)
  refine readsBack_field (readsBack_required (readsBack_string _)) ?_ (by decide)
  refine readsBack_field (readsBack_defaulted ?_ (readsBack_stringMap _)) readsBack_done (by decide)
  intro hempty
  exact StringMap.ext (List.isEmpty_iff.1 hempty)

theorem readsBack_process (p : Process) : Process.codec.ReadsBack p := by
  refine readsBack_imap rfl (readsBack_record ?_)
  refine readsBack_field (readsBack_required (readsBack_strings _)) ?_ (by decide)
  refine readsBack_field (readsBack_required (readsBack_strings _)) ?_ (by decide)
  exact readsBack_field (readsBack_required (readsBack_string _)) readsBack_done (by decide)

theorem readsBack_mountPoint {m : MountPoint} (h : AllIndices m.indices) : MountPoint.codec.ReadsBack m := by
  obtain ⟨hinput, houtput⟩ := allIndices_append.1 h
  refine readsBack_imap rfl (readsBack_record ?_)
  refine readsBack_field (readsBack_optional neverNull_index hinput.readsBack) ?_ (by decide)
  refine readsBack_field (readsBack_defaulted Option.isNone_iff_eq_none.1 ?_) ?_ (by decide)
  · exact readsBack_nullable neverNull_string fun s _ => readsBack_string s
  refine readsBack_field (readsBack_required (readsBack_string _)) ?_ (by decide)
  refine readsBack_field (readsBack_optional neverNull_index houtput.readsBack) ?_ (by decide)
  exact readsBack_field (readsBack_required (readsBack_boolean _)) readsBack_done (by decide)

theorem readsBack_exec {e : Exec} (h : AllIndices (e.mounts.flatMap MountPoint.indices)) :
    Exec.codec.ReadsBack e := by
  have hmounts : MountPoint.codec.list.ReadsBack e.mounts :=
    readsBack_list fun m hm => readsBack_mountPoint (h.of_flatMap hm)
  refine readsBack_imap rfl (readsBack_record ?_)
  refine readsBack_field (readsBack_required (readsBack_process _)) ?_ (by decide)
  exact readsBack_field (readsBack_required hmounts) readsBack_done (by decide)

theorem readsBack_copyFlags (f : CopyFlags) : CopyFlags.codec.ReadsBack f := by
  refine readsBack_imap rfl (readsBack_record ?_)
  refine readsBack_field (readsBack_required (readsBack_boolean _)) ?_ (by decide)
  refine readsBack_field (readsBack_required (readsBack_boolean _)) ?_ (by decide)
  exact readsBack_field (readsBack_required (readsBack_boolean _)) readsBack_done (by decide)

theorem readsBack_copy {c : Copy} (h : AllIndices (c.destInput.toList ++ c.srcInput.toList)) :
    Copy.codec.ReadsBack c := by
  obtain ⟨hdest, hsrc⟩ := allIndices_append.1 h
  refine readsBack_imap rfl (readsBack_record ?_)
  refine readsBack_field (readsBack_optional neverNull_index hdest.readsBack) ?_ (by decide)
  refine readsBack_field (readsBack_optional neverNull_index hsrc.readsBack) ?_ (by decide)
  refine readsBack_field (readsBack_required (readsBack_string _)) ?_ (by decide)
  refine readsBack_field (readsBack_required (readsBack_string _)) ?_ (by decide)
  exact readsBack_field (readsBack_required (readsBack_copyFlags _)) readsBack_done (by decide)

theorem readsBack_merge {m : Merge} (h : AllIndices m.inputs) : Merge.codec.ReadsBack m := by
  refine readsBack_imap rfl (readsBack_record ?_)
  have hinputs : index.list.ReadsBack m.inputs := readsBack_list fun n hn => readsBack_index (h n hn)
  exact readsBack_field (readsBack_required hinputs) readsBack_done (by decide)

/-- What is read back for an operation of one kind is read back for an operation, under the name of the kind. -/
theorem readsBack_op {o : Op} (h : AllIndices o.indices) : Op.codec.ReadsBack o := by
  cases o with
  | source s =>
      change ((Source.codec.decode (Source.codec.encode s).tree).map Op.source >>= _) = _
      rw [readsBack_source s]
      rfl
  | exec e =>
      change ((Exec.codec.decode (Exec.codec.encode e).tree).map Op.exec >>= _) = _
      rw [readsBack_exec h]
      rfl
  | copy c =>
      change ((Copy.codec.decode (Copy.codec.encode c).tree).map Op.copy >>= _) = _
      rw [readsBack_copy h]
      rfl
  | merge m =>
      change ((Merge.codec.decode (Merge.codec.encode m).tree).map Op.merge >>= _) = _
      rw [readsBack_merge h]
      rfl

theorem readsBack_digest (d : Digest) : Digest.codec.ReadsBack d :=
  readsBack_imap rfl (readsBack_string _)

theorem readsBack_inputRef {r : InputRef} (h : r.index < Codec.indexBound) : InputRef.codec.ReadsBack r := by
  refine readsBack_imap rfl (readsBack_record ?_)
  refine readsBack_field (readsBack_required (readsBack_digest _)) ?_ (by decide)
  exact readsBack_field (readsBack_required (readsBack_index h)) readsBack_done (by decide)

theorem neverNull_inputRef : InputRef.codec.NeverNull := fun _ => nofun

theorem readsBack_definitionOp {o : DefinitionOp} (h : AllIndices o.indices) : DefinitionOp.codec.ReadsBack o := by
  obtain ⟨hinputs, hop⟩ := allIndices_append.1 h
  have hrefs : InputRef.codec.list.ReadsBack o.inputs :=
    readsBack_list fun r hr => readsBack_inputRef (hinputs r.index (List.mem_map_of_mem hr))
  refine readsBack_imap rfl (readsBack_record ?_)
  refine readsBack_field (readsBack_required (readsBack_digest _)) ?_ (by decide)
  refine readsBack_field (readsBack_required hrefs) ?_ (by decide)
  exact readsBack_field (readsBack_required (readsBack_op hop)) readsBack_done (by decide)

theorem readsBack_platform (p : Platform) : Platform.codec.ReadsBack p := by
  obtain ⟨os, arch⟩ := p
  have hos : Os.codec.ReadsBack os := by cases os <;> rfl
  have harch : Arch.codec.ReadsBack arch := by cases arch <;> rfl
  refine readsBack_imap rfl (readsBack_record ?_)
  refine readsBack_field (readsBack_required hos) ?_ (by decide)
  exact readsBack_field (readsBack_required harch) readsBack_done (by decide)

theorem readsBack_definition {d : Definition} (h : AllIndices d.indices) : Definition.codec.ReadsBack d := by
  obtain ⟨hops, hroot⟩ := allIndices_append.1 h
  have hlist : DefinitionOp.codec.list.ReadsBack d.ops :=
    readsBack_list fun o ho => readsBack_definitionOp (hops.of_flatMap ho)
  have hrefs : ∀ r ∈ d.root, InputRef.codec.ReadsBack r := fun r hr =>
    readsBack_inputRef (hroot r.index (Option.mem_toList.2 (Option.mem_map_of_mem _ hr)))
  refine readsBack_imap rfl (readsBack_record ?_)
  refine readsBack_field (readsBack_required (readsBack_word32 _)) ?_ (by decide)
  refine readsBack_field (readsBack_required hlist) ?_ (by decide)
  refine readsBack_field (readsBack_optional neverNull_inputRef hrefs) ?_ (by decide)
  exact readsBack_field (readsBack_required (readsBack_platform _)) readsBack_done (by decide)

namespace Definition

/-- A definition whose numbers are indices is read back from its file, in either layout. -/
theorem ofBytes_toBytes (d : Definition) (h : AllIndices d.indices) :
    ofBytes d.toBytes = .ok d ∧ ofBytes d.toPrettyBytes = .ok d := by
  obtain ⟨hcompact, -, hpretty⟩ := (readsBack_definition h).run
  exact ⟨hcompact, hpretty⟩

/-- Texts with quotes, backslashes, control characters and a character beyond the basic plane, the largest index,
a selector beside mounts without one, and a root that is listed nowhere. -/
def unusual : Definition :=
  ⟨4294967295,
    [⟨⟨"\"\\\x00\n\x1f"⟩, [⟨⟨""⟩, 18446744073709551615⟩],
        .exec ⟨⟨["a\tb", "😀"], ["=\x7f"], "é"⟩,
          [⟨none, some "\x08\x0c", "", some 18446744073709551615, true⟩, ⟨some 0, none, "/\r", none, false⟩]⟩⟩,
      ⟨⟨"x"⟩, [], .source ⟨"\x5c\x5c", .ofList [("b", "\""), ("a", "")]⟩⟩,
      ⟨⟨"x"⟩, [], .source ⟨"", .empty⟩⟩,
      ⟨⟨"y"⟩, [], .copy ⟨none, some 7, "", "\x5c", .extract⟩⟩, ⟨⟨"z"⟩, [], .merge ⟨[]⟩⟩],
    some ⟨⟨"absent"⟩, 18446744073709551615⟩, ⟨.windows, .arm64⟩⟩

theorem ofBytes_toBytes_unusual :
    AllIndices unusual.indices ∧ ofBytes unusual.toBytes = .ok unusual ∧ ofBytes unusual.toPrettyBytes = .ok unusual := by
  have hindices : AllIndices unusual.indices := by decide
  exact ⟨hindices, ofBytes_toBytes unusual hindices⟩

end Definition

end BuildGraph
