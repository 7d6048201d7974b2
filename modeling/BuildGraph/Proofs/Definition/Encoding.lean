import BuildGraph.Definition.Basic
import BuildGraph.Proofs.Json.Faithful
import BuildGraph.Proofs.Json.Unambiguous

/-!
# The encoding behind a digest

What a digest is taken of determines the operation and its inputs: every codec below that of an operation is
faithful, and a compact text is that of one value. So two operations with their inputs have the same digest only
if they are the same or SHA-256 collides on their encodings.

No hash function is free of collisions on all texts. `CollisionFree` says it of the texts of a list, which is all
that is ever assumed: the list is that of the encodings that a run has to do with.
-/

namespace BuildGraph

open Json Fields Field Codec

theorem faithful_source : Source.codec.Faithful := by
  refine faithful_imap (faithful_record ?_) ?_
  · refine faithful_field (faithful_required faithful_string) ?_ (by decide)
    refine faithful_field (faithful_defaulted faithful_stringMap ?_) faithful_done (by decide)
    intro m hm
    exact StringMap.ext (List.isEmpty_iff.1 hm)
  · rintro ⟨⟩ ⟨⟩ h
    simpa using h

theorem faithful_process : Process.codec.Faithful := by
  have hstrings : string.list.Faithful := faithful_list faithful_string
  refine faithful_imap (faithful_record ?_) ?_
  · refine faithful_field (faithful_required hstrings) ?_ (by decide)
    refine faithful_field (faithful_required hstrings) ?_ (by decide)
    exact faithful_field (faithful_required faithful_string) faithful_done (by decide)
  · rintro ⟨⟩ ⟨⟩ h
    simpa using h

theorem faithful_mountPoint : MountPoint.codec.Faithful := by
  refine faithful_imap (faithful_record ?_) ?_
  · refine faithful_field (faithful_optional faithful_index neverNull_index) ?_ (by decide)
    refine faithful_field (faithful_defaulted (faithful_nullable faithful_string neverNull_string) ?_)
      ?_ (by decide)
    · intro selector hselector
      exact Option.isNone_iff_eq_none.1 hselector
    refine faithful_field (faithful_required faithful_string) ?_ (by decide)
    refine faithful_field (faithful_optional faithful_index neverNull_index) ?_ (by decide)
    exact faithful_field (faithful_required faithful_boolean) faithful_done (by decide)
  · rintro ⟨⟩ ⟨⟩ h
    simpa using h

theorem faithful_exec : Exec.codec.Faithful := by
  refine faithful_imap (faithful_record ?_) ?_
  · refine faithful_field (faithful_required faithful_process) ?_ (by decide)
    exact faithful_field (faithful_required (faithful_list faithful_mountPoint)) faithful_done
      (by decide)
  · rintro ⟨⟩ ⟨⟩ h
    simpa using h

theorem faithful_copyFlags : CopyFlags.codec.Faithful := by
  refine faithful_imap (faithful_record ?_) ?_
  · refine faithful_field (faithful_required faithful_boolean) ?_ (by decide)
    refine faithful_field (faithful_required faithful_boolean) ?_ (by decide)
    exact faithful_field (faithful_required faithful_boolean) faithful_done (by decide)
  · rintro ⟨⟩ ⟨⟩ h
    simpa using h

theorem faithful_copy : Copy.codec.Faithful := by
  refine faithful_imap (faithful_record ?_) ?_
  · refine faithful_field (faithful_optional faithful_index neverNull_index) ?_ (by decide)
    refine faithful_field (faithful_optional faithful_index neverNull_index) ?_ (by decide)
    refine faithful_field (faithful_required faithful_string) ?_ (by decide)
    refine faithful_field (faithful_required faithful_string) ?_ (by decide)
    exact faithful_field (faithful_required faithful_copyFlags) faithful_done (by decide)
  · rintro ⟨⟩ ⟨⟩ h
    simpa using h

theorem faithful_merge : Merge.codec.Faithful := by
  refine faithful_imap (faithful_record ?_) ?_
  · exact faithful_field (faithful_required (faithful_list faithful_index)) faithful_done (by decide)
  · rintro ⟨⟩ ⟨⟩ h
    simpa using h

theorem faithful_op : Op.codec.Faithful := by
  intro a b h
  cases a <;> cases b <;>
    simp only [Op.codec, Value.object.injEq, List.cons.injEq, Prod.mk.injEq, String.reduceEq, false_and,
      true_and, and_true] at h
  · exact congrArg Op.source (faithful_source h)
  · exact congrArg Op.exec (faithful_exec h)
  · exact congrArg Op.copy (faithful_copy h)
  · exact congrArg Op.merge (faithful_merge h)

theorem faithful_inputRef : InputRef.codec.Faithful := by
  have hdigest : Digest.codec.Faithful := faithful_imap faithful_string fun a b h => by
    cases a; cases b; simpa using h
  refine faithful_imap (faithful_record ?_) ?_
  · refine faithful_field (faithful_required hdigest) ?_ (by decide)
    exact faithful_field (faithful_required faithful_index) faithful_done (by decide)
  · rintro ⟨⟩ ⟨⟩ h
    simpa using h

/-- The canonical encoding of an operation and its inputs, whatever stands behind it, is that of no other. -/
theorem bodyBytes_append_inj {inputs inputs' : List InputRef} {op op' : Op} {rest rest' : List UInt8}
    (h : bodyBytes inputs op ++ rest = bodyBytes inputs' op' ++ rest') :
    (inputs = inputs' ∧ op = op') ∧ rest = rest' := by
  obtain ⟨hvalue, hrest⟩ := write_object_inj (fun m _ => determined m.2) h
  simp only [List.cons.injEq, Prod.mk.injEq, true_and, and_true] at hvalue
  exact ⟨⟨faithful_list faithful_inputRef hvalue.1, faithful_op hvalue.2⟩, hrest⟩

theorem bodyBytes_inj {inputs inputs' : List InputRef} {op op' : Op}
    (h : bodyBytes inputs op = bodyBytes inputs' op') : inputs = inputs' ∧ op = op' :=
  (bodyBytes_append_inj (congrArg (· ++ []) h)).1

/-- The texts that digests are taken of are equal just if the inputs and the operations are, whatever kinds these are of
and whatever they leave out. And no such text is the beginning of another one: also with something behind them two texts
are equal only if they are the same text with the same behind it. -/
theorem encodings_eq_iff (inputs inputs' : List InputRef) (op op' : Op) :
    (bodyBytes inputs op = bodyBytes inputs' op' ↔ inputs = inputs' ∧ op = op') ∧
      ∀ rest rest' : List UInt8,
        bodyBytes inputs op ++ rest = bodyBytes inputs' op' ++ rest' ↔
          (inputs = inputs' ∧ op = op') ∧ rest = rest' := by
  refine ⟨⟨bodyBytes_inj, ?_⟩, fun rest rest' => ⟨bodyBytes_append_inj, ?_⟩⟩
  · rintro ⟨rfl, rfl⟩
    rfl
  · rintro ⟨⟨rfl, rfl⟩, rfl⟩
    rfl

theorem digitChar_inj : ∀ m < 16, ∀ n < 16, Nat.digitChar m = Nat.digitChar n → m = n := by
  decide

theorem hexByte_inj {a b : UInt8} (h : BuildGraph.hexByte a = BuildGraph.hexByte b) : a = b := by
  obtain ⟨hhigh, hlow⟩ : Nat.digitChar (a.toNat / 16) = Nat.digitChar (b.toNat / 16) ∧
      Nat.digitChar (a.toNat % 16) = Nat.digitChar (b.toNat % 16) := by
    simpa [BuildGraph.hexByte] using h
  have ha := a.toNat_lt
  have hb := b.toNat_lt
  have hdiv := digitChar_inj _ (by omega) _ (by omega) hhigh
  have hmod := digitChar_inj _ (by omega) _ (by omega) hlow
  exact UInt8.toNat_inj.1 (by omega)

theorem hexText_injective : Function.Injective hexText := by
  intro xs ys h
  induction xs generalizing ys with
  | nil =>
      cases ys with
      | nil => rfl
      | cons y ys => simp [hexText, BuildGraph.hexByte] at h
  | cons x xs ih =>
      cases ys with
      | nil => simp [hexText, BuildGraph.hexByte] at h
      | cons y ys =>
          obtain ⟨hbyte, hrest⟩ := List.append_inj h rfl
          rw [hexByte_inj hbyte, ih hrest]

theorem hash_eq_of_ofBytes_eq {x y : List UInt8} (h : Digest.ofBytes x = Digest.ofBytes y) :
    Sha256.hash x = Sha256.hash y := by
  have htext := congrArg (fun d => d.text.toList) h
  simp only [Digest.ofBytes, contentHash, String.toList_append, String.toList_ofList,
    List.append_cancel_left_eq] at htext
  exact hexText_injective htext

/-- SHA-256 does not collide on the texts of a list. -/
def CollisionFree (texts : List (List UInt8)) : Prop :=
  ∀ x ∈ texts, ∀ y ∈ texts, Sha256.hash x = Sha256.hash y → x = y

instance (texts : List (List UInt8)) : Decidable (CollisionFree texts) :=
  inferInstanceAs (Decidable (∀ x ∈ texts, ∀ y ∈ texts, Sha256.hash x = Sha256.hash y → x = y))

namespace DefinitionOp

/-- What the digest of an operation is taken of. -/
def encoding (o : DefinitionOp) : List UInt8 := bodyBytes o.inputs o.op

end DefinitionOp

/-- The encodings that the digests of a definition are taken of. -/
def Definition.encodings (d : Definition) : List (List UInt8) := d.ops.map DefinitionOp.encoding

/-- Where SHA-256 does not collide, a digest fixes the inputs and the operation. -/
theorem body_eq_of_computeDigest_eq {texts : List (List UInt8)} (hc : CollisionFree texts)
    {a b : DefinitionOp} (ha : a.encoding ∈ texts) (hb : b.encoding ∈ texts)
    (h : a.computeDigest = b.computeDigest) : a.inputs = b.inputs ∧ a.op = b.op :=
  bodyBytes_inj (hc _ ha _ hb (hash_eq_of_ofBytes_eq h))

end BuildGraph
