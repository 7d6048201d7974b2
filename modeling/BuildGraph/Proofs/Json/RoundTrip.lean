import BuildGraph.Proofs.Check
import BuildGraph.Proofs.Json.Faithful
import BuildGraph.Proofs.Json.Trees
import BuildGraph.Proofs.StringMap

/-!
# Codecs that read back what they write

A codec reads a value back if the tree of what it writes is decoded as the value again (`Codec.ReadsBack`). It is a
property of the codec at one value, since not every natural is an index. A list is read back if its items are, a
record if its fields are.

While an object is read, a record is known in part. Each member fills the slot of its own field and leaves the
others alone, because the names of the fields differ, so when the object ends every field that was written is known
(`Fields.foldlM_member_encode`). A field that was not written has the value that stands for its absence.
-/

namespace BuildGraph.Json

variable {α β : Type}

namespace Codec

/-- What is written for a value is read as the value. -/
def ReadsBack (c : Codec α) (a : α) : Prop := c.decode (c.encode a).tree = .ok a

theorem readsBack_string (s : String) : string.ReadsBack s := rfl

theorem readsBack_boolean (b : Bool) : boolean.ReadsBack b := rfl

theorem decode_natural {n : Nat} (bound : Nat) (expected : String) (hn : n < bound) (hword : n ≤ maxWord) :
    Decoder.natural bound expected (Value.natural n).tree = .ok n := by
  rw [Value.tree, value_ofNat hword, Decoder.natural, if_pos hn]

theorem readsBack_index {n : Nat} (hn : n < indexBound) : index.ReadsBack n :=
  decode_natural indexBound "usize" hn (Nat.le_sub_one_of_lt hn)

theorem readsBack_word32 (n : UInt32) : word32.ReadsBack n := by
  have hword : n.toNat ≤ maxWord := Nat.le_trans (Nat.le_of_lt n.toNat_lt) (by decide)
  have hdecode := decode_natural UInt32.size "u32" n.toNat_lt hword
  simp only [ReadsBack, word32, hdecode, Except.map, UInt32.ofNat_toNat]

/-- Only null is read as null. -/
theorem tree_ne_null {v : Value} (h : v ≠ .null) : v.tree ≠ .null := by
  cases v with
  | null => exact absurd rfl h
  | _ => exact nofun

theorem readsBack_nullable {c : Codec α} (hn : c.NeverNull) {a : Option α} (ha : ∀ x ∈ a, c.ReadsBack x) :
    c.nullable.ReadsBack a := by
  cases a with
  | none => rfl
  | some x =>
      have hnull := tree_ne_null (hn x)
      have hx : c.decode (c.encode x).tree = .ok x := ha x rfl
      change Decoder.nullable c.decode (c.encode x).tree = .ok (some x)
      unfold Decoder.nullable
      split
      · exact absurd ‹_› hnull
      · rw [hx]
        rfl

theorem readsBack_list {c : Codec α} {xs : List α} (h : ∀ x ∈ xs, c.ReadsBack x) : c.list.ReadsBack xs := by
  have hitems : (treesOfItems (xs.map c.encode)).mapM c.decode = .ok xs := by
    rw [treesOfItems_eq_map, List.map_map, mapM_eq_ok_iff, List.forall₂_map_left_iff, List.forall₂_same]
    exact h
  change Decoder.list c.decode (.array (treesOfItems (xs.map c.encode)) .closed) = .ok xs
  rw [Decoder.list, hitems]
  rfl

theorem readsBack_strings (xs : List String) : string.list.ReadsBack xs :=
  readsBack_list fun x _ => readsBack_string x

theorem readsBack_stringMap (m : StringMap) : stringMap.ReadsBack m := by
  have hmembers : Decoder.members Decoder.string (stringMap.encode m).tree = .ok m.entries := by
    change Decoder.members Decoder.string
      (.object (treesOfMembers (m.entries.map fun e => (e.1, .string e.2))) .closed) = .ok m.entries
    have hentries : ((treesOfMembers (m.entries.map fun e => (e.1, .string e.2))).mapM fun x => do
        let k ← Decoder.key x.1
        let v ← Decoder.string x.2
        return (k, v)) = (.ok m.entries : Except Error _) := by
      rw [treesOfMembers_eq_map, List.map_map, mapM_eq_ok_iff, List.forall₂_map_left_iff, List.forall₂_same]
      exact fun _ _ => rfl
    rw [Decoder.members, hentries]
    rfl
  change (Decoder.members Decoder.string (stringMap.encode m).tree).map StringMap.ofList = .ok m
  rw [hmembers, Except.map, StringMap.ofList_entries]

theorem readsBack_imap {c : Codec α} {f : α → β} {g : β → α} {b : β} (hfg : f (g b) = b)
    (h : c.ReadsBack (g b)) : (c.imap f g).ReadsBack b := by
  change (c.decode (c.encode (g b)).tree).map f = .ok b
  rw [h, Except.map, hfg]

end Codec

/-- A value of the field is read back, or stands for the absence of the field if it is not written. -/
structure Field.ReadsBack (f : Field α) (a : α) : Prop where
  written : ∀ v, f.encode a = some v → f.decode v.tree = .ok a
  absent : f.encode a = none → f.absent = some a

namespace Field

theorem readsBack_required {name : String} {c : Codec α} {a : α} (h : c.ReadsBack a) :
    (required name c).ReadsBack a where
  written := fun _ hv => Option.some.inj hv ▸ h
  absent := nofun

theorem readsBack_optional {name : String} {c : Codec α} (hn : c.NeverNull) {a : Option α}
    (h : ∀ x ∈ a, c.ReadsBack x) : (optional name c).ReadsBack a where
  written := fun _ hv => Option.some.inj hv ▸ Codec.readsBack_nullable hn h
  absent := nofun

theorem readsBack_defaulted {name : String} {c : Codec α} {default : α} {hidden : α → Bool} {a : α}
    (hd : hidden a → a = default) (h : c.ReadsBack a) : (defaulted name c default hidden).ReadsBack a := by
  constructor
  · intro v hv
    simp only [defaulted] at hv
    split_ifs at hv
    exact Option.some.inj hv ▸ h
  · intro hnone
    simp only [defaulted] at hnone ⊢
    split_ifs at hnone with ha
    rw [hd ha]

end Field

namespace Fields

variable {τ δ : Type}

/-- The values of the fields are read back, and the names of the fields differ. -/
def ReadsBack {τ δ : Type} : Fields τ δ → τ → Prop
  | done, _ => True
  | field f rest, (a, b) => f.ReadsBack a ∧ f.name ∉ rest.names ∧ rest.ReadsBack b

/-- What is known of a record once the fields that are written have been read. -/
def known {τ δ : Type} : Fields τ δ → τ → δ
  | done, _ => ()
  | field f rest, (a, b) => (if (f.encode a).isSome then some a else none, rest.known b)

theorem readsBack_done : done.ReadsBack () := trivial

theorem readsBack_field {f : Field α} {rest : Fields β δ} {a : α} {b : β} (hf : f.ReadsBack a)
    (hrest : rest.ReadsBack b) (hname : f.name ∉ rest.names) : (field f rest).ReadsBack (a, b) :=
  ⟨hf, hname, hrest⟩

/-- A member with another name than that of the first field is for the other fields. -/
theorem member_of_ne {f : Field α} {rest : Fields β δ} {k : String} (hk : f.name ≠ k) (t : Tree)
    (slot : Option α) (d : δ) :
    (field f rest).member (slot, d) (.string (.ok k) none, t) =
      (rest.member d (.string (.ok k) none, t)).map (slot, ·) := by
  simp only [member, Decoder.key, orFault, bind, Except.bind, put?, if_neg hk]
  cases rest.put? k t d with
  | some r => rfl
  | none =>
      simp only [Option.map_none]
      cases t.skip? <;> rfl

theorem foldlM_member_of_ne {f : Field α} {rest : Fields β δ} {ms : List (String × Value)}
    (hms : ∀ m ∈ ms, f.name ≠ m.1) (slot : Option α) (d : δ) :
    (treesOfMembers ms).foldlM (field f rest).member (slot, d) =
      ((treesOfMembers ms).foldlM rest.member d).map (slot, ·) := by
  induction ms generalizing d with
  | nil => rfl
  | cons m ms ih =>
      obtain ⟨hm, hms⟩ := List.forall_mem_cons.1 hms
      rw [treesOfMembers, List.foldlM_cons, List.foldlM_cons, member_of_ne hm]
      cases rest.member d (.string (.ok m.1) none, m.2.tree) with
      | error e => rfl
      | ok d => exact ih hms d

/-- The members that are written for a record fill the slots of their fields. -/
theorem foldlM_member_encode {fs : Fields τ δ} {a : τ} (h : fs.ReadsBack a) :
    (treesOfMembers (fs.encode a)).foldlM fs.member fs.blank = .ok (fs.known a) := by
  induction fs with
  | done => rfl
  | field f rest ih =>
      obtain ⟨a, b⟩ := a
      obtain ⟨hf, hname, hrest⟩ := h
      have hne : ∀ m ∈ rest.encode b, f.name ≠ m.1 := fun m hm heq =>
        hname (heq ▸ mem_names_of_mem_encode hm)
      rw [blank, known]
      cases ha : f.encode a with
      | none =>
          simp only [encode, ha]
          rw [foldlM_member_of_ne hne, ih hrest]
          rfl
      | some v =>
          have hfirst : (field f rest).member (none, rest.blank) (.string (.ok f.name) none, v.tree) =
              .ok (some a, rest.blank) := by
            simp only [member, Decoder.key, orFault, bind, Except.bind, put?, if_true, hf.written v ha]
            rfl
          simp only [encode, ha]
          rw [treesOfMembers, List.foldlM_cons, hfirst]
          change (treesOfMembers (rest.encode b)).foldlM (field f rest).member (some a, rest.blank) = _
          rw [foldlM_member_of_ne hne, ih hrest]
          rfl

/-- A record is finished from the fields that were written and the values of those that were not. -/
theorem finish_known {fs : Fields τ δ} {a : τ} (h : fs.ReadsBack a) : fs.finish (fs.known a) = .ok a := by
  induction fs with
  | done => rfl
  | field f rest ih =>
      obtain ⟨a, b⟩ := a
      obtain ⟨hf, -, hrest⟩ := h
      have hslot : (if (f.encode a).isSome then some a else none).or f.absent = some a := by
        cases ha : f.encode a with
        | none => exact hf.absent ha
        | some v => rfl
      simp only [known, finish, hslot, ih hrest, Except.map]

theorem readsBack_record {name : String} {fs : Fields τ δ} {a : τ} (h : fs.ReadsBack a) :
    (record name fs).ReadsBack a := by
  change fs.ofObject (treesOfMembers (fs.encode a)) .closed = .ok a
  rw [ofObject, foldlM_member_encode h]
  exact finish_known h

end Fields

/-- What is read back from the tree of a value is read back from its text, written with or without blanks. -/
theorem Codec.ReadsBack.run {c : Codec α} {a : α} (h : c.ReadsBack a) :
    c.decode.run (c.encode a).compact = .ok a ∧ c.decode.run (c.encode a).indented = .ok a ∧
      c.decode.run ((c.encode a).indented ++ [0x0a]) = .ok a := by
  have hnil : ∀ b ∈ ([] : List UInt8), isSpacing b = true := fun _ hb => absurd hb List.not_mem_nil
  have hcompact := run_write c.decode blank_compact (c.encode a) [] hnil
  have hindented := run_write c.decode blank_indented (c.encode a) [] hnil
  have hnewline := run_write c.decode blank_indented (c.encode a) [0x0a] (List.forall_mem_singleton.2 rfl)
  rw [List.append_nil] at hcompact hindented
  exact ⟨hcompact.trans h, hindented.trans h, hnewline.trans h⟩

end BuildGraph.Json
