import BuildGraph.Json.Codec
import Mathlib.Data.List.Basic

/-!
# Codecs that tell values apart

A codec is `Faithful` if it writes different values differently. Whether a text is ever read again does not
matter here: what is hashed is only written.

The codecs are built from few parts, and each part passes the property on. The two places where it could be lost
are a value that may be null, whose codec must not write null by itself (`NeverNull`), and a field that is not
written where it has its default: without it the next member must not be taken for it, which is why the names of
a record's fields have to differ (`Fields.Faithful`).
-/

namespace BuildGraph.Json

variable {α β : Type}

namespace Codec

/-- Different values are written differently. -/
def Faithful (c : Codec α) : Prop := Function.Injective c.encode

def NeverNull (c : Codec α) : Prop := ∀ a, c.encode a ≠ .null

theorem faithful_string : string.Faithful := fun _ _ h => Value.string.inj h

theorem faithful_boolean : boolean.Faithful := fun _ _ h => Value.boolean.inj h

theorem faithful_index : index.Faithful := fun _ _ h => Value.natural.inj h

theorem neverNull_string : string.NeverNull := fun _ h => Value.noConfusion h

theorem neverNull_index : index.NeverNull := fun _ h => Value.noConfusion h

theorem faithful_nullable {c : Codec α} (hc : c.Faithful) (hn : c.NeverNull) :
    c.nullable.Faithful := by
  intro a b h
  cases a with
  | none =>
      cases b with
      | none => rfl
      | some b => exact absurd h.symm (hn b)
  | some a =>
      cases b with
      | none => exact absurd h (hn a)
      | some b => exact congrArg some (hc h)

theorem faithful_list {c : Codec α} (hc : c.Faithful) : c.list.Faithful := fun _ _ h =>
  List.map_injective_iff.2 hc (Value.array.inj h)

theorem faithful_stringMap : stringMap.Faithful := by
  intro m n h
  have hentry : Function.Injective fun e : String × String => (e.1, Value.string e.2) := by
    intro a b hab
    obtain ⟨hkey, hvalue⟩ := Prod.mk.inj hab
    exact Prod.ext hkey (Value.string.inj hvalue)
  exact StringMap.ext (List.map_injective_iff.2 hentry (Value.object.inj h))

theorem faithful_imap {c : Codec α} (hc : c.Faithful) {f : α → β} {g : β → α}
    (hg : Function.Injective g) : (c.imap f g).Faithful := hc.comp hg

end Codec

namespace Field

/-- Different values of the field are written differently, if only by leaving one of them out. -/
def Faithful (f : Field α) : Prop := Function.Injective f.encode

theorem faithful_required {name : String} {c : Codec α} (hc : c.Faithful) :
    (required name c).Faithful := fun _ _ h => hc (Option.some.inj h)

theorem faithful_optional {name : String} {c : Codec α} (hc : c.Faithful) (hn : c.NeverNull) :
    (optional name c).Faithful := fun _ _ h =>
  Codec.faithful_nullable hc hn (Option.some.inj h)

/-- Only the default may be left out. -/
theorem faithful_defaulted {name : String} {c : Codec α} (hc : c.Faithful) {default : α}
    {hidden : α → Bool} (hd : ∀ a, hidden a → a = default) :
    (defaulted name c default hidden).Faithful := by
  intro a b h
  simp only [defaulted] at h
  split_ifs at h with ha hb hb
  · rw [hd a ha, hd b hb]
  · exact hc (Option.some.inj h)

end Field

namespace Fields

def names {τ δ : Type} : Fields τ δ → List String
  | done => []
  | field f rest => f.name :: rest.names

/-- The fields are faithful and their names differ. -/
def Faithful {τ δ : Type} : Fields τ δ → Prop
  | done => True
  | field f rest => f.Faithful ∧ f.name ∉ rest.names ∧ rest.Faithful

theorem faithful_done : done.Faithful := trivial

theorem faithful_field {δ : Type} {f : Field α} {rest : Fields β δ} (hf : f.Faithful)
    (hrest : rest.Faithful) (hname : f.name ∉ rest.names) : (field f rest).Faithful :=
  ⟨hf, hname, hrest⟩

theorem mem_names_of_mem_encode {τ δ : Type} {fs : Fields τ δ} {a : τ} {m : String × Value}
    (h : m ∈ fs.encode a) : m.1 ∈ fs.names := by
  induction fs with
  | done => cases h
  | field f rest ih =>
      obtain ⟨a, b⟩ := a
      simp only [encode] at h
      split at h
      · rcases List.mem_cons.1 h with rfl | h
        · exact List.mem_cons_self
        · exact List.mem_cons_of_mem _ (ih h)
      · exact List.mem_cons_of_mem _ (ih h)

/-- By induction on the fields: if one record has the first field and the other has not, the other
begins with a later field, which has another name. -/
theorem encode_injective {τ δ : Type} {fs : Fields τ δ} (hfs : fs.Faithful) :
    Function.Injective fs.encode := by
  induction fs with
  | done => intro a b _; rfl
  | field f rest ih =>
      obtain ⟨hf, hname, hrest⟩ := hfs
      have habsent : ∀ v b ms, (f.name, v) :: ms ≠ rest.encode b := by
        intro v b ms h
        exact hname (mem_names_of_mem_encode (m := (f.name, v)) (h ▸ List.mem_cons_self))
      rintro ⟨a, b⟩ ⟨a', b'⟩ h
      simp only [encode] at h
      cases ha : f.encode a with
      | none =>
          cases ha' : f.encode a' with
          | none =>
              simp only [ha, ha'] at h
              rw [hf (ha.trans ha'.symm), ih hrest h]
          | some v' =>
              simp only [ha, ha'] at h
              exact absurd h.symm (habsent v' b _)
      | some v =>
          cases ha' : f.encode a' with
          | none =>
              simp only [ha, ha'] at h
              exact absurd h (habsent v b' _)
          | some v' =>
              simp only [ha, ha', List.cons.injEq, Prod.mk.injEq, true_and] at h
              obtain ⟨rfl, hbb⟩ := h
              rw [hf (ha.trans ha'.symm), ih hrest hbb]

theorem faithful_record {τ δ : Type} {name : String} {fs : Fields τ δ} (hfs : fs.Faithful) :
    (record name fs).Faithful := fun _ _ h => encode_injective hfs (Value.object.inj h)

end Fields

end BuildGraph.Json
