import BuildGraph.Proofs.Json.ReadBack

/-!
# Compact text is unambiguous

Without blanks a value has one text, and no text is that of two values. The statement carries what stands behind
the value: two values followed by something are equal, and so is what follows them, if the texts are equal. It
is an induction over the values, in which the first byte of a text tells what kind of value it is
(`Value.kind`). Behind a natural there must be no digit, which is so wherever a value stands inside another one
and at the end of a text.
-/

namespace BuildGraph.Json

/-- The kinds of values that the first byte of a text tells apart. -/
inductive Kind
  | null
  | boolean (b : Bool)
  | natural
  | string
  | array
  | object
deriving DecidableEq

def Value.kind : Value → Kind
  | .null => .null
  | .boolean b => .boolean b
  | .natural _ => .natural
  | .string _ => .string
  | .array _ => .array
  | .object _ => .object

/-- The kind of the value that begins with a byte. -/
def Kind.ofByte? (b : UInt8) : Option Kind :=
  if isDigit b then some .natural
  else if b = 'n'.toUInt8 then some .null
  else if b = 't'.toUInt8 then some (.boolean true)
  else if b = 'f'.toUInt8 then some (.boolean false)
  else if b = '"'.toUInt8 then some .string
  else if b = '['.toUInt8 then some .array
  else if b = '\x7b'.toUInt8 then some .object
  else none

/-- The first byte of a value tells its kind. -/
theorem exists_head_write (sp : Spacing) (depth : Nat) (v : Value) :
    ∃ b bs, v.write sp depth = b :: bs ∧ Kind.ofByte? b = some v.kind := by
  cases v with
  | null => exact ⟨_, _, rfl, rfl⟩
  | boolean b => cases b <;> exact ⟨_, _, rfl, rfl⟩
  | natural n =>
      cases h : writeNatural n with
      | nil => exact absurd (List.map_eq_nil_iff.1 h) Nat.toDigits_ne_nil
      | cons b bs =>
          have hb : isDigit b = true := isDigit_of_mem_writeNatural (n := n) (by simp [h])
          exact ⟨b, bs, by rw [Value.write, h], by simp [Kind.ofByte?, hb, Value.kind]⟩
  | string s => exact ⟨_, _, rfl, rfl⟩
  | array items => cases items <;> exact ⟨_, _, rfl, rfl⟩
  | object members =>
      cases members with
      | nil => exact ⟨_, _, rfl, rfl⟩
      | cons m ms => exact ⟨_, _, rfl, rfl⟩

theorem kind_eq_of_write_append {sp : Spacing} {d e : Nat} {v w : Value} {r r' : List UInt8}
    (h : v.write sp d ++ r = w.write sp e ++ r') : v.kind = w.kind := by
  obtain ⟨b, bs, hv, hb⟩ := exists_head_write sp d v
  obtain ⟨c, cs, hw, hc⟩ := exists_head_write sp e w
  rw [hv, hw, List.cons_append, List.cons_append] at h
  rw [List.head_eq_of_cons_eq h, hc] at hb
  exact (Option.some.inj hb).symm

/-- A value does not begin like the end of an array. -/
theorem write_append_ne_closing (sp : Spacing) (d : Nat) (v : Value) (r r' : List UInt8) :
    v.write sp d ++ r ≠ ']'.toUInt8 :: r' := by
  intro h
  obtain ⟨b, bs, hv, hb⟩ := exists_head_write sp d v
  rw [hv, List.cons_append] at h
  rw [List.head_eq_of_cons_eq h] at hb
  rw [show Kind.ofByte? ']'.toUInt8 = none by decide] at hb
  cases hb

/-- The text of some items that are left of an array. -/
def itemsText (d : Nat) (x : Value) (xs : List Value) (r : List UInt8) : List UInt8 :=
  x.write .compact (d + 1) ++ (writeItems .compact d xs ++ r)

/-- The text of some members that are left of an object. -/
def membersText (d : Nat) (k : String) (x : Value) (ms : List (String × Value)) (r : List UInt8) :
    List UInt8 :=
  writeString k ++ ':'.toUInt8 :: (x.write .compact (d + 1) ++ (writeMembers .compact d ms ++ r))

theorem write_array_cons (d : Nat) (x : Value) (xs : List Value) (r : List UInt8) :
    (Value.array (x :: xs)).write .compact d ++ r = '['.toUInt8 :: itemsText d x xs r := by
  simp [Value.write, itemsText, Spacing.compact]

theorem writeItems_cons (d : Nat) (x : Value) (xs : List Value) (r : List UInt8) :
    writeItems .compact d (x :: xs) ++ r = ','.toUInt8 :: itemsText d x xs r := by
  simp [writeItems, itemsText, Spacing.compact]

theorem write_object_cons (d : Nat) (k : String) (x : Value) (ms : List (String × Value))
    (r : List UInt8) :
    (Value.object ((k, x) :: ms)).write .compact d ++ r =
      '\x7b'.toUInt8 :: membersText d k x ms r := by
  simp [Value.write, membersText, Spacing.compact]

theorem writeMembers_cons (d : Nat) (k : String) (x : Value) (ms : List (String × Value))
    (r : List UInt8) :
    writeMembers .compact d ((k, x) :: ms) ++ r = ','.toUInt8 :: membersText d k x ms r := by
  simp [writeMembers, membersText, Spacing.compact]

theorem noDigit_writeItems (d : Nat) (xs : List Value) (r : List UInt8) :
    NoDigit (writeItems .compact d xs ++ r) := by
  cases xs <;> exact noDigit_cons rfl _

theorem noDigit_writeMembers (d : Nat) (ms : List (String × Value)) (r : List UInt8) :
    NoDigit (writeMembers .compact d ms ++ r) := by
  cases ms <;> exact noDigit_cons rfl _

/-- The text of a value, in front of anything but a digit, is that of no other value, and what stands
behind it is determined as well. -/
def Value.Determined (v : Value) : Prop :=
  ∀ (w : Value) (d e : Nat) (r r' : List UInt8), NoDigit r → NoDigit r' →
    v.write .compact d ++ r = w.write .compact e ++ r' → v = w ∧ r = r'

theorem itemsText_inj {x : Value} (hx : x.Determined) {y : Value} {xs ys : List Value} {d e : Nat}
    {r r' : List UInt8} (h : itemsText d x xs r = itemsText e y ys r') :
    x = y ∧ writeItems .compact d xs ++ r = writeItems .compact e ys ++ r' :=
  hx y (d + 1) (e + 1) _ _ (noDigit_writeItems d xs r) (noDigit_writeItems e ys r') h

theorem membersText_inj {x : Value} (hx : x.Determined) {k l : String} {y : Value}
    {ms ns : List (String × Value)} {d e : Nat} {r r' : List UInt8}
    (h : membersText d k x ms r = membersText e l y ns r') :
    (k, x) = (l, y) ∧ writeMembers .compact d ms ++ r = writeMembers .compact e ns ++ r' := by
  obtain ⟨rfl, hcolon⟩ := writeString_append_inj h
  obtain ⟨rfl, hrest⟩ := hx y (d + 1) (e + 1) _ _ (noDigit_writeMembers d ms r)
    (noDigit_writeMembers e ns r') (List.tail_eq_of_cons_eq hcolon)
  exact ⟨rfl, hrest⟩

theorem writeItems_append_inj {xs : List Value} (hxs : ∀ x ∈ xs, x.Determined) {ys : List Value}
    {d e : Nat} {r r' : List UInt8}
    (h : writeItems .compact d xs ++ r = writeItems .compact e ys ++ r') : xs = ys ∧ r = r' := by
  induction xs generalizing ys with
  | nil =>
      cases ys with
      | nil => exact ⟨rfl, List.append_cancel_left h⟩
      | cons y ys => exact absurd (List.head_eq_of_cons_eq h) (by decide)
  | cons x xs ih =>
      cases ys with
      | nil => exact absurd (List.head_eq_of_cons_eq h) (by decide)
      | cons y ys =>
          rw [writeItems_cons, writeItems_cons] at h
          obtain ⟨hx, htail⟩ := List.forall_mem_cons.1 hxs
          obtain ⟨rfl, hrest⟩ := itemsText_inj hx (List.tail_eq_of_cons_eq h)
          obtain ⟨rfl, hr⟩ := ih htail hrest
          exact ⟨rfl, hr⟩

theorem writeMembers_append_inj {ms : List (String × Value)} (hms : ∀ m ∈ ms, m.2.Determined)
    {ns : List (String × Value)} {d e : Nat} {r r' : List UInt8}
    (h : writeMembers .compact d ms ++ r = writeMembers .compact e ns ++ r') :
    ms = ns ∧ r = r' := by
  induction ms generalizing ns with
  | nil =>
      cases ns with
      | nil => exact ⟨rfl, List.append_cancel_left h⟩
      | cons n ns => exact absurd (List.head_eq_of_cons_eq h) (by decide)
  | cons m ms ih =>
      cases ns with
      | nil => exact absurd (List.head_eq_of_cons_eq h) (by decide)
      | cons n ns =>
          rw [writeMembers_cons, writeMembers_cons] at h
          obtain ⟨hm, htail⟩ := List.forall_mem_cons.1 hms
          obtain ⟨hmn, hrest⟩ := membersText_inj hm (List.tail_eq_of_cons_eq h)
          obtain ⟨rfl, hr⟩ := ih htail hrest
          exact ⟨by rw [← Prod.eta m, hmn], hr⟩

theorem write_array_inj {xs : List Value} (hxs : ∀ x ∈ xs, x.Determined) {ys : List Value}
    {d e : Nat} {r r' : List UInt8}
    (h : (Value.array xs).write .compact d ++ r = (Value.array ys).write .compact e ++ r') :
    xs = ys ∧ r = r' := by
  cases xs with
  | nil =>
      cases ys with
      | nil => exact ⟨rfl, List.append_cancel_left h⟩
      | cons y ys =>
          rw [write_array_cons] at h
          exact (write_append_ne_closing _ _ _ _ _ (List.tail_eq_of_cons_eq h).symm).elim
  | cons x xs =>
      cases ys with
      | nil =>
          rw [write_array_cons] at h
          exact (write_append_ne_closing _ _ _ _ _ (List.tail_eq_of_cons_eq h)).elim
      | cons y ys =>
          rw [write_array_cons, write_array_cons] at h
          obtain ⟨hx, htail⟩ := List.forall_mem_cons.1 hxs
          obtain ⟨rfl, hrest⟩ := itemsText_inj hx (List.tail_eq_of_cons_eq h)
          obtain ⟨rfl, hr⟩ := writeItems_append_inj htail hrest
          exact ⟨rfl, hr⟩

theorem write_object_inj {ms : List (String × Value)} (hms : ∀ m ∈ ms, m.2.Determined)
    {ns : List (String × Value)} {d e : Nat} {r r' : List UInt8}
    (h : (Value.object ms).write .compact d ++ r = (Value.object ns).write .compact e ++ r') :
    ms = ns ∧ r = r' := by
  cases ms with
  | nil =>
      cases ns with
      | nil => exact ⟨rfl, List.append_cancel_left h⟩
      | cons n ns => exact absurd (List.head_eq_of_cons_eq (List.tail_eq_of_cons_eq h)) (by decide)
  | cons m ms =>
      cases ns with
      | nil => exact absurd (List.head_eq_of_cons_eq (List.tail_eq_of_cons_eq h)) (by decide)
      | cons n ns =>
          rw [write_object_cons, write_object_cons] at h
          obtain ⟨hm, htail⟩ := List.forall_mem_cons.1 hms
          obtain ⟨hmn, hrest⟩ := membersText_inj hm (List.tail_eq_of_cons_eq h)
          obtain ⟨rfl, hr⟩ := writeMembers_append_inj htail hrest
          exact ⟨by rw [← Prod.eta m, hmn], hr⟩

/-- Two values with equal texts are of one kind, so only values of one kind have to be compared. -/
theorem determined_of_forall {v : Value}
    (hitems : ∀ xs, v = .array xs → ∀ x ∈ xs, x.Determined)
    (hmembers : ∀ ms, v = .object ms → ∀ m ∈ ms, m.2.Determined) : v.Determined := by
  intro w d e r r' hr hr' h
  have hkind := kind_eq_of_write_append h
  cases v <;> cases w <;> simp only [Value.kind, reduceCtorEq, Kind.boolean.injEq] at hkind
  case null.null => exact ⟨rfl, List.append_cancel_left h⟩
  case boolean.boolean b c =>
      subst c
      cases b <;> exact ⟨rfl, List.append_cancel_left h⟩
  case natural.natural m n =>
      obtain ⟨rfl, hrest⟩ := writeNatural_append_inj hr hr' h
      exact ⟨rfl, hrest⟩
  case string.string s t =>
      obtain ⟨rfl, hrest⟩ := writeString_append_inj h
      exact ⟨rfl, hrest⟩
  case array.array xs ys =>
      obtain ⟨rfl, hrest⟩ := write_array_inj (hitems xs rfl) h
      exact ⟨rfl, hrest⟩
  case object.object ms ns =>
      obtain ⟨rfl, hrest⟩ := write_object_inj (hmembers ms rfl) h
      exact ⟨rfl, hrest⟩

theorem determined (v : Value) : v.Determined := by
  refine determined_of_forall ?_ ?_
  · intro xs hv x hx
    have := List.sizeOf_lt_of_mem hx
    exact determined x
  · intro ms hv m hm
    have := List.sizeOf_lt_of_mem hm
    exact determined m.2
termination_by v
decreasing_by
  · subst hv
    simp only [Value.array.sizeOf_spec]
    omega
  · subst hv
    cases m
    simp only [Value.object.sizeOf_spec, Prod.mk.sizeOf_spec] at this ⊢
    omega

end BuildGraph.Json
