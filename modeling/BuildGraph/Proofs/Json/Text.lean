import BuildGraph.Proofs.Json.Tokens

/-!
# Written values are text

A written value consists of strings, and of bytes below 128 around them. What is escaped in a string are such bytes
too, and they become such bytes, whereas no byte of a longer character is below 128. So the characters of a string stay
whole, and what is written is UTF-8 (`isText_write`).
-/

namespace BuildGraph.Json

/-- The bytes of some characters. -/
def IsText (bytes : List UInt8) : Prop := ∃ cs : List Char, cs.flatMap String.utf8EncodeChar = bytes

theorem IsText.append {bytes rest : List UInt8} (h : IsText bytes) (hrest : IsText rest) : IsText (bytes ++ rest) := by
  obtain ⟨cs, rfl⟩ := h
  obtain ⟨ds, rfl⟩ := hrest
  exact ⟨cs ++ ds, List.flatMap_append⟩

theorem isText_flatMap {α : Type} {f : α → List UInt8} {xs : List α} (h : ∀ x ∈ xs, IsText (f x)) :
    IsText (xs.flatMap f) := by
  induction xs with
  | nil => exact ⟨[], rfl⟩
  | cons x xs ih =>
      obtain ⟨hx, hxs⟩ := List.forall_mem_cons.1 h
      exact hx.append (ih hxs)

theorem isText_utf8EncodeChar (c : Char) : IsText (String.utf8EncodeChar c) := ⟨[c], List.append_nil _⟩

/-- A byte below 128 is a character by itself. -/
theorem isText_singleton {b : UInt8} (hb : b < 0x80) : IsText [b] := by
  have hsmall : b.toNat ≤ 127 := Nat.le_of_lt_succ (UInt8.lt_iff_toNat_lt.1 hb)
  have hvalue : (Char.ofUInt8 b).val.toNat = b.toNat := UInt8.toNat_toUInt32 b
  exact ⟨[Char.ofUInt8 b], by simp [String.utf8EncodeChar, hvalue, hsmall]⟩

theorem IsText.cons {b : UInt8} {bytes : List UInt8} (h : IsText bytes) (hb : b < 0x80) : IsText (b :: bytes) :=
  (isText_singleton hb).append h

theorem isText_ascii {bytes : List UInt8} (h : bytes.all (· < 0x80) = true) : IsText bytes := by
  rw [← List.flatMap_singleton' bytes]
  exact isText_flatMap fun b hb => isText_singleton (of_decide_eq_true (List.all_eq_true.1 h b hb))

theorem utf8_eq_flatMap (s : String) : utf8 s = s.toList.flatMap String.utf8EncodeChar := by
  obtain ⟨cs, rfl⟩ : ∃ cs, s = String.ofList cs := ⟨s.toList, (String.ofList_toList).symm⟩
  rw [utf8, String.toByteArray_ofList, String.toList_ofList, List.utf8Encode]
  simp

/-- Text is the bytes of a string, and is read as the string. -/
theorem IsText.exists_fromUTF8? {bytes : List UInt8} (h : IsText bytes) :
    ∃ s, String.fromUTF8? ⟨bytes.toArray⟩ = some s ∧ utf8 s = bytes := by
  obtain ⟨cs, rfl⟩ := h
  refine ⟨String.ofList cs, ?_, by rw [utf8_eq_flatMap, String.toList_ofList]⟩
  rw [← String.toList_ofList (l := cs), ← utf8_eq_flatMap, String.toList_ofList]
  exact dif_pos (String.ofList cs).isValidUTF8

theorem escapeByte_ofNat_lt : ∀ n < 128, (escapeByte (UInt8.ofNat n)).all (· < 0x80) = true := by
  decide

theorem escapeByte_of_le {b : UInt8} (h : 0x80 ≤ b) : escapeByte b = [b] := by
  unfold escapeByte
  split_ifs with hq hs _ _ _ _ _ hc
  any_goals subst b; exact absurd h (by decide)
  · exact absurd (UInt8.lt_of_lt_of_le hc (by decide)) (UInt8.not_lt.2 h)
  · rfl

/-- A character of more than one byte has no byte below 128. -/
theorem le_of_mem_utf8EncodeChar {c : Char} (hc : ¬c.val.toNat ≤ 127) {b : UInt8}
    (hb : b ∈ String.utf8EncodeChar c) : 0x80 ≤ b := by
  rw [String.utf8EncodeChar, if_neg hc] at hb
  rw [UInt8.le_iff_toNat_le]
  split_ifs at hb
  all_goals
    simp only [List.mem_cons, List.not_mem_nil, or_false] at hb
    rcases hb with rfl | rfl | rfl | rfl <;> simp <;> omega

theorem isText_escaped (c : Char) : IsText ((String.utf8EncodeChar c).flatMap escapeByte) := by
  by_cases hc : c.val.toNat ≤ 127
  · rw [String.utf8EncodeChar, if_pos hc, List.flatMap_singleton]
    exact isText_ascii (escapeByte_ofNat_lt _ (Nat.lt_succ_of_le hc))
  · rw [List.flatMap_congr fun b hb => escapeByte_of_le (le_of_mem_utf8EncodeChar hc hb), List.flatMap_singleton']
    exact isText_utf8EncodeChar c

theorem isText_writeString (s : String) : IsText (writeString s) := by
  have hquote : IsText ['"'.toUInt8] := isText_ascii (by decide)
  rw [writeString, utf8_eq_flatMap, List.flatMap_assoc]
  exact (hquote.append (isText_flatMap fun c _ => isText_escaped c)).append hquote

theorem isText_writeNatural (n : Nat) : IsText (writeNatural n) := by
  refine isText_ascii (List.all_eq_true.2 fun b hb => decide_eq_true ?_)
  have hdigit := isDigit_of_mem_writeNatural hb
  simp only [isDigit, Bool.and_eq_true, decide_eq_true_eq] at hdigit
  exact UInt8.lt_of_le_of_lt hdigit.2 (by decide)

theorem isText_blanks {bytes : List UInt8} (h : ∀ b ∈ bytes, isSpacing b = true) : IsText bytes := by
  refine isText_ascii (List.all_eq_true.2 fun b hb => decide_eq_true ?_)
  have hblank := h b hb
  simp only [isSpacing, Bool.or_eq_true, beq_iff_eq] at hblank
  rcases hblank with ((rfl | rfl) | rfl) | rfl <;> decide

variable {sp : Spacing}

theorem isText_writeItems (hsp : sp.Blank) {xs : List Value} (hxs : ∀ x ∈ xs, ∀ depth, IsText (x.write sp depth))
    (depth : Nat) : IsText (writeItems sp depth xs) := by
  induction xs with
  | nil =>
      rw [writeItems]
      exact (isText_blanks (hsp.line _)).append (isText_ascii (by decide))
  | cons x xs ih =>
      obtain ⟨hx, hxs⟩ := List.forall_mem_cons.1 hxs
      simp only [writeItems, List.cons_append, List.append_assoc]
      exact ((isText_blanks (hsp.line _)).append ((hx _).append (ih hxs))).cons (by decide)

/-- A member behind an opening brace or a comma. -/
theorem isText_member (hsp : sp.Blank) {b : UInt8} (hb : b < 0x80) (k : String) {depth : Nat} {rest : List UInt8}
    (hrest : IsText rest) :
    IsText (b :: (sp.line depth ++ (writeString k ++ ':'.toUInt8 :: (sp.colon ++ rest)))) := by
  have hvalue : IsText (':'.toUInt8 :: (sp.colon ++ rest)) := ((isText_blanks hsp.colon).append hrest).cons (by decide)
  exact ((isText_blanks (hsp.line _)).append ((isText_writeString k).append hvalue)).cons hb

theorem isText_writeMembers (hsp : sp.Blank) {ms : List (String × Value)}
    (hms : ∀ m ∈ ms, ∀ depth, IsText (m.2.write sp depth)) (depth : Nat) : IsText (writeMembers sp depth ms) := by
  induction ms with
  | nil =>
      rw [writeMembers]
      exact (isText_blanks (hsp.line _)).append (isText_ascii (by decide))
  | cons m ms ih =>
      obtain ⟨hm, hms⟩ := List.forall_mem_cons.1 hms
      simp only [writeMembers, List.cons_append, List.append_assoc]
      exact isText_member hsp (by decide) _ ((hm _).append (ih hms))

/-- Written with any blanks, a value is text. -/
theorem isText_write (hsp : sp.Blank) (v : Value) (depth : Nat) : IsText (v.write sp depth) := by
  induction v using Value.induct generalizing depth with
  | null =>
      rw [Value.write]
      exact isText_ascii (by decide)
  | boolean b =>
      cases b <;> rw [Value.write] <;> exact isText_ascii (by decide)
  | natural n => exact isText_writeNatural n
  | string s => exact isText_writeString s
  | array xs ih =>
      cases xs with
      | nil =>
          rw [Value.write]
          exact isText_ascii (by decide)
      | cons x xs =>
          obtain ⟨hx, hxs⟩ := List.forall_mem_cons.1 ih
          simp only [Value.write, List.cons_append, List.append_assoc]
          exact ((isText_blanks (hsp.line _)).append ((hx _).append (isText_writeItems hsp hxs depth))).cons (by decide)
  | object ms ih =>
      cases ms with
      | nil =>
          rw [Value.write]
          exact isText_ascii (by decide)
      | cons m ms =>
          obtain ⟨hm, hms⟩ := List.forall_mem_cons.1 ih
          simp only [Value.write, List.cons_append, List.append_assoc]
          exact isText_member hsp (by decide) _ ((hm _).append (isText_writeMembers hsp hms depth))

end BuildGraph.Json
