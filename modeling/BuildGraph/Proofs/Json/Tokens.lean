import BuildGraph.Json.Decoder
import BuildGraph.Proofs.Json.ReadBack

/-!
# What is read of a written value

A written value is taken apart into its tokens and put together to a tree again. Both are functions of the value:
`Value.tokenList` does not depend on the blanks between the tokens, which a `Spacing` may put in as it likes, and
`Value.tree` is what a decoder is given (`run_write`).

A number needs care on both ends. In front, a zero would end it, so the digits of a natural do not begin with one
unless it is the only one. Behind it, a digit would make it another number, and so would a point or an `e`
(`EndsNumber`). A natural that does not fit into 64 bits is not read as one; `Value.tree` has whatever is read
instead, so nothing is asked of the values here.
-/

namespace BuildGraph.Json

/-- What stands behind a number does not go on with it. -/
def EndsNumber (bytes : List UInt8) : Prop :=
  ∀ b ∈ bytes.head?, isDigit b = false ∧ b ≠ 0x2e ∧ b ≠ 0x65 ∧ b ≠ 0x45

theorem EndsNumber.noDigit {bytes : List UInt8} (h : EndsNumber bytes) : NoDigit bytes :=
  fun b hb => (h b hb).1

theorem endsNumber_nil : EndsNumber [] := by
  intro b hb
  cases hb

theorem endsNumber_cons {b : UInt8} (h : isDigit b = false ∧ b ≠ 0x2e ∧ b ≠ 0x65 ∧ b ≠ 0x45)
    (rest : List UInt8) : EndsNumber (b :: rest) := by
  intro c hc
  simp only [List.head?_cons, Option.mem_some_iff] at hc
  rwa [← hc]

/-!
### Naturals
-/

/-- The parts of a number that is written as a natural. -/
def Numeral.ofNat (n : Nat) : Numeral := ⟨false, (writeNatural n).map fun b => b.toNat - 0x30, none, none⟩

theorem head_toDigits_ne_zero {n : Nat} (hn : 0 < n) : (Nat.toDigits 10 n).head? ≠ some '0' := by
  induction n using Nat.strongRecOn with
  | ind n ih =>
      by_cases hlt : n < 10
      · rw [Nat.toDigits_of_lt_base hlt, List.head?_cons]
        have hdigits : ∀ d < 10, 0 < d → some (Nat.digitChar d) ≠ some '0' := by decide
        exact hdigits n hlt hn
      · rw [Nat.toDigits_of_base_le (by decide) (by omega), List.head?_append]
        have hfront := ih (n / 10) (by omega) (by omega)
        cases hdigits : (Nat.toDigits 10 (n / 10)).head? with
        | none => exact absurd (List.head?_eq_none_iff.1 hdigits) Nat.toDigits_ne_nil
        | some c =>
            rw [hdigits] at hfront
            exact hfront

/-- Among several digits the first one is no zero. -/
theorem digits_writeNatural (n : Nat) :
    ∃ d ds, (Numeral.ofNat n).whole = d :: ds ∧ (d = 0 → ds = []) := by
  by_cases hn : n = 0
  · exact ⟨0, [], by rw [hn]; rfl, fun _ => rfl⟩
  · have hhead := head_toDigits_ne_zero (Nat.pos_of_ne_zero hn)
    cases hdigits : Nat.toDigits 10 n with
    | nil => exact absurd hdigits Nat.toDigits_ne_nil
    | cons c cs =>
        have hc : c.isDigit = true :=
          Nat.isDigit_of_mem_toDigits (by decide) (by decide) (hdigits ▸ List.mem_cons_self)
        obtain ⟨hval, hlow, hhigh⟩ := toNat_toUInt8_of_isDigit hc
        refine ⟨c.toUInt8.toNat - 0x30, (ascii cs).map fun b => b.toNat - 0x30, ?_, fun hzero => ?_⟩
        · rw [Numeral.ofNat, writeNatural, hdigits]
          rfl
        · have hsame : c = '0' := Char.toNat_inj.1 (by rw [hval] at hzero; change c.toNat = 48; omega)
          rw [hdigits, hsame] at hhead
          exact absurd rfl hhead

theorem takeDigits_writeNatural {n : Nat} {r : List UInt8} (hr : NoDigit r) :
    takeDigits (writeNatural n ++ r) = ((Numeral.ofNat n).whole, r) := by
  have hrest : (writeNatural n ++ r).dropWhile isDigit = r := by
    rw [List.dropWhile_append_of_pos fun b hb => isDigit_of_mem_writeNatural hb]
    cases r with
    | nil => rfl
    | cons b bs =>
        have hb : isDigit b = false := hr b rfl
        simp [hb]
  rw [takeDigits, takeWhile_writeNatural_append hr, hrest]
  rfl

theorem scanWhole_writeNatural {n : Nat} {r : List UInt8} (hr : NoDigit r) :
    scanWhole (writeNatural n ++ r) = .ok ((Numeral.ofNat n).whole, r) := by
  obtain ⟨d, ds, hdigits, hzero⟩ := digits_writeNatural n
  rw [scanWhole, takeDigits_writeNatural hr, hdigits]
  split
  · rename_i h
    cases h
  · rename_i h
    obtain ⟨hd, -⟩ := List.cons.inj (Prod.mk.inj h).1
    rw [hzero hd] at h
    cases h
  · rename_i h
    cases h
    rfl

theorem scanFraction_of_ends {r : List UInt8} (hr : EndsNumber r) : scanFraction r = .ok (none, r) := by
  unfold scanFraction
  split
  · exact absurd rfl (hr 0x2e rfl).2.1
  · rfl

theorem scanPower_of_ends {r : List UInt8} (hr : EndsNumber r) : scanPower r = .ok (none, r) := by
  cases r with
  | nil => rfl
  | cons b rest =>
      obtain ⟨-, -, hlower, hupper⟩ := hr b rfl
      rw [scanPower, if_neg]
      rintro (h | h)
      · exact hlower h
      · exact hupper h

theorem isDigit_head_writeNatural {n : Nat} {b : UInt8} {bs : List UInt8} (h : writeNatural n = b :: bs) :
    isDigit b = true :=
  isDigit_of_mem_writeNatural (n := n) (h ▸ List.mem_cons_self)

theorem exists_writeNatural_eq_cons (n : Nat) : ∃ b bs, writeNatural n = b :: bs :=
  List.exists_cons_of_ne_nil fun h => Nat.toDigits_ne_nil (List.map_eq_nil_iff.1 h)

theorem splitMinus_writeNatural (n : Nat) (r : List UInt8) :
    splitMinus (writeNatural n ++ r) = (false, writeNatural n ++ r) := by
  obtain ⟨b, bs, hb⟩ := exists_writeNatural_eq_cons n
  have hdigit := isDigit_head_writeNatural hb
  rw [hb, List.cons_append]
  unfold splitMinus
  split
  · rename_i h
    rw [(List.cons.inj h).1] at hdigit
    cases hdigit
  · rfl

theorem scanNumber_writeNatural {n : Nat} {r : List UInt8} (hr : EndsNumber r) :
    scanNumber (writeNatural n ++ r) = .ok (Numeral.ofNat n, r) := by
  simp only [scanNumber, splitMinus_writeNatural, scanWhole_writeNatural hr.noDigit, scanFraction_of_ends hr,
    scanPower_of_ends hr, bind, Except.bind, pure, Except.pure]
  rfl

theorem le_foldl_digits (ds : List Nat) (s : Nat) : s ≤ ds.foldl (fun n d => 10 * n + d) s := by
  induction ds generalizing s with
  | nil => exact Nat.le_refl s
  | cons d ds ih => exact Nat.le_trans (by omega) (ih (10 * s + d))

/-- Digits are all read if the natural that they denote fits into 64 bits. -/
theorem significand_eq {ds : List Nat} {s : Nat} (h : ds.foldl (fun n d => 10 * n + d) s ≤ maxWord) :
    significand s ds = (ds.foldl (fun n d => 10 * n + d) s, 0) := by
  induction ds generalizing s with
  | nil => rfl
  | cons d ds ih =>
      rw [List.foldl_cons] at h ⊢
      have hfits : s * 10 + d ≤ maxWord := by
        have := Nat.le_trans (le_foldl_digits ds _) h
        omega
      rw [significand, if_pos hfits, Nat.mul_comm s 10, ih h]

theorem foldl_whole_ofNat (n : Nat) : (Numeral.ofNat n).whole.foldl (fun n d => 10 * n + d) 0 = n := by
  have hdigit : ∀ c ∈ Nat.toDigits 10 n, c.toUInt8.toNat - 0x30 = c.toNat - '0'.toNat := by
    intro c hc
    rw [(toNat_toUInt8_of_isDigit (Nat.isDigit_of_mem_toDigits (by decide) (by decide) hc)).1]
    rfl
  have hwhole : (Numeral.ofNat n).whole = (Nat.toDigits 10 n).map fun c => c.toNat - '0'.toNat := by
    rw [Numeral.ofNat, writeNatural, ascii, List.map_map]
    exact List.map_congr_left hdigit
  rw [hwhole, List.foldl_map]
  exact Nat.ofDigitChars_toDigits (by decide) (by decide)

/-- A natural that fits into 64 bits is read as itself. -/
theorem value_ofNat {n : Nat} (hn : n ≤ maxWord) : (Numeral.ofNat n).value = .ok (.natural n) := by
  have hsignificand : significand 0 (Numeral.ofNat n).whole = (n, 0) := by
    rw [significand_eq (by rwa [foldl_whole_ofNat]), foldl_whole_ofNat]
  rw [Numeral.value, hsignificand]
  rfl

/-!
### Tokens
-/

mutual

/-- The tokens of a written value. -/
def Value.tokenList : Value → List Token
  | .null => [.null]
  | .boolean b => [.boolean b]
  | .natural n => [.number (Numeral.ofNat n).value none]
  | .string s => [.string (.ok s) none]
  | .array [] => [.openArray, .closeArray]
  | .array (x :: xs) => .openArray :: (x.tokenList ++ tokensOfItems xs)
  | .object [] => [.openObject, .closeObject]
  | .object ((k, x) :: ms) => .openObject :: .string (.ok k) none :: .colon :: (x.tokenList ++ tokensOfMembers ms)

/-- The tokens of the items behind the first one. -/
def tokensOfItems : List Value → List Token
  | [] => [.closeArray]
  | x :: xs => .comma :: (x.tokenList ++ tokensOfItems xs)

/-- The tokens of the members behind the first one. -/
def tokensOfMembers : List (String × Value) → List Token
  | [] => [.closeObject]
  | (k, x) :: ms => .comma :: .string (.ok k) none :: .colon :: (x.tokenList ++ tokensOfMembers ms)

end

/-- What holds of an array if it holds of its items, and of an object if it holds of its members' values, holds of
all values. -/
@[elab_as_elim]
theorem Value.induct {motive : Value → Prop} (null : motive .null) (boolean : ∀ b, motive (.boolean b))
    (natural : ∀ n, motive (.natural n)) (string : ∀ s, motive (.string s))
    (array : ∀ xs, (∀ x ∈ xs, motive x) → motive (.array xs))
    (object : ∀ ms : List (String × Value), (∀ m ∈ ms, motive m.2) → motive (.object ms)) (v : Value) : motive v := by
  match v with
  | .null => exact null
  | .boolean b => exact boolean b
  | .natural n => exact natural n
  | .string s => exact string s
  | .array xs => exact array xs fun x _ => induct null boolean natural string array object x
  | .object ms => exact object ms fun m _ => induct null boolean natural string array object m.2
termination_by sizeOf v
decreasing_by
  · rename_i hx
    have := List.sizeOf_lt_of_mem hx
    simp only [Value.array.sizeOf_spec]
    omega
  · rename_i hm
    have := List.sizeOf_lt_of_mem hm
    cases m
    simp only [Value.object.sizeOf_spec, Prod.mk.sizeOf_spec] at this ⊢
    omega

/-- Only blanks are put in. -/
structure Spacing.Blank (sp : Spacing) : Prop where
  line : ∀ depth, ∀ b ∈ sp.line depth, isSpacing b = true
  colon : ∀ b ∈ sp.colon, isSpacing b = true

theorem blank_compact : Spacing.compact.Blank where
  line := fun _ _ hb => absurd hb List.not_mem_nil
  colon := fun _ hb => absurd hb List.not_mem_nil

theorem blank_indented : Spacing.indented.Blank where
  line := by
    intro depth b hb
    rcases List.mem_cons.1 hb with rfl | hb
    · rfl
    · rw [(List.mem_replicate.1 hb).2]
      rfl
  colon := by
    intro b hb
    rw [List.mem_singleton.1 hb]
    rfl

theorem tokens_blank {b : UInt8} (hb : isSpacing b = true) (r : List UInt8) : tokens (b :: r) = tokens r := by
  rw [tokens, if_pos hb]

theorem tokens_blanks {bs : List UInt8} (hbs : ∀ b ∈ bs, isSpacing b = true) (r : List UInt8) :
    tokens (bs ++ r) = tokens r := by
  induction bs with
  | nil => rfl
  | cons b bs ih =>
      rw [List.forall_mem_cons] at hbs
      rw [List.cons_append, tokens_blank hbs.1, ih hbs.2]

theorem endsNumber_blanks {bs : List UInt8} (hbs : ∀ b ∈ bs, isSpacing b = true) {r : List UInt8}
    (hr : EndsNumber r) : EndsNumber (bs ++ r) := by
  cases bs with
  | nil => exact hr
  | cons b bs =>
      have hb := hbs b List.mem_cons_self
      simp only [isSpacing, Bool.or_eq_true, beq_iff_eq] at hb
      apply endsNumber_cons
      rcases hb with ((rfl | rfl) | rfl) | rfl <;> decide

/-- A byte that is a token of its own. -/
theorem tokens_punctuation {b : UInt8} {t : Token} (hb : punctuation? b = some t)
    (hplain : isSpacing b = false ∧ b ≠ 0x22 ∧ b ≠ 0x2d ∧ isDigit b = false) (r : List UInt8) :
    tokens (b :: r) = t :: tokens r := by
  obtain ⟨hblank, hquote, hminus, hdigit⟩ := hplain
  rw [tokens]
  simp [hblank, hquote, hminus, hdigit, hb]

theorem tokens_openArray (r : List UInt8) : tokens ('['.toUInt8 :: r) = .openArray :: tokens r :=
  tokens_punctuation rfl (by decide) r

theorem tokens_closeArray (r : List UInt8) : tokens (']'.toUInt8 :: r) = .closeArray :: tokens r :=
  tokens_punctuation rfl (by decide) r

theorem tokens_openObject (r : List UInt8) : tokens ('\x7b'.toUInt8 :: r) = .openObject :: tokens r :=
  tokens_punctuation rfl (by decide) r

theorem tokens_closeObject (r : List UInt8) : tokens ('\x7d'.toUInt8 :: r) = .closeObject :: tokens r :=
  tokens_punctuation rfl (by decide) r

theorem tokens_comma (r : List UInt8) : tokens (','.toUInt8 :: r) = .comma :: tokens r :=
  tokens_punctuation rfl (by decide) r

theorem tokens_colon (r : List UInt8) : tokens (':'.toUInt8 :: r) = .colon :: tokens r :=
  tokens_punctuation rfl (by decide) r

theorem tokens_word {b : UInt8} {t : Token} {letters : List UInt8} (hb : word? b = some (t, letters))
    (hplain : isSpacing b = false ∧ b ≠ 0x22 ∧ b ≠ 0x2d ∧ isDigit b = false ∧ punctuation? b = none)
    {r after : List UInt8} (hafter : expectLetters letters r = .ok after) :
    tokens (b :: r) = t :: tokens after := by
  obtain ⟨hblank, hquote, hminus, hdigit, hpunctuation⟩ := hplain
  rw [tokens]
  simp only [hblank, hquote, hminus, hdigit, hpunctuation, hb, Bool.false_eq_true, if_false, or_self]
  split
  · rename_i h
    rw [hafter] at h
    cases h
    rfl
  · rename_i h
    rw [hafter] at h
    cases h

theorem tokens_writeString (s : String) (r : List UInt8) :
    tokens (writeString s ++ r) = .string (.ok s) none :: tokens r := by
  have hclosing := closing_flatMap_escapeByte (utf8 s) r
  rw [writeString_append, tokens, if_neg (by decide), if_pos rfl]
  split
  · rename_i h
    rw [hclosing] at h
    cases h
    rw [content_utf8]
  · rename_i h
    rw [hclosing] at h
    cases h

theorem tokens_writeNatural (n : Nat) {r : List UInt8} (hr : EndsNumber r) :
    tokens (writeNatural n ++ r) = .number (Numeral.ofNat n).value none :: tokens r := by
  obtain ⟨b, bs, hb⟩ := exists_writeNatural_eq_cons n
  have hdigit := isDigit_head_writeNatural hb
  have hscan := scanNumber_writeNatural (n := n) hr
  rw [hb, List.cons_append] at hscan ⊢
  have hblank : isSpacing b = false := by
    by_contra h
    simp only [isSpacing, Bool.not_eq_false, Bool.or_eq_true, beq_iff_eq] at h
    rcases h with ((rfl | rfl) | rfl) | rfl <;> cases hdigit
  have hquote : b ≠ 0x22 := by
    rintro rfl
    cases hdigit
  rw [tokens, hblank, if_neg Bool.false_ne_true, if_neg hquote, if_pos (.inr hdigit)]
  split
  · rename_i h
    rw [hscan] at h
    cases h
    rfl
  · rename_i h
    rw [hscan] at h
    cases h

/-- Written with any blanks and in front of anything that does not go on with it, a value gives its tokens. -/
def Value.Tokenized (sp : Spacing) (v : Value) : Prop :=
  ∀ (depth : Nat) (r : List UInt8), EndsNumber r → tokens (v.write sp depth ++ r) = v.tokenList ++ tokens r

variable {sp : Spacing}

theorem endsNumber_writeItems (hsp : sp.Blank) (depth : Nat) (xs : List Value) (r : List UInt8) :
    EndsNumber (writeItems sp depth xs ++ r) := by
  cases xs with
  | nil =>
      rw [writeItems, List.append_assoc]
      exact endsNumber_blanks (hsp.line depth) (endsNumber_cons (by decide) r)
  | cons x xs =>
      rw [writeItems]
      exact endsNumber_cons (by decide) _

theorem endsNumber_writeMembers (hsp : sp.Blank) (depth : Nat) (ms : List (String × Value)) (r : List UInt8) :
    EndsNumber (writeMembers sp depth ms ++ r) := by
  cases ms with
  | nil =>
      rw [writeMembers, List.append_assoc]
      exact endsNumber_blanks (hsp.line depth) (endsNumber_cons (by decide) r)
  | cons m ms =>
      rw [writeMembers]
      exact endsNumber_cons (by decide) _

theorem tokens_writeItems (hsp : sp.Blank) {xs : List Value} (hxs : ∀ x ∈ xs, x.Tokenized sp) (depth : Nat)
    (r : List UInt8) : tokens (writeItems sp depth xs ++ r) = tokensOfItems xs ++ tokens r := by
  induction xs with
  | nil =>
      rw [writeItems, tokensOfItems, List.append_assoc, tokens_blanks (hsp.line depth)]
      exact tokens_closeArray r
  | cons x xs ih =>
      obtain ⟨hx, hxs⟩ := List.forall_mem_cons.1 hxs
      simp only [writeItems, tokensOfItems, List.cons_append, List.append_assoc]
      rw [tokens_comma, tokens_blanks (hsp.line _), hx _ _ (endsNumber_writeItems hsp depth xs r), ih hxs]

theorem tokens_writeMembers (hsp : sp.Blank) {ms : List (String × Value)} (hms : ∀ m ∈ ms, m.2.Tokenized sp)
    (depth : Nat) (r : List UInt8) :
    tokens (writeMembers sp depth ms ++ r) = tokensOfMembers ms ++ tokens r := by
  induction ms with
  | nil =>
      rw [writeMembers, tokensOfMembers, List.append_assoc, tokens_blanks (hsp.line depth)]
      exact tokens_closeObject r
  | cons m ms ih =>
      obtain ⟨hm, hms⟩ := List.forall_mem_cons.1 hms
      simp only [writeMembers, tokensOfMembers, List.cons_append, List.append_assoc]
      rw [tokens_comma, tokens_blanks (hsp.line _), tokens_writeString, tokens_colon, tokens_blanks hsp.colon,
        hm _ _ (endsNumber_writeMembers hsp depth ms r), ih hms]

theorem tokenized (hsp : sp.Blank) (v : Value) : v.Tokenized sp := by
  induction v using Value.induct with
  | null => exact fun depth r _ => tokens_word rfl (by decide) rfl
  | boolean b =>
      intro depth r _
      cases b <;> exact tokens_word rfl (by decide) rfl
  | natural n => exact fun depth r hr => tokens_writeNatural n hr
  | string s => exact fun depth r _ => tokens_writeString s r
  | array xs ih =>
      intro depth r _
      cases xs with
      | nil =>
          change tokens ('['.toUInt8 :: ']'.toUInt8 :: r) = _
          rw [tokens_openArray, tokens_closeArray]
          rfl
      | cons x xs =>
          obtain ⟨hx, hxs⟩ := List.forall_mem_cons.1 ih
          simp only [Value.write, Value.tokenList, List.cons_append, List.append_assoc]
          rw [tokens_openArray, tokens_blanks (hsp.line _), hx _ _ (endsNumber_writeItems hsp depth xs r),
            tokens_writeItems hsp hxs]
  | object ms ih =>
      intro depth r _
      cases ms with
      | nil =>
          change tokens ('\x7b'.toUInt8 :: '\x7d'.toUInt8 :: r) = _
          rw [tokens_openObject, tokens_closeObject]
          rfl
      | cons m ms =>
          obtain ⟨hm, hms⟩ := List.forall_mem_cons.1 ih
          simp only [Value.write, Value.tokenList, List.cons_append, List.append_assoc]
          rw [tokens_openObject, tokens_blanks (hsp.line _), tokens_writeString, tokens_colon,
            tokens_blanks hsp.colon, hm _ _ (endsNumber_writeMembers hsp depth ms r), tokens_writeMembers hsp hms]

end BuildGraph.Json
