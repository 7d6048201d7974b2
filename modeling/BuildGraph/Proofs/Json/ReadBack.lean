import BuildGraph.Json.Number
import BuildGraph.Json.Quoted
import BuildGraph.Json.Value
import Mathlib.Data.List.Basic

/-!
# Written strings and naturals read back

A string is written between quotes with some of its bytes escaped, a natural as its digits. Both end by
themselves: a string at its closing quote, a natural in front of the first byte that is no digit. So what stands
behind them is found again, and what is found in front of it is the string or the natural that was written.

The control characters have an escape of four hexadecimal digits, which goes through `hexNumber?` and
`encodePoint`. There are 32 of them, and the two lemmas about them are checked one by one.
-/

namespace BuildGraph.Json

theorem hexNumber?_control :
    ∀ n < 32, hexNumber? 0x30 0x30 (hexByte (n / 16)) (hexByte (n % 16)) = some n := by
  decide

theorem encodePoint_control : ∀ n < 32, encodePoint n = [UInt8.ofNat n] := by
  decide

theorem closing_cons {b : UInt8} (hc : ¬b < 0x20) (hq : b ≠ 0x22) (hs : b ≠ 0x5c)
    (rest : List UInt8) : closing (b :: rest) = closing rest := by
  rw [closing]
  · simp [hc]
  all_goals simp_all

theorem contentBytes_cons {b : UInt8} (hc : ¬b < 0x20) (hq : b ≠ 0x22) (hs : b ≠ 0x5c)
    (rest : List UInt8) :
    contentBytes (b :: rest) = (contentBytes rest).map (b :: ·) := by
  rw [contentBytes]
  · simp [hc]
  all_goals simp_all

theorem closing_control {n : Nat} (hn : n < 32) (rest : List UInt8) :
    closing (0x5c :: 0x75 :: 0x30 :: 0x30 :: hexByte (n / 16) :: hexByte (n % 16) :: rest) =
      closing rest := by
  rw [closing]
  simp [hexNumber?_control n hn]

theorem contentBytes_control {n : Nat} (hn : n < 32) (rest : List UInt8) :
    contentBytes
        (0x5c :: 0x75 :: 0x30 :: 0x30 :: hexByte (n / 16) :: hexByte (n % 16) :: rest) =
      (contentBytes rest).map (UInt8.ofNat n :: ·) := by
  rw [contentBytes]
  simp only [hexNumber?_control n hn, encodePoint_control n hn]
  rw [if_neg (by omega), if_neg (by omega)]
  rfl

theorem closing_escapeByte (b : UInt8) (rest : List UInt8) :
    closing (escapeByte b ++ rest) = closing rest := by
  unfold escapeByte
  split_ifs with hq hs _ _ _ _ _ hc
  any_goals rfl
  · exact closing_control hc rest
  · exact closing_cons hc hq hs rest

theorem contentBytes_escapeByte (b : UInt8) (rest : List UInt8) :
    contentBytes (escapeByte b ++ rest) = (contentBytes rest).map (b :: ·) := by
  unfold escapeByte
  split_ifs with hq hs _ _ _ _ _ hc
  any_goals subst b; rfl
  · have h := contentBytes_control (n := b.toNat) hc rest
    rwa [UInt8.ofNat_toNat] at h
  · exact contentBytes_cons hc hq hs rest

/-- What is left behind the closing quote of some escaped bytes. -/
theorem closing_flatMap_escapeByte (bytes rest : List UInt8) :
    closing (bytes.flatMap escapeByte ++ 0x22 :: rest) = .ok rest := by
  induction bytes with
  | nil => rfl
  | cons b bs ih => rw [List.flatMap_cons, List.append_assoc, closing_escapeByte, ih]

theorem contentBytes_flatMap_escapeByte (bytes rest : List UInt8) :
    contentBytes (bytes.flatMap escapeByte ++ 0x22 :: rest) = .ok bytes := by
  induction bytes with
  | nil => rfl
  | cons b bs ih =>
      rw [List.flatMap_cons, List.append_assoc, contentBytes_escapeByte, ih]
      rfl

/-- The content of a written string is the string. -/
theorem content_utf8 (s : String) (rest : List UInt8) :
    content ((utf8 s).flatMap escapeByte ++ 0x22 :: rest) = .ok s := by
  have hs : String.fromUTF8? ⟨(utf8 s).toArray⟩ = some s := dif_pos s.isValidUTF8
  simp only [content, contentBytes_flatMap_escapeByte, bind, Except.bind, hs]
  rfl

theorem writeString_append (s : String) (r : List UInt8) :
    writeString s ++ r = 0x22 :: ((utf8 s).flatMap escapeByte ++ 0x22 :: r) := by
  simp only [writeString, List.cons_append, List.append_assoc, List.nil_append]
  rfl

theorem writeString_append_inj {s t : String} {r r' : List UInt8}
    (h : writeString s ++ r = writeString t ++ r') : s = t ∧ r = r' := by
  rw [writeString_append, writeString_append] at h
  have hbody := List.tail_eq_of_cons_eq h
  have hcontent := congrArg content hbody
  have hclosing := congrArg closing hbody
  rw [content_utf8, content_utf8] at hcontent
  rw [closing_flatMap_escapeByte, closing_flatMap_escapeByte] at hclosing
  exact ⟨Except.ok.inj hcontent, Except.ok.inj hclosing⟩

/-- No digit comes first, so a natural in front has ended. -/
def NoDigit (bytes : List UInt8) : Prop := ∀ b ∈ bytes.head?, isDigit b = false

theorem noDigit_cons {b : UInt8} (h : isDigit b = false) (rest : List UInt8) : NoDigit (b :: rest) := by
  intro c hc
  simp only [List.head?_cons, Option.mem_some_iff] at hc
  rwa [← hc]

theorem toNat_toUInt8_of_isDigit {c : Char} (h : c.isDigit = true) :
    c.toUInt8.toNat = c.toNat ∧ 0x30 ≤ c.toNat ∧ c.toNat ≤ 0x39 := by
  have hc : 0x30 ≤ c.toNat ∧ c.toNat ≤ 0x39 := by
    simpa [Char.isDigit, UInt32.le_iff_toNat_le] using h
  refine ⟨?_, hc⟩
  simp only [Char.toUInt8, UInt32.toNat_toUInt8]
  exact Nat.mod_eq_of_lt (by have := hc.2; unfold Char.toNat at this; omega)

theorem isDigit_toUInt8 {c : Char} (h : c.isDigit = true) : isDigit c.toUInt8 = true := by
  obtain ⟨hval, hlow, hhigh⟩ := toNat_toUInt8_of_isDigit h
  simp only [isDigit, Bool.and_eq_true, decide_eq_true_eq, UInt8.le_iff_toNat_le, hval]
  exact ⟨hlow, hhigh⟩

theorem isDigit_of_mem_writeNatural {n : Nat} {b : UInt8} (h : b ∈ writeNatural n) :
    isDigit b = true := by
  obtain ⟨c, hc, rfl⟩ := List.mem_map.1 h
  exact isDigit_toUInt8 (Nat.isDigit_of_mem_toDigits (by decide) (by decide) hc)

theorem takeWhile_writeNatural_append {n : Nat} {r : List UInt8} (hr : NoDigit r) :
    (writeNatural n ++ r).takeWhile isDigit = writeNatural n := by
  rw [List.takeWhile_append_of_pos fun b hb => isDigit_of_mem_writeNatural hb]
  cases r with
  | nil => simp
  | cons b bs =>
      have hb : isDigit b = false := hr b rfl
      simp [hb]

/-- The digits that a natural was written with. -/
theorem map_writeNatural (n : Nat) :
    (writeNatural n).map (fun b => Char.ofNat b.toNat) = Nat.toDigits 10 n := by
  have hback : ∀ c ∈ Nat.toDigits 10 n, Char.ofNat c.toUInt8.toNat = id c := by
    intro c hc
    have hdigit := Nat.isDigit_of_mem_toDigits (by decide) (by decide) hc
    rw [(toNat_toUInt8_of_isDigit hdigit).1, Char.ofNat_toNat, id]
  unfold writeNatural ascii
  rw [List.map_map]
  exact (List.map_congr_left hback).trans (List.map_id _)

theorem writeNatural_injective : Function.Injective writeNatural := by
  intro m n h
  have hdigits := congrArg (List.map fun b => Char.ofNat b.toNat) h
  rw [map_writeNatural, map_writeNatural] at hdigits
  have hvalue := congrArg (fun cs => Nat.ofDigitChars 10 cs 0) hdigits
  simpa using hvalue

theorem writeNatural_append_inj {m n : Nat} {r r' : List UInt8} (hr : NoDigit r) (hr' : NoDigit r')
    (h : writeNatural m ++ r = writeNatural n ++ r') : m = n ∧ r = r' := by
  have hdigits := congrArg (List.takeWhile isDigit) h
  rw [takeWhile_writeNatural_append hr, takeWhile_writeNatural_append hr'] at hdigits
  rw [hdigits] at h
  exact ⟨writeNatural_injective hdigits, List.append_cancel_left h⟩

end BuildGraph.Json
