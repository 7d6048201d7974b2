import BuildGraph.Json.Error

/-!
# Quoted strings in JSON text

Two questions are asked about the text behind an opening quote. `closing` finds the text behind the closing
quote; it looks at escapes only to step over them. `content` says what the string is: escapes are undone, a
character beyond the basic plane is written as two escapes, and the bytes together have to be UTF-8. A string
whose value nobody asks for only has to close.
-/

namespace BuildGraph.Json

def hexValue? (b : UInt8) : Option Nat :=
  if 0x30 ≤ b ∧ b ≤ 0x39 then some (b.toNat - 0x30)
  else if 0x61 ≤ b ∧ b ≤ 0x66 then some (b.toNat - 0x57)
  else if 0x41 ≤ b ∧ b ≤ 0x46 then some (b.toNat - 0x37)
  else none

def hexNumber? (a b c d : UInt8) : Option Nat := do
  let a ← hexValue? a
  let b ← hexValue? b
  let c ← hexValue? c
  let d ← hexValue? d
  return 0x1000 * a + 0x100 * b + 0x10 * c + d

/-- The byte that an escape of one letter stands for. -/
def unescape? (b : UInt8) : Option UInt8 :=
  if b = 0x22 ∨ b = 0x5c ∨ b = 0x2f then some b
  else if b = 0x62 then some 0x08
  else if b = 0x66 then some 0x0c
  else if b = 0x6e then some 0x0a
  else if b = 0x72 then some 0x0d
  else if b = 0x74 then some 0x09
  else none

/-- The text behind the closing quote. -/
def closing : List UInt8 → Except Fault (List UInt8)
  | [] => .error .endInString
  | 0x22 :: rest => .ok rest
  | 0x5c :: 0x75 :: a :: b :: c :: d :: rest =>
    if (hexNumber? a b c d).isSome then closing rest else .error .badEscape
  | 0x5c :: 0x75 :: _ => .error .endInString
  | [0x5c] => .error .endInString
  | 0x5c :: b :: rest => if (unescape? b).isSome then closing rest else .error .badEscape
  | b :: rest => if b < 0x20 then .error .controlCharacter else closing rest

/-- The UTF-8 bytes of a code point that is no surrogate. -/
def encodePoint (n : Nat) : List UInt8 := String.utf8EncodeChar (Char.ofNat n)

/-- The bytes of the string, up to the closing quote. -/
def contentBytes : List UInt8 → Except Fault (List UInt8)
  | [] => .error .endInString
  | 0x22 :: _ => .ok []
  | 0x5c :: 0x75 :: a :: b :: c :: d :: rest =>
    match hexNumber? a b c d with
    | none => .error .badEscape
    | some n =>
      if 0xdc00 ≤ n ∧ n ≤ 0xdfff then .error .loneSurrogate
      else if 0xd800 ≤ n ∧ n ≤ 0xdbff then
        match rest with
        | 0x5c :: 0x75 :: e :: f :: g :: h :: rest =>
          match hexNumber? e f g h with
          | none => .error .badEscape
          | some m =>
            if 0xdc00 ≤ m ∧ m ≤ 0xdfff then
              (contentBytes rest).map (encodePoint (0x10000 + 0x400 * (n - 0xd800) + (m - 0xdc00)) ++ ·)
            else .error .loneSurrogate
        | [] | [0x5c] | 0x5c :: 0x75 :: _ => .error .endInString
        | _ => .error .unfinishedSurrogate
      else (contentBytes rest).map (encodePoint n ++ ·)
  | 0x5c :: 0x75 :: _ => .error .endInString
  | [0x5c] => .error .endInString
  | 0x5c :: b :: rest =>
    match unescape? b with
    | none => .error .badEscape
    | some c => (contentBytes rest).map (c :: ·)
  | b :: rest => if b < 0x20 then .error .controlCharacter else (contentBytes rest).map (b :: ·)

def content (bs : List UInt8) : Except Fault String := do
  let bytes ← contentBytes bs
  match String.fromUTF8? ⟨bytes.toArray⟩ with
  | some s => return s
  | none => throw .badUnicode

theorem length_closing {bs rest : List UInt8} (h : closing bs = .ok rest) : rest.length < bs.length := by
  fun_induction closing bs with
  | case1 => simp at h
  | case2 => simp_all
  | case3 a b c d r hx ih => have := ih h; simp only [List.length_cons]; omega
  | case4 => simp at h
  | case5 => simp at h
  | case6 => simp at h
  | case7 b r _ _ hx ih => have := ih h; simp only [List.length_cons]; omega
  | case8 => simp at h
  | case9 => simp at h
  | case10 b r _ _ _ _ _ hx ih => have := ih h; simp only [List.length_cons]; omega

end BuildGraph.Json
