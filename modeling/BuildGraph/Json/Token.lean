import BuildGraph.Json.Number
import BuildGraph.Json.Quoted

/-!
# Tokens of JSON text

`tokens` splits a text into its tokens and drops the blanks between them. Tokens carry what is wrong with them,
because it depends on the place of a token whether that matters: a string or a number has its value, or the
fault that keeps it from having one, and beside it the fault that is met even if nobody asks for the value. The
tokens stop at the first place where the text cannot be gone on with.
-/

namespace BuildGraph.Json

inductive Token
  | openArray
  | closeArray
  | openObject
  | closeObject
  | comma
  | colon
  | null
  | boolean (b : Bool)
  | number (value : Except Fault Number) (fault : Option Fault)
  | string (value : Except Fault String) (fault : Option Fault)
  | word (f : Fault)
  | stray

/-- Space, tab, newline and carriage return stand between tokens. -/
def isSpacing (b : UInt8) : Bool := b == 0x20 || b == 0x09 || b == 0x0a || b == 0x0d

def punctuation? (b : UInt8) : Option Token :=
  if b = 0x5b then some .openArray
  else if b = 0x5d then some .closeArray
  else if b = 0x7b then some .openObject
  else if b = 0x7d then some .closeObject
  else if b = 0x2c then some .comma
  else if b = 0x3a then some .colon
  else none

/-- The token and the remaining letters of the word that begins with a byte. -/
def word? (b : UInt8) : Option (Token × List UInt8) :=
  if b = 0x6e then some (.null, [0x75, 0x6c, 0x6c])
  else if b = 0x74 then some (.boolean true, [0x72, 0x75, 0x65])
  else if b = 0x66 then some (.boolean false, [0x61, 0x6c, 0x73, 0x65])
  else none

/-- The text behind the letters of a word. -/
def expectLetters : List UInt8 → List UInt8 → Except Fault (List UInt8)
  | [], bs => .ok bs
  | _ :: _, [] => .error .endInValue
  | e :: es, b :: bs => if b = e then expectLetters es bs else .error .expectedWord

theorem length_expectLetters {es bs rest : List UInt8} (h : expectLetters es bs = .ok rest) :
    rest.length ≤ bs.length := by
  induction es generalizing bs with
  | nil => simp_all [expectLetters]
  | cons e es ih =>
    cases bs with
    | nil => simp [expectLetters] at h
    | cons b bs =>
      simp only [expectLetters] at h
      split at h
      · have := ih h; simp only [List.length_cons]; omega
      · simp at h

theorem length_takeDigits {bs after : List UInt8} {ds : List Nat} (h : takeDigits bs = (ds, after)) :
    ds.length + after.length = bs.length := by
  have hs := congrArg List.length (List.takeWhile_append_dropWhile (p := isDigit) (l := bs))
  simp only [takeDigits, Prod.mk.injEq] at h
  obtain ⟨rfl, rfl⟩ := h
  simpa only [List.length_append, List.length_map] using hs

theorem length_splitMinus (bs : List UInt8) : (splitMinus bs).2.length ≤ bs.length := by
  unfold splitMinus; split <;> simp

theorem length_splitSign (bs : List UInt8) : (splitSign bs).2.length ≤ bs.length := by
  unfold splitSign
  split
  · simp
  · exact length_splitMinus bs

theorem length_scanWhole {bs : List UInt8} {w : List Nat × List UInt8} (h : scanWhole bs = .ok w) :
    w.2.length < bs.length := by
  unfold scanWhole at h
  split at h
  · simp at h
  · simp at h
  · rename_i ht
    have := length_takeDigits ht
    simp only [Except.ok.injEq] at h
    simp only [← h, List.length_cons] at this ⊢
    omega

theorem length_scanFraction {bs : List UInt8} {f : Option (List Nat) × List UInt8}
    (h : scanFraction bs = .ok f) : f.2.length ≤ bs.length := by
  unfold scanFraction at h
  split at h
  · split at h
    · simp at h
    · rename_i ht
      have := length_takeDigits ht
      simp only [Except.ok.injEq] at h
      simp only [← h, List.length_cons] at this ⊢
      omega
  · simp only [Except.ok.injEq] at h
    simp [← h]

theorem length_scanPower {bs : List UInt8} {p : Option Int × List UInt8} (h : scanPower bs = .ok p) :
    p.2.length ≤ bs.length := by
  unfold scanPower at h
  split at h
  · simp only [Except.ok.injEq] at h
    simp [← h]
  · rename_i r
    split at h
    · simp only at h
      split at h
      · simp at h
      · rename_i ht
        have h₁ := length_takeDigits ht
        have h₂ := length_splitSign r
        simp only [Except.ok.injEq] at h
        simp only [← h, List.length_cons] at h₁ ⊢
        omega
    · simp only [Except.ok.injEq] at h
      simp [← h]

theorem length_scanNumber {bs : List UInt8} {n : Numeral × List UInt8} (h : scanNumber bs = .ok n) :
    n.2.length < bs.length := by
  simp only [scanNumber, bind, Except.bind, pure, Except.pure] at h
  have h₀ := length_splitMinus bs
  split at h
  · simp at h
  · rename_i w hw
    have h₁ := length_scanWhole hw
    split at h
    · simp at h
    · rename_i f hf
      have h₂ := length_scanFraction hf
      split at h
      · simp at h
      · rename_i p hp
        have h₃ := length_scanPower hp
        simp only [Except.ok.injEq] at h
        simp only [← h]
        omega

def tokens : List UInt8 → List Token
  | [] => []
  | b :: rest =>
    if isSpacing b then tokens rest
    else if b = 0x22 then
      match _h : closing rest with
      | .ok after => .string (content rest) none :: tokens after
      | .error f => [.string (content rest) (some f)]
    else if b = 0x2d ∨ isDigit b then
      match _h : scanNumber (b :: rest) with
      | .ok (n, after) => .number n.value none :: tokens after
      | .error f => [.number (.error f) (some .badNumber)]
    else
      match punctuation? b, word? b with
      | some t, _ => t :: tokens rest
      | none, some (t, letters) =>
        match _h : expectLetters letters rest with
        | .ok after => t :: tokens after
        | .error f => [.word f]
      | none, none => [.stray]
termination_by bs => bs.length
decreasing_by
  · simp
  · have := length_closing _h; simp only [List.length_cons]; omega
  · exact length_scanNumber _h
  · simp
  · have := length_expectLetters _h; simp only [List.length_cons]; omega

end BuildGraph.Json
