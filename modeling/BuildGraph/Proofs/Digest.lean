import BuildGraph.Digest
import Mathlib.Data.List.Basic

/-!
# Short forms

A short form is cut off at a number of bytes, and a text has none where the cut would fall inside a character. The
digits of a hash are single bytes, so hashes have short forms, and so have the digests that are made of them.
-/

namespace BuildGraph

def hexDigits : List Char := ['0', '1', '2', '3', '4', '5', '6', '7', '8', '9', 'a', 'b', 'c', 'd', 'e', 'f']

/-- Sixty-four lowercase hexadecimal digits. -/
structure IsHash (text : String) : Prop where
  length : text.toList.length = 64
  digits : ∀ c ∈ text.toList, c ∈ hexDigits

theorem digitChar_mem_hexDigits : ∀ n < 16, Nat.digitChar n ∈ hexDigits := by
  decide

theorem mem_hexDigits_of_mem_hexText {bytes : List UInt8} {c : Char} (h : c ∈ hexText bytes) : c ∈ hexDigits := by
  obtain ⟨b, -, hc⟩ := List.mem_flatMap.1 h
  have hbyte := b.toNat_lt
  simp only [hexByte, List.mem_cons, List.not_mem_nil, or_false] at hc
  rcases hc with rfl | rfl
  · exact digitChar_mem_hexDigits _ (by omega)
  · exact digitChar_mem_hexDigits _ (by omega)

theorem isHash_contentHash (bytes : List UInt8) : IsHash (contentHash bytes) where
  length := by rw [contentHash, String.toList_ofList, length_hexText, Sha256.length_hash]
  digits := by
    intro c hc
    rw [contentHash, String.toList_ofList] at hc
    exact mem_hexDigits_of_mem_hexText hc

theorem isHash_of_mem {bytes : List UInt8} {hash : String} (h : hash ∈ some (contentHash bytes)) : IsHash hash :=
  Option.mem_some_iff.1 h ▸ isHash_contentHash bytes

namespace IsHash

variable {hash : String}

theorem colon_notMem (h : IsHash hash) : ':' ∉ hash.toList := fun hmem => absurd (h.digits _ hmem) (by decide)

theorem utf8Size (h : IsHash hash) : ∀ c ∈ hash.toList, c.utf8Size = 1 := by
  have hdigits : hexDigits.all (·.utf8Size == 1) = true := by decide
  exact fun c hc => beq_iff_eq.1 (List.all_eq_true.1 hdigits c (h.digits c hc))

end IsHash

namespace Digest

/-- The digest is that of the hash. -/
structure HasHash (d : Digest) (hash : String) : Prop where
  isHash : IsHash hash
  text : d.text = "sha256:" ++ hash

theorem hasHash_ofBytes (bytes : List UInt8) : (ofBytes bytes).HasHash (contentHash bytes) :=
  ⟨isHash_contentHash bytes, rfl⟩

/-- Characters of one byte each are cut off at any number. -/
theorem cutBytes?_eq_take {cs : List Char} (h : ∀ c ∈ cs, c.utf8Size = 1) (size : Nat) :
    cutBytes? size cs = some (cs.take size) := by
  induction cs generalizing size with
  | nil => simp [cutBytes?]
  | cons c cs ih =>
      obtain ⟨hc, hcs⟩ := List.forall_mem_cons.1 h
      cases size with
      | zero => rfl
      | succ size => simp [cutBytes?, hc, ih hcs]

/-- What a reader sees of a hash. -/
def firstDigits (hash : String) : String := String.ofList (hash.toList.take 12)

/-- What a reader sees of a digest: the first digits behind the name of the hash function and the colon. -/
def brief (d : Digest) : String := firstDigits (String.ofList (d.text.toList.drop 7))

theorem shorten?_of_hexPart {hash text : String} (h : IsHash hash) (htext : hexPart text = hash.toList) :
    shorten? text = some (firstDigits hash) := by
  rw [shorten?, htext, cutBytes?_eq_take h.utf8Size]
  rfl

/-- A hash has a short form without having a name in front. -/
theorem shorten?_hash {hash : String} (h : IsHash hash) : shorten? hash = some (firstDigits hash) := by
  refine shorten?_of_hexPart h ?_
  rw [hexPart, Text.cutFirst?_eq_none_iff.2 h.colon_notMem]

theorem HasHash.short?_eq {d : Digest} {hash : String} (h : d.HasHash hash) : d.short? = some (firstDigits hash) := by
  have hcolon : ':' ∉ algorithm.toList := by decide
  have htext : d.text.toList = algorithm.toList ++ ':' :: hash.toList := by
    rw [h.text, String.toList_append]
    rfl
  refine shorten?_of_hexPart h.isHash ?_
  rw [hexPart, htext, Text.cutFirst?_append hcolon]

theorem HasHash.brief_eq {d : Digest} {hash : String} (h : d.HasHash hash) : d.brief = firstDigits hash := by
  have hname : "sha256:".toList.length = 7 := rfl
  rw [brief, h.text, String.toList_append, ← hname, List.drop_left, String.ofList_toList]

end Digest

end BuildGraph
