import BuildGraph.Proofs.Json.Tokens

/-!
# What is read of a written value

The tokens of a written value are put together to `Value.tree` again, whatever stands behind them. A tree is read
with fuel for two steps per token, which is what `Tree.ofTokens` gives it. So with whatever blanks a value has been
written, it is what the text says (`readFrom_write`), and a decoder is given `Value.tree` (`run_write`).
-/

namespace BuildGraph.Json

variable {sp : Spacing}

mutual

/-- What is read of a written value. -/
def Value.tree : Value → Tree
  | .null => .null
  | .boolean b => .boolean b
  | .natural n => .number (Numeral.ofNat n).value none
  | .string s => .string (.ok s) none
  | .array xs => .array (treesOfItems xs) .closed
  | .object ms => .object (treesOfMembers ms) .closed

def treesOfItems : List Value → List Tree
  | [] => []
  | x :: xs => x.tree :: treesOfItems xs

def treesOfMembers : List (String × Value) → List (Tree × Tree)
  | [] => []
  | (k, x) :: ms => (.string (.ok k) none, x.tree) :: treesOfMembers ms

end

theorem treesOfItems_eq_map (xs : List Value) : treesOfItems xs = xs.map Value.tree := by
  induction xs with
  | nil => rfl
  | cons x xs ih => rw [treesOfItems, ih, List.map_cons]

theorem treesOfMembers_eq_map (ms : List (String × Value)) :
    treesOfMembers ms = ms.map fun m => (.string (.ok m.1) none, m.2.tree) := by
  induction ms with
  | nil => rfl
  | cons m ms ih => rw [treesOfMembers, ih, List.map_cons]

/-- No value begins with the end of an array. -/
theorem exists_tokenList_eq_cons (v : Value) : ∃ t ts, v.tokenList = t :: ts ∧ t ≠ .closeArray := by
  cases v with
  | null => exact ⟨_, _, rfl, nofun⟩
  | boolean b => exact ⟨_, _, rfl, nofun⟩
  | natural n => exact ⟨_, _, rfl, nofun⟩
  | string s => exact ⟨_, _, rfl, nofun⟩
  | array xs => cases xs <;> exact ⟨_, _, rfl, nofun⟩
  | object ms => cases ms <;> exact ⟨_, _, rfl, nofun⟩

/-- With fuel for its tokens, a value is read from the front of any tokens. -/
def Value.Readable (v : Value) : Prop :=
  ∀ (fuel : Nat) (ts : List Token), 2 * v.tokenList.length ≤ fuel → readTree fuel (v.tokenList ++ ts) = (v.tree, ts)

/-- Behind a comma that does not stand in front of the end, the other items are read. -/
theorem readItems_comma {fuel : Nat} {ts rest : List Token} {t : Token} {item : Tree}
    (h : readTree fuel ts = (item, .comma :: t :: rest)) (ht : t ≠ .closeArray) :
    readItems (fuel + 1) ts = (item :: (readItems fuel (t :: rest)).1, (readItems fuel (t :: rest)).2) := by
  rw [readItems, h]
  cases t with
  | closeArray => exact absurd rfl ht
  | _ => rfl

theorem readItems_tokens {x : Value} (hx : x.Readable) {xs : List Value} (hxs : ∀ y ∈ xs, y.Readable)
    (fuel : Nat) (ts : List Token) (hfuel : 2 * (x.tokenList ++ tokensOfItems xs).length ≤ fuel) :
    readItems fuel (x.tokenList ++ (tokensOfItems xs ++ ts)) = (x.tree :: treesOfItems xs, .closed, ts) := by
  induction xs generalizing x fuel with
  | nil =>
      rw [List.length_append, tokensOfItems, List.length_singleton] at hfuel
      obtain ⟨fuel, rfl⟩ := Nat.exists_eq_succ_of_ne_zero (n := fuel) (by omega)
      rw [readItems, hx fuel _ (by omega)]
      rfl
  | cons y ys ih =>
      obtain ⟨hy, hys⟩ := List.forall_mem_cons.1 hxs
      rw [tokensOfItems, List.length_append, List.length_cons] at hfuel
      obtain ⟨fuel, rfl⟩ := Nat.exists_eq_succ_of_ne_zero (n := fuel) (by omega)
      obtain ⟨t, rest, hhead, hne⟩ := exists_tokenList_eq_cons y
      have hbehind := ih hy hys fuel (by omega)
      have hfront := hx fuel (.comma :: (y.tokenList ++ (tokensOfItems ys ++ ts))) (by omega)
      rw [hhead, List.cons_append] at hbehind hfront
      simp only [tokensOfItems, hhead, List.cons_append, List.append_assoc]
      rw [readItems_comma hfront hne, hbehind]
      rfl

theorem readMembers_tokens (k : String) {x : Value} (hx : x.Readable) {ms : List (String × Value)}
    (hms : ∀ m ∈ ms, m.2.Readable) (fuel : Nat) (ts : List Token)
    (hfuel : 2 * (x.tokenList ++ tokensOfMembers ms).length ≤ fuel) :
    readMembers fuel (.string (.ok k) none :: .colon :: (x.tokenList ++ (tokensOfMembers ms ++ ts))) =
      ((.string (.ok k) none, x.tree) :: treesOfMembers ms, .closed, ts) := by
  induction ms generalizing k x fuel with
  | nil =>
      rw [List.length_append, tokensOfMembers, List.length_singleton] at hfuel
      obtain ⟨fuel, rfl⟩ := Nat.exists_eq_succ_of_ne_zero (n := fuel) (by omega)
      rw [readMembers, hx fuel _ (by omega)]
      rfl
  | cons m ms ih =>
      obtain ⟨hm, hms⟩ := List.forall_mem_cons.1 hms
      rw [tokensOfMembers, List.length_append, List.length_cons, List.length_cons, List.length_cons] at hfuel
      obtain ⟨fuel, rfl⟩ := Nat.exists_eq_succ_of_ne_zero (n := fuel) (by omega)
      have hbehind := ih m.1 hm hms fuel (by omega)
      rw [readMembers, tokensOfMembers, hx fuel _ (by omega)]
      simp only [List.cons_append, List.append_assoc]
      rw [hbehind]
      rfl

theorem readable (v : Value) : v.Readable := by
  induction v using Value.induct with
  | null | boolean b | natural n | string s =>
      intro fuel ts hfuel
      obtain ⟨fuel, rfl⟩ := Nat.exists_eq_succ_of_ne_zero (n := fuel) (by rintro rfl; cases hfuel)
      rfl
  | array xs ih =>
      intro fuel ts hfuel
      cases xs with
      | nil =>
          obtain ⟨fuel, rfl⟩ := Nat.exists_eq_succ_of_ne_zero (n := fuel) (by rintro rfl; cases hfuel)
          rfl
      | cons x xs =>
          obtain ⟨hx, hxs⟩ := List.forall_mem_cons.1 ih
          rw [Value.tokenList, List.length_cons] at hfuel
          obtain ⟨fuel, rfl⟩ := Nat.exists_eq_succ_of_ne_zero (n := fuel) (by omega)
          obtain ⟨t, rest, hhead, hne⟩ := exists_tokenList_eq_cons x
          have hitems := readItems_tokens hx hxs fuel ts (by omega)
          rw [hhead, List.cons_append] at hitems
          simp only [Value.tokenList, hhead, List.cons_append, List.append_assoc]
          rw [readTree, hitems]
          · rfl
          all_goals simp_all
  | object ms ih =>
      intro fuel ts hfuel
      cases ms with
      | nil =>
          obtain ⟨fuel, rfl⟩ := Nat.exists_eq_succ_of_ne_zero (n := fuel) (by rintro rfl; cases hfuel)
          rfl
      | cons m ms =>
          obtain ⟨hm, hms⟩ := List.forall_mem_cons.1 ih
          rw [Value.tokenList, List.length_cons, List.length_cons, List.length_cons] at hfuel
          obtain ⟨fuel, rfl⟩ := Nat.exists_eq_succ_of_ne_zero (n := fuel) (by omega)
          have hmembers := readMembers_tokens m.1 hm hms fuel ts (by omega)
          simp only [Value.tokenList, List.cons_append, List.append_assoc]
          rw [readTree, hmembers]
          · rfl
          all_goals simp_all

/-- What is read of the bytes is the value, and nothing is behind it. -/
def Value.ReadFrom (v : Value) (bytes : List UInt8) : Prop := Tree.ofTokens (tokens bytes) = (v.tree, [])

/-- A written value is read, with whatever blanks it is written and followed. -/
theorem readFrom_write (hsp : sp.Blank) (v : Value) (trailing : List UInt8)
    (htrailing : ∀ b ∈ trailing, isSpacing b = true) : v.ReadFrom (v.write sp 0 ++ trailing) := by
  have htokens : tokens (v.write sp 0 ++ trailing) = v.tokenList := by
    have hnone := tokens_blanks htrailing []
    have hends := endsNumber_blanks htrailing endsNumber_nil
    rw [List.append_nil] at hnone hends
    rw [tokenized hsp v 0 trailing hends, hnone, tokens, List.append_nil]
  have hread := readable v (2 * v.tokenList.length + 2) [] (by omega)
  rw [List.append_nil] at hread
  rw [Value.ReadFrom, htokens]
  exact hread

/-- A decoder is given the tree of a written value. -/
theorem run_write {α : Type} (d : Decoder α) (hsp : sp.Blank) (v : Value) (trailing : List UInt8)
    (htrailing : ∀ b ∈ trailing, isSpacing b = true) : d.run (v.write sp 0 ++ trailing) = d v.tree := by
  have hread : Tree.ofTokens (tokens (v.write sp 0 ++ trailing)) = (v.tree, []) :=
    readFrom_write hsp v trailing htrailing
  rw [Decoder.run, hread]
  exact bind_pure (d v.tree)

end BuildGraph.Json
