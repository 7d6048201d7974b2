import BuildGraph.Pipeline.Wire
import BuildGraph.Proofs.Check
import Mathlib.Data.List.Forall2

/-!
# How much a text can hold

A token takes a byte at least, and between two items of an array stands a comma. So no array that is read of a text
has more items than the text has bytes (`within_ofTokens`), and nothing that is decoded from an array is longer. What
this is about is the number of stages of a config (`PipelineConfig.length_stages_le`).
-/

namespace BuildGraph.Json

/-- No array of the tree has more items than a number says. -/
inductive Tree.Within (n : Nat) : Tree → Prop
  | null : Within n .null
  | boolean (b : Bool) : Within n (.boolean b)
  | number (v : Except Fault Number) (f : Option Fault) : Within n (.number v f)
  | string (v : Except Fault String) (f : Option Fault) : Within n (.string v f)
  | array {items : List Tree} (e : Ending) (hlength : items.length ≤ n) (hitems : ∀ t ∈ items, Within n t) :
      Within n (.array items e)
  | object {members : List (Tree × Tree)} (e : Ending) (hmembers : ∀ m ∈ members, Within n m.2) :
      Within n (.object members e)
  | word (f : Fault) : Within n (.word f)
  | broken (f : Fault) : Within n (.broken f)

theorem Tree.Within.mono {m n : Nat} (hmn : m ≤ n) {t : Tree} (h : t.Within m) : t.Within n := by
  induction h with
  | null => exact .null
  | boolean b => exact .boolean b
  | number v f => exact .number v f
  | string v f => exact .string v f
  | array e hlength _ ih => exact .array e (Nat.le_trans hlength hmn) ih
  | object e _ ih => exact .object e ih
  | word f => exact .word f
  | broken f => exact .broken f

/-- What is read with some fuel holds no larger arrays than there are tokens, and leaves no more tokens. -/
structure ReadsWithin (fuel : Nat) : Prop where
  tree : ∀ ts, (readTree fuel ts).1.Within ts.length ∧ (readTree fuel ts).2.length ≤ ts.length
  items : ∀ ts, (∀ t ∈ (readItems fuel ts).1, t.Within ts.length) ∧
    (readItems fuel ts).1.length ≤ ts.length + 1 ∧ (readItems fuel ts).2.2.length ≤ ts.length
  members : ∀ ts, (∀ m ∈ (readMembers fuel ts).1, m.2.Within ts.length) ∧
    (readMembers fuel ts).2.2.length ≤ ts.length

theorem ReadsWithin.succ_tree {fuel : Nat} (ih : ReadsWithin fuel) (ts : List Token) :
    (readTree (fuel + 1) ts).1.Within ts.length ∧ (readTree (fuel + 1) ts).2.length ≤ ts.length := by
  unfold readTree
  split
  · exact ⟨.broken _, Nat.zero_le _⟩
  · exact ⟨.broken _, Nat.zero_le _⟩
  · exact ⟨.null, Nat.le_succ _⟩
  · exact ⟨.boolean _, Nat.le_succ _⟩
  · exact ⟨.number _ _, Nat.le_succ _⟩
  · exact ⟨.string _ _, Nat.le_succ _⟩
  · exact ⟨.array _ (Nat.zero_le _) nofun, Nat.zero_le _⟩
  · exact ⟨.array _ (Nat.zero_le _) nofun, Nat.le_add_right _ 2⟩
  · rename_i ts _ _ heq
    obtain rfl := Nat.succ.inj heq
    obtain ⟨hitems, hcount, hrest⟩ := ih.items ts
    exact ⟨.array _ hcount fun t ht => (hitems t ht).mono (Nat.le_succ _), Nat.le_succ_of_le hrest⟩
  · exact ⟨.object _ nofun, Nat.zero_le _⟩
  · exact ⟨.object _ nofun, Nat.le_add_right _ 2⟩
  · rename_i ts _ _ heq
    obtain rfl := Nat.succ.inj heq
    obtain ⟨hmembers, hrest⟩ := ih.members ts
    exact ⟨.object _ fun m hm => (hmembers m hm).mono (Nat.le_succ _), Nat.le_succ_of_le hrest⟩
  · exact ⟨.word _, Nat.zero_le _⟩
  · exact ⟨.broken _, Nat.zero_le _⟩

/-- Of two items at least the comma between them is read. -/
theorem ReadsWithin.succ_items {fuel : Nat} (ih : ReadsWithin fuel) (ts : List Token) :
    (∀ t ∈ (readItems (fuel + 1) ts).1, t.Within ts.length) ∧
      (readItems (fuel + 1) ts).1.length ≤ ts.length + 1 ∧ (readItems (fuel + 1) ts).2.2.length ≤ ts.length := by
  obtain ⟨htree, hrest⟩ := ih.tree ts
  have hsingle : ∀ t ∈ [(readTree fuel ts).1], t.Within ts.length := fun t ht => List.mem_singleton.1 ht ▸ htree
  rw [readItems]
  dsimp only
  split
  · exact ⟨hsingle, Nat.le_add_left _ _, Nat.zero_le _⟩
  · rename_i rest heq
    rw [heq, List.length_cons] at hrest
    exact ⟨hsingle, Nat.le_add_left _ _, Nat.le_of_succ_le hrest⟩
  · exact ⟨hsingle, Nat.le_add_left _ _, Nat.zero_le _⟩
  · rename_i rest _ heq
    rw [heq, List.length_cons] at hrest
    obtain ⟨hitems, hcount, hbehind⟩ := ih.items rest
    refine ⟨List.forall_mem_cons.2 ⟨htree, fun t ht => (hitems t ht).mono (by omega)⟩, ?_, ?_⟩
    · rw [List.length_cons]
      omega
    · exact Nat.le_trans hbehind (Nat.le_of_succ_le hrest)
  · exact ⟨hsingle, Nat.le_add_left _ _, Nat.zero_le _⟩

theorem ReadsWithin.succ_members {fuel : Nat} (ih : ReadsWithin fuel) (ts : List Token) :
    (∀ m ∈ (readMembers (fuel + 1) ts).1, m.2.Within ts.length) ∧
      (readMembers (fuel + 1) ts).2.2.length ≤ ts.length := by
  unfold readMembers
  split
  · exact ⟨nofun, Nat.zero_le _⟩
  · rename_i v f ts heq
    obtain rfl := Nat.succ.inj heq
    obtain ⟨htree, hrest⟩ := ih.tree ts
    have hitem : (readTree fuel ts).1.Within (ts.length + 2) := htree.mono (Nat.le_add_right _ 2)
    have hsingle : ∀ m ∈ [(Tree.string v f, (readTree fuel ts).1)], m.2.Within (ts.length + 2) :=
      fun m hm => List.mem_singleton.1 hm ▸ hitem
    dsimp only [List.length_cons]
    split
    · exact ⟨hsingle, Nat.zero_le _⟩
    · rename_i rest heq
      rw [heq, List.length_cons] at hrest
      exact ⟨hsingle, Nat.le_trans (Nat.le_of_succ_le hrest) (Nat.le_add_right _ 2)⟩
    · exact ⟨hsingle, Nat.zero_le _⟩
    · rename_i rest _ heq
      rw [heq, List.length_cons] at hrest
      obtain ⟨hmembers, hbehind⟩ := ih.members rest
      refine ⟨List.forall_mem_cons.2 ⟨hitem, fun m hm => (hmembers m hm).mono (by omega)⟩, ?_⟩
      exact Nat.le_trans hbehind (Nat.le_trans (Nat.le_of_succ_le hrest) (Nat.le_add_right _ 2))
    · exact ⟨hsingle, Nat.zero_le _⟩
  · exact ⟨fun m hm => List.mem_singleton.1 hm ▸ .broken _, Nat.zero_le _⟩
  · exact ⟨fun m hm => List.mem_singleton.1 hm ▸ .broken _, Nat.zero_le _⟩
  · exact ⟨fun m hm => List.mem_singleton.1 hm ▸ .broken _, Nat.zero_le _⟩

theorem readsWithin (fuel : Nat) : ReadsWithin fuel := by
  induction fuel with
  | zero =>
      refine ⟨fun ts => ?_, fun ts => ?_, fun ts => ?_⟩
      · rw [readTree]
        exact ⟨.broken _, Nat.zero_le _⟩
      · rw [readItems]
        exact ⟨nofun, Nat.zero_le _, Nat.zero_le _⟩
      · rw [readMembers]
        exact ⟨nofun, Nat.zero_le _⟩
  | succ fuel ih => exact ⟨ih.succ_tree, ih.succ_items, ih.succ_members⟩

/-- A token has one byte at least. -/
theorem length_tokens_le (bytes : List UInt8) : (tokens bytes).length ≤ bytes.length := by
  fun_induction tokens bytes with
  | case1 => exact Nat.le_refl _
  | case2 b rest hspace ih => exact Nat.le_succ_of_le ih
  | case3 rest after hclosing hspace ih =>
      have hlt := length_closing hclosing
      simp only [List.length_cons]
      omega
  | case5 b rest hspace hquote hdigit n after hscan ih =>
      have hlt := length_scanNumber hscan
      simp only [List.length_cons] at hlt ⊢
      omega
  | case7 b rest hspace hquote hdigit t hb ih => exact Nat.succ_le_succ ih
  | case8 b rest hspace hquote hdigit t letters hb hpunctuation after hletters ih =>
      exact Nat.succ_le_succ (Nat.le_trans ih (length_expectLetters hletters))
  | case4 | case6 | case9 | case10 => exact Nat.succ_le_succ (Nat.zero_le _)

/-- No array that is read of a text has more items than the text has bytes. -/
theorem within_ofTokens (bytes : List UInt8) : (Tree.ofTokens (tokens bytes)).1.Within bytes.length :=
  ((readsWithin _).tree _).1.mono (length_tokens_le bytes)

/-- What a text is decoded to has been read off its tree. -/
theorem decode_of_run {α : Type} {d : Decoder α} {bytes : List UInt8} {a : α} (h : d.run bytes = .ok a) :
    d (Tree.ofTokens (tokens bytes)).1 = .ok a := by
  unfold Decoder.run at h
  generalize Tree.ofTokens (tokens bytes) = read at h ⊢
  obtain ⟨tree, rest⟩ := read
  obtain ⟨a', ha, h⟩ := bind_eq_ok_iff.1 h
  cases rest with
  | nil =>
      obtain rfl := Except.ok.inj h
      exact ha
  | cons => cases h

/-- A list has as many elements as its array has items. -/
theorem length_le_of_decode_list {α : Type} {d : Decoder α} {n : Nat} {t : Tree} (ht : t.Within n) {xs : List α}
    (h : Decoder.list d t = .ok xs) : xs.length ≤ n := by
  cases ht with
  | array e hlength hitems =>
      obtain ⟨ys, hys, h⟩ := bind_eq_ok_iff.1 h
      obtain ⟨-, -, h⟩ := bind_eq_ok_iff.1 h
      cases h
      exact (mapM_eq_ok_iff.1 hys).length_eq ▸ hlength
  | number v f => cases v <;> cases h
  | string v f => cases v <;> cases h
  | null | boolean | object | word | broken => cases h

namespace Fields

variable {α β δ τ : Type} {P : Tree → Prop}

/-- The values of a record have been read from trees of some kind, or stand for missing ones. -/
def ReadFrom (P : Tree → Prop) {τ δ : Type} : Fields τ δ → τ → Prop
  | done, _ => True
  | field f rest, (a, b) =>
    ((∃ t, P t ∧ f.decode t = .ok a) ∨ f.absent = some a ∨ f.short = some a) ∧ rest.ReadFrom P b

/-- What is known of the fields has been read from trees of some kind. -/
def KnownFrom (P : Tree → Prop) {τ δ : Type} : Fields τ δ → δ → Prop
  | done, _ => True
  | field f rest, (slot, d) => (∀ a ∈ slot, ∃ t, P t ∧ f.decode t = .ok a) ∧ rest.KnownFrom P d

theorem knownFrom_blank (fs : Fields τ δ) : fs.KnownFrom P fs.blank := by
  induction fs with
  | done => trivial
  | field f rest ih => exact ⟨nofun, ih⟩

theorem knownFrom_put? {fs : Fields τ δ} {name : String} {t : Tree} (ht : P t) {d d' : δ} (hd : fs.KnownFrom P d)
    (h : fs.put? name t d = some (.ok d')) : fs.KnownFrom P d' := by
  induction fs with
  | done => cases h
  | field f rest ih =>
      obtain ⟨slot, d⟩ := d
      obtain ⟨hslot, hrest⟩ := hd
      unfold put? at h
      split at h
      · cases slot with
        | some a => cases h
        | none =>
            obtain ⟨a, ha, rfl⟩ := map_eq_ok_iff.1 (Option.some.inj h)
            exact ⟨fun a' ha' => ⟨t, ht, Option.mem_some_iff.1 ha' ▸ ha⟩, hrest⟩
      · obtain ⟨result, hresult, h⟩ := Option.map_eq_some_iff.1 h
        obtain ⟨d'', rfl, rfl⟩ := map_eq_ok_iff.1 h
        exact ⟨hslot, ih hrest hresult⟩

theorem knownFrom_foldlM {fs : Fields τ δ} {ms : List (Tree × Tree)} (hms : ∀ m ∈ ms, P m.2) {d d' : δ}
    (hd : fs.KnownFrom P d) (h : ms.foldlM fs.member d = .ok d') : fs.KnownFrom P d' := by
  induction ms generalizing d with
  | nil =>
      cases h
      exact hd
  | cons m ms ih =>
      obtain ⟨hm, hms⟩ := List.forall_mem_cons.1 hms
      rw [List.foldlM_cons] at h
      obtain ⟨d₁, hmember, h⟩ := bind_eq_ok_iff.1 h
      refine ih hms ?_ h
      rw [member] at hmember
      obtain ⟨name, -, hmember⟩ := bind_eq_ok_iff.1 hmember
      cases hput : fs.put? name m.2 d with
      | some result =>
          rw [hput] at hmember
          dsimp only at hmember
          exact knownFrom_put? hm hd (hmember ▸ hput)
      | none =>
          rw [hput] at hmember
          dsimp only at hmember
          split at hmember
          · cases hmember
          · cases hmember
            exact hd

theorem readFrom_finish {fs : Fields τ δ} {d : δ} (hd : fs.KnownFrom P d) {a : τ} (h : fs.finish d = .ok a) :
    fs.ReadFrom P a := by
  induction fs with
  | done => trivial
  | field f rest ih =>
      obtain ⟨slot, d⟩ := d
      obtain ⟨hslot, hrest⟩ := hd
      rw [finish] at h
      split at h
      · rename_i a' ha
        obtain ⟨b, hb, rfl⟩ := map_eq_ok_iff.1 h
        refine ⟨?_, ih hrest hb⟩
        cases slot with
        | some a'' => exact .inl (hslot a' (by simpa using ha))
        | none => exact .inr (.inl (by simpa using ha))
      · cases h

theorem readFrom_ofArray {fs : Fields τ δ} {expected : String} {read : Nat} {xs : List Tree} {e : Ending}
    (hxs : ∀ x ∈ xs, P x) {a : τ} (h : fs.ofArray expected read xs e = .ok a) : fs.ReadFrom P a := by
  induction fs generalizing read xs with
  | done => trivial
  | field f rest ih =>
      cases xs with
      | nil =>
          rw [ofArray] at h
          obtain ⟨-, -, h⟩ := bind_eq_ok_iff.1 h
          split at h
          · rename_i a' ha
            obtain ⟨b, hb, h⟩ := bind_eq_ok_iff.1 h
            cases h
            exact ⟨.inr (.inr ha), ih hxs hb⟩
          · cases h
      | cons x xs =>
          obtain ⟨hx, hxs⟩ := List.forall_mem_cons.1 hxs
          rw [ofArray] at h
          obtain ⟨a', ha, h⟩ := bind_eq_ok_iff.1 h
          obtain ⟨b, hb, h⟩ := bind_eq_ok_iff.1 h
          cases h
          exact ⟨.inl ⟨x, hx, ha⟩, ih hxs hb⟩

/-- The values of a record are read from what stands in its object or array. -/
theorem readFrom_record {fs : Fields τ δ} {name : String} {n : Nat} {t : Tree} (ht : t.Within n) {a : τ}
    (h : (record name fs).decode t = .ok a) : fs.ReadFrom (Tree.Within n) a := by
  cases ht with
  | array e hlength hitems => exact readFrom_ofArray hitems h
  | object e hmembers =>
      obtain ⟨d, hd, h⟩ := bind_eq_ok_iff.1 h
      obtain ⟨-, -, h⟩ := bind_eq_ok_iff.1 h
      exact readFrom_finish (knownFrom_foldlM hmembers (knownFrom_blank fs) hd) h
  | number v f => cases h
  | string v f => cases h
  | null | boolean | word | broken => cases h

end Fields

end BuildGraph.Json

namespace BuildGraph.PipelineConfig

open Json

/-- A config has no more stages than its text has bytes. -/
theorem length_stages_le {bytes : List UInt8} {c : PipelineConfig} (h : ofBytes bytes = .ok c) :
    c.stages.length ≤ bytes.length := by
  have hread := decode_of_run h
  obtain ⟨⟨base, stages, _⟩, hrecord, rfl⟩ := map_eq_ok_iff.1 hread
  obtain ⟨-, hstages, -⟩ := Fields.readFrom_record (within_ofTokens bytes) hrecord
  rcases hstages with ⟨t, ht, hdecode⟩ | hmissing | hmissing
  · exact length_le_of_decode_list ht hdecode
  · cases hmissing
  · cases hmissing

end BuildGraph.PipelineConfig
