import BuildGraph.ImageRef
import BuildGraph.Proofs.Check
import BuildGraph.Proofs.Graph.Repeats

/-!
# Complete image references are read as they are written

A complete reference is written `domain/path[:tag][@digest]` with nothing to mark where a part ends but the characters
in front of the next one. It is found again if no part has a character that would cut it elsewhere, and if nothing
would be filled in (`Canonical`). Cutting a text leaves such parts (`splitDigest`, `splitTag` and `splitDomain` each cut
in one place), and what is filled in is such a part as well, so whatever a text is read as is canonical
(`canonical_of_parse?`). Hence a normalized reference is its own normal form, and a graph cannot tell it from the
text it comes from (`normalize_canonical`).
-/

namespace BuildGraph

namespace Text

theorem trim_of_forall {cs : List Char} (h : ∀ c ∈ cs, isBlank c = false) : trim cs = cs := by
  have hkept : ∀ {ds : List Char}, (∀ c ∈ ds, isBlank c = false) → ds.dropWhile isBlank = ds := by
    intro ds hds
    cases ds with
    | nil => rfl
    | cons d ds => simp [hds d List.mem_cons_self]
  rw [trim, hkept h, hkept fun c hc => h c (List.mem_reverse.1 hc), List.reverse_reverse]

end Text

namespace ImageRef

/-- A part of a reference behind its mark, if there is one. -/
def marked (mark : Char) : Option (List Char) → List Char
  | some part => mark :: part
  | none => []

/-- Behind every colon there is a slash, so no colon begins a tag. -/
def Untagged (name : List Char) : Prop := ∀ front back, name = front ++ ':' :: back → '/' ∈ back

theorem untagged_of_notMem {name : List Char} (h : ':' ∉ name) : Untagged name := by
  intro front back hname
  simp [hname] at h

/-- What stands behind a slash decides whether there is a tag. -/
theorem untagged_append {front last : List Char} : Untagged (front ++ '/' :: last) ↔ Untagged last := by
  constructor
  · intro h x back hlast
    exact h (front ++ '/' :: x) back (by simp [hlast])
  · intro h x back hname
    rcases List.append_eq_append_iff.1 hname with ⟨middle, hx, hlast⟩ | ⟨middle, -, hback⟩
    · cases middle with
      | nil => simp at hlast
      | cons c middle => exact h middle back (List.cons.inj hlast).2
    · cases middle with
      | nil => simp at hback
      | cons c middle => simp [(List.cons.inj hback).2]

/-- The name in front of a digest has no `@`, and a digest has a colon. -/
theorem splitDigest_eq_ok_iff {text name : List Char} {digest : Option (List Char)} :
    splitDigest text = .ok (name, digest) ↔
      text = name ++ marked '@' digest ∧ '@' ∉ name ∧ ∀ d ∈ digest, ':' ∈ d := by
  constructor
  · intro h
    unfold splitDigest at h
    cases hcut : Text.cutFirst? '@' text with
    | none =>
        simp only [hcut, Except.ok.injEq, Prod.mk.injEq] at h
        obtain ⟨rfl, rfl⟩ := h
        simp [marked, Text.cutFirst?_eq_none_iff.1 hcut]
    | some cut =>
        obtain ⟨htext, hname⟩ := Text.cutFirst?_eq_some hcut
        simp only [hcut] at h
        split at h
        · rename_i hcolon
          cases h
          exact ⟨htext, hname, by simpa using hcolon⟩
        · cases h
  · rintro ⟨rfl, hname, hdigest⟩
    unfold splitDigest
    cases digest with
    | none => simp [marked, Text.cutFirst?_eq_none_iff.2 hname]
    | some d => simp [marked, Text.cutFirst?_append hname, hdigest d rfl]

/-- A tag has neither a colon nor a slash, and where there is none no colon begins one. -/
theorem splitTag_spec (name : List Char) :
    name = (splitTag name).1 ++ marked ':' (splitTag name).2 ∧ (∀ t ∈ (splitTag name).2, ':' ∉ t ∧ '/' ∉ t) ∧
      ((splitTag name).2 = none → Untagged name) := by
  unfold splitTag
  cases hslash : Text.cutLast? '/' name with
  | none =>
      rw [Text.cutLast?_eq_none_iff] at hslash
      cases hcolon : Text.cutLast? ':' name with
      | none => simp [marked, untagged_of_notMem (Text.cutLast?_eq_none_iff.1 hcolon)]
      | some cut =>
          obtain ⟨hname, htag⟩ := Text.cutLast?_eq_some hcolon
          have hbehind : '/' ∉ cut.2 := fun h => hslash (by simp [hname, h])
          simp [marked, htag, hbehind, ← hname]
  | some cut =>
      obtain ⟨hname, hlast⟩ := Text.cutLast?_eq_some hslash
      cases hcolon : Text.cutLast? ':' cut.2 with
      | none =>
          have huntagged : Untagged name := by
            rw [hname, untagged_append]
            exact untagged_of_notMem (Text.cutLast?_eq_none_iff.1 hcolon)
          simp [marked, hcolon, huntagged]
      | some cut' =>
          obtain ⟨hback, htag⟩ := Text.cutLast?_eq_some hcolon
          have hbehind : '/' ∉ cut'.2 := fun h => hlast (by simp [hback, h])
          simp [marked, hcolon, htag, hbehind, ← hback, ← hname]

theorem splitTag_append {tag : List Char} (hcolon : ':' ∉ tag) (hslash : '/' ∉ tag) (repo : List Char) :
    splitTag (repo ++ ':' :: tag) = (repo, some tag) := by
  unfold splitTag
  cases hrepo : Text.cutLast? '/' repo with
  | none =>
      have hname : Text.cutLast? '/' (repo ++ ':' :: tag) = none := by
        rw [Text.cutLast?_eq_none_iff] at hrepo ⊢
        simp [hrepo, hslash]
      simp [hname, Text.cutLast?_append hcolon]
  | some cut =>
      obtain ⟨rfl, hlast⟩ := Text.cutLast?_eq_some hrepo
      have hbehind : '/' ∉ cut.2 ++ ':' :: tag := by simp [hlast, hslash]
      have hname : cut.1 ++ '/' :: cut.2 ++ ':' :: tag = cut.1 ++ '/' :: (cut.2 ++ ':' :: tag) := by simp
      simp [hname, Text.cutLast?_append hbehind, Text.cutLast?_append hcolon]

theorem splitTag_of_untagged {name : List Char} (h : Untagged name) : splitTag name = (name, none) := by
  obtain ⟨hname, htag, -⟩ := splitTag_spec name
  cases hsplit : splitTag name with
  | mk repo tag =>
      rw [hsplit] at hname htag
      cases tag with
      | none => simp [hname, marked]
      | some t => exact absurd (h repo t hname) (htag t rfl).2

/-- A domain can be told from the first component of a path. Either it is written in front of the path, or it is the
default one and nothing is. -/
theorem splitDomain_spec (repo : List Char) :
    isDomain (splitDomain repo).1 = true ∧ '/' ∉ (splitDomain repo).1 ∧
      (repo = (splitDomain repo).1 ++ '/' :: (splitDomain repo).2 ∨
        (splitDomain repo).1 = defaultDomain ∧ repo = (splitDomain repo).2) := by
  have hdefault : isDomain defaultDomain = true ∧ '/' ∉ defaultDomain := by decide
  unfold splitDomain
  cases hcut : Text.cutFirst? '/' repo with
  | none => simp [hdefault]
  | some cut =>
      obtain ⟨hrepo, hslash⟩ := Text.cutFirst?_eq_some hcut
      cases hfirst : isDomain cut.1 with
      | true => simp [hfirst, hslash, ← hrepo]
      | false => simp [hfirst, hdefault]

theorem splitDomain_append {domain : List Char} (hdomain : isDomain domain = true) (hslash : '/' ∉ domain)
    (path : List Char) : splitDomain (domain ++ '/' :: path) = (domain, path) := by
  simp [splitDomain, Text.cutFirst?_append hslash, hdomain]

theorem officialPath_append (path : List Char) : officialPath ++ path = "library".toList ++ '/' :: path := rfl

theorem qualify_of_qualified {domain path : List Char} (h : domain = defaultDomain → '/' ∈ path) :
    qualify domain path = path := by
  rw [qualify, if_neg]
  exact fun hofficial => hofficial.2 (h hofficial.1)

/-- The name and the path that a path is brought to are both good if the path is. -/
theorem qualify_spec (domain path : List Char) :
    (domain = defaultDomain → '/' ∈ qualify domain path) ∧
      ([] ∉ path.splitOn '/' → [] ∉ (qualify domain path).splitOn '/') ∧
      (path.any Char.isUpper = false → (qualify domain path).any Char.isUpper = false) ∧
      (Untagged path → Untagged (qualify domain path)) := by
  unfold qualify
  split
  · rw [officialPath_append, List.splitOn_append_cons_self, untagged_append]
    refine ⟨fun _ => by simp, fun h => ?_, fun h => ?_, id⟩
    · rw [List.mem_append, not_or]
      exact ⟨by decide, h⟩
    · rw [List.any_append, List.any_cons, h]
      decide
  · rename_i hofficial
    refine ⟨fun hdomain => ?_, id, id, id⟩
    by_contra hslash
    exact hofficial ⟨hdomain, hslash⟩

/-- The reference without its digest. -/
def name (r : ImageRef) : List Char := r.domain ++ '/' :: r.path ++ marked ':' r.tag

theorem render_eq (r : ImageRef) : r.render = r.name ++ marked '@' r.digest := by
  obtain ⟨domain, path, tag, digest⟩ := r
  cases tag <;> cases digest <;> rfl

/-- A complete reference whose text is cut where its parts end. The path has components, none of them empty, and more
than one in the default domain. The part in front of the digest has no `@`, the domain has no slash, and a tag has
neither a colon nor a slash; where there is no tag no colon begins one. There is a tag or a digest. -/
structure Canonical (r : ImageRef) : Prop where
  domain : isDomain r.domain = true
  oneDomain : '/' ∉ r.domain
  components : [] ∉ r.path.splitOn '/'
  lowercase : r.path.any Char.isUpper = false
  qualified : r.domain = defaultDomain → '/' ∈ r.path
  tag : ∀ t ∈ r.tag, t ≠ [] ∧ ':' ∉ t ∧ '/' ∉ t
  untagged : r.tag = none → Untagged r.path
  digest : ∀ d ∈ r.digest, ':' ∈ d
  complete : r.tag = none → r.digest ≠ none
  oneName : '@' ∉ r.name
  noBlank : ∀ c ∈ r.render, Text.isBlank c = false

/-- The reference that is read from a text, unless its name is refused. -/
def ofName (name : List Char) (digest : Option (List Char)) : ImageRef :=
  let repo := splitDomain (splitTag name).1
  ⟨repo.1, qualify repo.1 repo.2,
    if (splitTag name).2 = none ∧ digest = none then some defaultTag else (splitTag name).2, digest⟩

theorem parse?_eq_ok_iff {text : List Char} {r : ImageRef} :
    parse? text = .ok r ↔
      Text.trim text ≠ [] ∧ (Text.trim text).any Text.isBlank = false ∧
        ∃ name digest, splitDigest (Text.trim text) = .ok (name, digest) ∧ (splitTag name).2 ≠ some [] ∧
          [] ∉ (splitDomain (splitTag name).1).2.splitOn '/' ∧
          (splitDomain (splitTag name).1).2.any Char.isUpper = false ∧ ofName name digest = r := by
  simp only [parse?, refuse_eq_ok_iff, bind_eq_ok_iff, Bool.not_eq_true, Prod.exists]
  simp only [pure, Except.pure, Except.ok.injEq, ofName, ne_eq]

theorem mem_splitDomain {c : Char} {repo : List Char}
    (h : c ∈ (splitDomain repo).1 ∨ c ∈ (splitDomain repo).2) : c ∈ repo ∨ c ∈ defaultDomain := by
  obtain ⟨-, -, hrepo | ⟨hdomain, hrepo⟩⟩ := splitDomain_spec repo
  · rw [hrepo, List.mem_append, List.mem_cons]
    tauto
  · rw [hdomain, ← hrepo] at h
    exact h.symm

theorem mem_qualify {c : Char} {domain path : List Char} (h : c ∈ qualify domain path) :
    c ∈ path ∨ c ∈ officialPath := by
  unfold qualify at h
  split at h
  · exact (List.mem_append.1 h).symm
  · exact .inl h

/-- What is filled in. -/
def filled : List Char := defaultDomain ++ '/' :: officialPath ++ ':' :: defaultTag

/-- In front of the digest there is nothing but what is read or filled in. -/
theorem mem_name_ofName {c : Char} {name : List Char} {digest : Option (List Char)}
    (h : c ∈ (ofName name digest).name) : c ∈ name ∨ c ∈ filled := by
  have hread : ∀ {c}, c ∈ (splitTag name).1 ∨ c ∈ marked ':' (splitTag name).2 → c ∈ name := by
    intro c hc
    rw [(splitTag_spec name).1]
    exact List.mem_append.2 hc
  have hrepo : ∀ {c}, c ∈ (splitDomain (splitTag name).1).1 ∨ c ∈ (splitDomain (splitTag name).1).2 →
      c ∈ name ∨ c ∈ filled := by
    intro c hc
    rcases mem_splitDomain hc with hc | hc
    · exact .inl (hread (.inl hc))
    · exact .inr (by simp [filled, hc])
  rcases List.mem_append.1 h with h | htag
  · rcases List.mem_append.1 h with hdomain | hpath
    · exact hrepo (.inl hdomain)
    · rcases List.mem_cons.1 hpath with rfl | hpath
      · exact .inr (by simp [filled])
      · rcases mem_qualify hpath with hpath | hofficial
        · exact hrepo (.inr hpath)
        · exact .inr (by simp [filled, hofficial])
  · unfold ofName at htag
    split at htag
    · exact .inr (List.mem_append_right _ htag)
    · exact .inl (hread (.inr htag))

/-- Whatever is read is canonical. -/
theorem canonical_of_parse? {text : List Char} {r : ImageRef} (h : parse? text = .ok r) : r.Canonical := by
  obtain ⟨-, hblank, name, digest, hdigest, htag, hcomponents, hlowercase, rfl⟩ := parse?_eq_ok_iff.1 h
  obtain ⟨htext, hname, hcolon⟩ := splitDigest_eq_ok_iff.1 hdigest
  obtain ⟨hrepo, htags, huntagged⟩ := splitTag_spec name
  obtain ⟨hdomain, hslash, hpath⟩ := splitDomain_spec (splitTag name).1
  obtain ⟨hqualified, hcomponents', hlowercase', huntagged'⟩ :=
    qualify_spec (splitDomain (splitTag name).1).1 (splitDomain (splitTag name).1).2
  have hnoTag : (ofName name digest).tag = none → (splitTag name).2 = none ∧ digest ≠ none := by
    intro hnone
    simp only [ofName] at hnone
    split at hnone
    · cases hnone
    · rename_i hgiven
      exact ⟨hnone, fun hdigest => hgiven ⟨hnone, hdigest⟩⟩
  refine ⟨hdomain, hslash, hcomponents' hcomponents, hlowercase' hlowercase, hqualified, ?tag, ?untagged, hcolon,
    fun hnone => (hnoTag hnone).2, ?oneName, ?noBlank⟩
  case tag =>
    intro t ht
    simp only [ofName] at ht
    split at ht
    · obtain rfl := Option.mem_some_iff.1 ht
      decide
    · refine ⟨fun hempty => htag ?_, htags t ht⟩
      rw [Option.mem_def.1 ht, hempty]
  case untagged =>
    intro hnone
    have hwhole := huntagged (hnoTag hnone).1
    rw [hrepo, (hnoTag hnone).1] at hwhole
    simp only [marked, List.append_nil] at hwhole
    refine huntagged' ?_
    rcases hpath with hsplit | ⟨-, hsame⟩
    · rw [hsplit] at hwhole
      exact untagged_append.1 hwhole
    · rwa [hsame] at hwhole
  case oneName =>
    intro hmem
    rcases mem_name_ofName hmem with hmem | hmem
    · exact hname hmem
    · exact absurd hmem (by decide)
  case noBlank =>
    intro c hc
    have hplain : c ∈ Text.trim text → Text.isBlank c = false := fun hc =>
      Bool.eq_false_iff.2 fun hc' => Bool.eq_false_iff.1 hblank (List.any_eq_true.2 ⟨c, hc, hc'⟩)
    rw [render_eq] at hc
    rcases List.mem_append.1 hc with hc | hc
    · rcases mem_name_ofName hc with hc | hc
      · exact hplain (htext ▸ List.mem_append_left _ hc)
      · have hfilled : filled.all (fun c => !Text.isBlank c) = true := by decide
        exact Bool.not_eq_true' _ ▸ List.all_eq_true.1 hfilled c hc
    · exact hplain (htext ▸ List.mem_append_right _ hc)

/-- A canonical reference is read from its text. -/
theorem parse?_render {r : ImageRef} (h : r.Canonical) : parse? r.render = .ok r := by
  have htrim := Text.trim_of_forall h.noBlank
  have hdigest : splitDigest r.render = .ok (r.name, r.digest) :=
    splitDigest_eq_ok_iff.2 ⟨r.render_eq, h.oneName, h.digest⟩
  have htag : splitTag r.name = (r.domain ++ '/' :: r.path, r.tag) := by
    rw [name]
    cases hr : r.tag with
    | none =>
        rw [marked, List.append_nil]
        exact splitTag_of_untagged (untagged_append.2 (h.untagged hr))
    | some t => exact splitTag_append (h.tag t hr).2.1 (h.tag t hr).2.2 _
  have hdomain : splitDomain (r.domain ++ '/' :: r.path) = (r.domain, r.path) :=
    splitDomain_append h.domain h.oneDomain r.path
  have hcomplete : ¬(r.tag = none ∧ r.digest = none) := fun hnone => h.complete hnone.1 hnone.2
  rw [parse?_eq_ok_iff, htrim]
  refine ⟨by simp [render_eq, name], ?_, r.name, r.digest, hdigest, ?_, ?_, ?_, ?_⟩
  · exact List.any_eq_false.2 fun c hc => Bool.eq_false_iff.1 (h.noBlank c hc)
  · rw [htag]
    exact fun hempty => (h.tag [] hempty).1 rfl
  · rw [htag, hdomain]
    exact h.components
  · rw [htag, hdomain]
    exact h.lowercase
  · simp only [ofName, htag, hdomain, qualify_of_qualified h.qualified, if_neg hcomplete]

theorem Canonical.ne_nil {r : ImageRef} (h : r.Canonical) : r.domain ≠ [] ∧ r.path ≠ [] := by
  refine ⟨fun hempty => ?_, fun hempty => ?_⟩
  · have hdomain := h.domain
    rw [hempty] at hdomain
    cases hdomain
  · have hcomponents := h.components
    rw [hempty] at hcomponents
    simp at hcomponents

/-- A normalized reference has no blanks and is a complete one: a domain, a path of components that are not empty, and
a tag that is not empty or a digest or both. It is read as the same parts again, so it is its own normal form, and it
makes the same vertex of a graph as the text that it comes from, at once or behind any other calls. -/
theorem normalize_canonical {text n : String} (h : normalize text = .ok n) :
    (∀ c ∈ n.toList, Text.isBlank c = false) ∧
      (∃ r : ImageRef, r.Canonical ∧ r.domain ≠ [] ∧ r.path ≠ [] ∧
        n.toList = r.domain ++ '/' :: r.path ++ marked ':' r.tag ++ marked '@' r.digest ∧
        parse? text.toList = .ok r ∧ parse? n.toList = .ok r) ∧
      normalize n = .ok n ∧
      ∀ g, ∃ s g', (Build.image text).run g = (.ok s, g') ∧ (Build.image n).run g = (.ok s, g') ∧
        ∀ calls : List Call,
          (Build.image n).run (calls.foldl Call.next g') = (.ok s, calls.foldl Call.next g') := by
  obtain ⟨r, hr, hn⟩ := map_eq_ok_iff.1 h
  have htext : n.toList = r.render := by rw [← hn, String.toList_ofList]
  have hcanonical := canonical_of_parse? hr
  have hagain : parse? n.toList = .ok r := htext ▸ parse?_render hcanonical
  have hnormal : normalize n = .ok n := map_eq_ok_iff.2 ⟨r, hagain, hn⟩
  refine ⟨htext ▸ hcanonical.noBlank, ?_, hnormal, fun g => ?_⟩
  · exact ⟨r, hcanonical, hcanonical.ne_nil.1, hcanonical.ne_nil.2, htext.trans r.render_eq, hr, hagain⟩
  · have hsame : (Build.image n).run g = (Build.image text).run g := by
      rw [Build.run_image, Build.run_image, h, hnormal]
    have hreplays := (Build.repeats_image n g).replays
    obtain ⟨s, g', hrun⟩ : ∃ s g', (Build.image n).run g = (.ok s, g') := by
      rw [Build.run_image, hnormal]
      exact ⟨_, _, rfl⟩
    rw [Build.Replays, hrun] at hreplays
    exact ⟨s, g', hsame ▸ hrun, hrun, hreplays⟩

/-- A port, a colon in the path, no tag, and a digest with further marks. -/
theorem normalize_canonical_port :
    normalize "	Quay.io:5000/a:b/c@sha256:0:1@x " = .ok "Quay.io:5000/a:b/c@sha256:0:1@x" ∧
      normalize "Quay.io:5000/a:b/c@sha256:0:1@x" = .ok "Quay.io:5000/a:b/c@sha256:0:1@x" := by
  have h : normalize "	Quay.io:5000/a:b/c@sha256:0:1@x " = .ok "Quay.io:5000/a:b/c@sha256:0:1@x" := by decide
  exact ⟨h, (normalize_canonical h).2.2.1⟩

/-- Where everything is left out, everything is filled in. -/
example : normalize "alpine" = .ok "docker.io/library/alpine:latest" := by decide

end ImageRef

end BuildGraph
