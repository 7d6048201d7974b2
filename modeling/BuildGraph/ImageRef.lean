import BuildGraph.Text.Blank
import BuildGraph.Text.Cut

/-!
# Image references

A reference names an image in a registry: `domain/path[:tag][@digest]`. A short one is completed the way a
registry client does it. The first component of a name is a domain when it has a dot or a colon in it or is
`localhost`, otherwise the domain is `docker.io`; there a path of one component lies below `library/`. With
neither tag nor digest the tag is `latest`. So `ImageRef.parse?` followed by `ImageRef.render` brings all
spellings of one image to the same text.
-/

namespace BuildGraph

/-- A complete image reference. -/
structure ImageRef where
  domain : List Char
  path : List Char
  tag : Option (List Char)
  digest : Option (List Char)
deriving DecidableEq, Repr

namespace ImageRef

/-- Why a text is no image reference. -/
inductive Problem
  | empty
  | blank
  | digest
  | tag
  | component
  | uppercase
deriving DecidableEq, Repr

def Problem.message : Problem → String
  | .empty => "reference is empty"
  | .blank => "reference contains whitespace"
  | .digest => "digest must be algorithm:hex"
  | .tag => "tag is empty"
  | .component => "repository path has an empty component"
  | .uppercase => "repository name must be lowercase"

def defaultDomain : List Char := "docker.io".toList

def officialPath : List Char := "library/".toList

def defaultTag : List Char := "latest".toList

/-- The name and the digest behind its `@`. -/
def splitDigest (text : List Char) : Except Problem (List Char × Option (List Char)) :=
  match Text.cutFirst? '@' text with
  | none => .ok (text, none)
  | some (name, digest) => if ':' ∈ digest then .ok (name, some digest) else .error .digest

/-- The repository and the tag. Only a colon behind the last slash begins a tag, one before it a port. -/
def splitTag (name : List Char) : List Char × Option (List Char) :=
  match Text.cutLast? '/' name with
  | none =>
    match Text.cutLast? ':' name with
    | none => (name, none)
    | some (repo, tag) => (repo, some tag)
  | some (front, last) =>
    match Text.cutLast? ':' last with
    | none => (name, none)
    | some (repo, tag) => (front ++ '/' :: repo, some tag)

/-- The first component of a name is read as a domain. -/
def isDomain (first : List Char) : Bool :=
  first.contains '.' || first.contains ':' || first == "localhost".toList

/-- The domain and the path of a repository. -/
def splitDomain (repo : List Char) : List Char × List Char :=
  match Text.cutFirst? '/' repo with
  | some (first, rest) => if isDomain first then (first, rest) else (defaultDomain, repo)
  | none => (defaultDomain, repo)

/-- A path of one component in the default domain is one of the official images. -/
def qualify (domain path : List Char) : List Char :=
  if domain = defaultDomain ∧ '/' ∉ path then officialPath ++ path else path

/-- The complete reference that a text stands for. -/
def parse? (text : List Char) : Except Problem ImageRef := do
  let text := Text.trim text
  if text = [] then throw .empty
  if text.any Text.isBlank then throw .blank
  let (name, digest) ← splitDigest text
  let (repo, tag) := splitTag name
  if tag = some [] then throw .tag
  let (domain, path) := splitDomain repo
  if [] ∈ path.splitOn '/' then throw .component
  if path.any Char.isUpper then throw .uppercase
  let tag := if tag = none ∧ digest = none then some defaultTag else tag
  return { domain, path := qualify domain path, tag, digest }

/-- The reference as text, nothing left out. -/
def render (r : ImageRef) : List Char :=
  r.domain ++ '/' :: r.path ++
    (match r.tag with | some t => ':' :: t | none => []) ++
    (match r.digest with | some d => '@' :: d | none => [])

/-- The complete text of a reference. -/
def normalize (text : String) : Except Problem String :=
  (parse? text.toList).map fun r => String.ofList r.render

end ImageRef

end BuildGraph
