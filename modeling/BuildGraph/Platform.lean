import BuildGraph.Json.Codec

/-!
# Platforms

A definition is made for one operating system and one processor architecture. Which one does not depend on the
machine that makes it: it is always `Platform.target`.
-/

namespace BuildGraph

inductive Os
  | linux
  | darwin
  | windows
deriving DecidableEq, Repr

def Os.name : Os → String
  | linux => "linux"
  | darwin => "darwin"
  | windows => "windows"

inductive Arch
  | amd64
  | arm64
deriving DecidableEq, Repr

def Arch.name : Arch → String
  | amd64 => "amd64"
  | arm64 => "arm64"

structure Platform where
  os : Os
  arch : Arch
deriving DecidableEq, Repr

/-- The platform that definitions are made for. -/
def Platform.target : Platform := ⟨.linux, .amd64⟩

def Platform.text (p : Platform) : String := p.os.name ++ "/" ++ p.arch.name

open Json Fields

def Os.codec : Codec Os where
  encode os := .string os.name
  decode := .oneOf ([Os.linux, .darwin, .windows].map fun os => .plain os.name os)

def Arch.codec : Codec Arch where
  encode arch := .string arch.name
  decode := .oneOf ([Arch.amd64, .arm64].map fun arch => .plain arch.name arch)

def Platform.codec : Codec Platform :=
  (record "Platform" <|
    field (.required "os" Os.codec) <|
    field (.required "architecture" Arch.codec) done).imap
  (fun (os, arch, _) => ⟨os, arch⟩)
  (fun p => (p.os, p.arch, ()))

end BuildGraph
