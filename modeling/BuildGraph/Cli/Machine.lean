import BuildGraph.Platform

/-!
# The machine of a program file

A program file in the ELF format begins with a header that says which processor it was made for. The file of a
running program therefore tells the platform that it runs on. ELF is the format of Linux here, so a program in
any other format has no platform.
-/

namespace BuildGraph.Cli

/-- The first bytes of every ELF file. -/
def elfMagic : List UInt8 := [0x7f, 0x45, 0x4c, 0x46]

def processorOffset : Nat := 18

/-- The number of bytes of a header up to the number of the processor. -/
def headerSize : Nat := processorOffset + 2

/-- The processor of a number in an ELF header. -/
def processor? : Nat → Option Arch
  | 0x3e => some .amd64
  | 0xb7 => some .arm64
  | _ => none

def platformOfHeader? (header : List UInt8) : Option Platform :=
  if elfMagic.isPrefixOf header then
    match header.drop processorOffset with
    | low :: high :: _ => (processor? (low.toNat + 256 * high.toNat)).map fun arch => ⟨.linux, arch⟩
    | _ => none
  else none

end BuildGraph.Cli
