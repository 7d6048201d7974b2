import BuildGraph.Digest
import BuildGraph.Op.Wire
import BuildGraph.Platform

/-!
# Definitions

A definition is what an engine is given: operations in an order in which it could carry them out, the output that
is wanted, and the platform. An operation is identified by the digest of its own encoding, in which its inputs
are identified the same way, so a digest fixes everything that an operation depends on.

`Definition.toBytes` and `Definition.ofBytes` are the file format. Reading a definition checks its shape only;
whether it holds together is decided in `BuildGraph.Definition.Dag`.
-/

namespace BuildGraph

/-- One output of an operation of the same definition. -/
structure InputRef where
  digest : Digest
  index : Nat
deriving DecidableEq, Repr

/-- An operation, its inputs, and the digest that it is listed under. -/
structure DefinitionOp where
  digest : Digest
  inputs : List InputRef
  op : Op
deriving DecidableEq

/-- Operations, the wanted output (none for the empty filesystem) and the platform. -/
structure Definition where
  version : UInt32
  ops : List DefinitionOp
  root : Option InputRef
  platform : Platform
deriving DecidableEq

open Json Fields

def Digest.codec : Codec Digest := Codec.string.imap Digest.mk Digest.text

def InputRef.codec : Codec InputRef :=
  (record "InputRef" <|
    field (.required "digest" Digest.codec) <|
    field (.required "index" .index) done).imap
  (fun (digest, index, _) => ⟨digest, index⟩)
  (fun r => (r.digest, r.index, ()))

def DefinitionOp.codec : Codec DefinitionOp :=
  (record "DefinitionOp" <|
    field (.required "digest" Digest.codec) <|
    field (.required "inputs" (.list InputRef.codec)) <|
    field (.required "op" Op.codec) done).imap
  (fun (digest, inputs, op, _) => ⟨digest, inputs, op⟩)
  (fun o => (o.digest, o.inputs, o.op, ()))

def Definition.codec : Codec Definition :=
  (record "Definition" <|
    field (.required "version" .word32) <|
    field (.required "ops" (.list DefinitionOp.codec)) <|
    field (.optional "root" InputRef.codec) <|
    field (.required "platform" Platform.codec) done).imap
  (fun (version, ops, root, platform, _) => ⟨version, ops, root, platform⟩)
  (fun d => (d.version, d.ops, d.root, d.platform, ()))

/-- What the digest of an operation is taken of. -/
def bodyValue (inputs : List InputRef) (op : Op) : Value :=
  .object [("inputs", (Codec.list InputRef.codec).encode inputs), ("op", Op.codec.encode op)]

def bodyBytes (inputs : List InputRef) (op : Op) : List UInt8 := (bodyValue inputs op).compact

def bodyDigest (inputs : List InputRef) (op : Op) : Digest := Digest.ofBytes (bodyBytes inputs op)

namespace DefinitionOp

def computeDigest (o : DefinitionOp) : Digest := bodyDigest o.inputs o.op

def ofBody (inputs : List InputRef) (op : Op) : DefinitionOp := ⟨bodyDigest inputs op, inputs, op⟩

@[simp] theorem computeDigest_ofBody (inputs : List InputRef) (op : Op) :
    (ofBody inputs op).computeDigest = (ofBody inputs op).digest := rfl

end DefinitionOp

namespace Definition

def currentVersion : UInt32 := 1

def toBytes (d : Definition) : List UInt8 := (codec.encode d).compact

def toPrettyBytes (d : Definition) : List UInt8 := (codec.encode d).indented ++ [0x0a]

def ofBytes (bytes : List UInt8) : Except Error Definition := codec.decode.run bytes

def readFailure (e : Error) : String := "json error: " ++ e.message

/-- The operation listed first under a digest. -/
def op? (d : Definition) (digest : Digest) : Option DefinitionOp := d.ops.find? (·.digest == digest)

def rootOp? (d : Definition) : Option DefinitionOp := d.root.bind fun r => d.op? r.digest

end Definition

end BuildGraph
