import BuildGraph.Json.Codec
import BuildGraph.Op.Basic

/-!
# Operations as JSON

An operation is an object whose only key is its kind. Attributes and selectors are left out where there are
none; an absent input or output is null.
-/

namespace BuildGraph

open Json Fields

def Source.codec : Codec Source :=
  (record "SourceOp" <|
    field (.required "identifier" .string) <|
    field (.defaulted "attrs" .stringMap .empty StringMap.isEmpty) done).imap
  (fun (identifier, attrs, _) => ⟨identifier, attrs⟩)
  (fun s => (s.identifier, s.attrs, ()))

def Process.codec : Codec Process :=
  (record "ExecMeta" <|
    field (.required "args" (.list .string)) <|
    field (.required "env" (.list .string)) <|
    field (.required "cwd" .string) done).imap
  (fun (args, env, cwd, _) => ⟨args, env, cwd⟩)
  (fun p => (p.args, p.env, p.cwd, ()))

def MountPoint.codec : Codec MountPoint :=
  (record "MountOp" <|
    field (.optional "input" .index) <|
    field (.defaulted "selector" (.nullable .string) none Option.isNone) <|
    field (.required "dest" .string) <|
    field (.optional "output" .index) <|
    field (.required "readonly" .boolean) done).imap
  (fun (input, selector, dest, output, readonly, _) => ⟨input, selector, dest, output, readonly⟩)
  (fun m => (m.input, m.selector, m.dest, m.output, m.readonly, ()))

def Exec.codec : Codec Exec :=
  (record "ExecOp" <|
    field (.required "meta" Process.codec) <|
    field (.required "mounts" (.list MountPoint.codec)) done).imap
  (fun (process, mounts, _) => ⟨process, mounts⟩)
  (fun e => (e.process, e.mounts, ()))

def CopyFlags.codec : Codec CopyFlags :=
  (record "CopyInfo" <|
    field (.required "allow_wildcard" .boolean) <|
    field (.required "create_dest_path" .boolean) <|
    field (.required "attempt_unpack" .boolean) done).imap
  (fun (wildcard, create, unpack, _) => ⟨wildcard, create, unpack⟩)
  (fun f => (f.allowWildcard, f.createDestPath, f.attemptUnpack, ()))

def Copy.codec : Codec Copy :=
  (record "CopyOp" <|
    field (.optional "dest_input" .index) <|
    field (.optional "src_input" .index) <|
    field (.required "src" .string) <|
    field (.required "dest" .string) <|
    field (.required "info" CopyFlags.codec) done).imap
  (fun (destInput, srcInput, src, dest, flags, _) => ⟨destInput, srcInput, src, dest, flags⟩)
  (fun c => (c.destInput, c.srcInput, c.src, c.dest, c.flags, ()))

def Merge.codec : Codec Merge :=
  (record "MergeOp" <|
    field (.required "inputs" (.list .index)) done).imap
  (fun (inputs, _) => ⟨inputs⟩)
  (fun m => (m.inputs, ()))

def Op.codec : Codec Op where
  encode
    | .source s => .object [("source", Source.codec.encode s)]
    | .exec e => .object [("exec", Exec.codec.encode e)]
    | .copy c => .object [("copy", Copy.codec.encode c)]
    | .merge m => .object [("merge", Merge.codec.encode m)]
  decode := Decoder.oneOf [
    .carrying "source" fun t => (Source.codec.decode t).map .source,
    .carrying "exec" fun t => (Exec.codec.decode t).map .exec,
    .carrying "copy" fun t => (Copy.codec.decode t).map .copy,
    .carrying "merge" fun t => (Merge.codec.decode t).map .merge]

end BuildGraph
