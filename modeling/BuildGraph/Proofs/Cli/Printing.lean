import BuildGraph.Cli.Run
import BuildGraph.Proofs.Json.Trees
import BuildGraph.Proofs.Plan

/-!
# Printed plans

What the program prints of a plan can be read. As JSON it is an object that has each part of the plan under its name
(`Plan.HasMembers`). As text it is a page with a line for each operation, wave by wave, on which digests are short
(`Plan.page`). This is how plans of hashes are printed (`Plan.Hashed.prints`).
-/

namespace BuildGraph

open Cli (Ended OutputFormat)
open Json

namespace Plan

/-- The members of a plan as JSON. Stages and the hash of a file are only mentioned if there are any. -/
structure HasMembers (p : Plan) (ms : List (String × Value)) : Prop where
  nodup : (ms.map (·.1)).Nodup
  platform : ms.lookup "platform" = some (.string (p.platform.os.name ++ "/" ++ p.platform.arch.name))
  root : ms.lookup "root" = some ((p.root.map fun digest => .string digest.text).getD .null)
  ops : ms.lookup "ops" = some (.natural p.ops)
  waves : ms.lookup "waves" = some (.array (p.waves.map fun wave => .array (wave.map fun o =>
    .object [("digest", .string o.digest.text), ("kind", .string o.kind), ("description", .string o.description)])))
  stages : ms.lookup "stages" = if p.stages = [] then none else some (.array (p.stages.map fun s =>
    .object [("name", .string s.name), ("export_path", .string s.exportPath), ("shadowed", .boolean s.shadowed)]))
  fileHash : ms.lookup "file_hash" = p.fileHash.map .string

/-- The line of an operation, with its kind in a column of six characters. -/
def opText (o : PlanOp) : String :=
  "  • " ++ o.digest.brief ++ " " ++ String.ofList (o.kind.toList.rightpad 6 ' ') ++ " " ++ o.description

/-- The lines of a plan as text. -/
def page (p : Plan) : List String :=
  ["  Ops: " ++ toString p.ops, "  Waves: " ++ toString p.waves.length] ++
    p.root.toList.map (fun digest => "  Root: " ++ digest.brief) ++
    p.fileHash.toList.map (fun hash => "  File: " ++ Digest.firstDigits hash) ++
    (p.waves.zipIdx 1).flatMap (fun w => ["", "Wave " ++ toString w.2 ++ ":"] ++ w.1.map opText) ++
    if p.stages = [] then [] else ["", "Stages:"] ++ p.stages.map fun s => "  " ++ s.name ++ " → " ++ s.exportPath

/-- The program ends well and has printed the plan. As text, the platform and what is overlaid are on the standard
error. -/
def Prints (p : Plan) : OutputFormat → Ended → Prop
  | .json, e => e.code = 0 ∧ e.behind = [] ∧ ∃ ms, Value.ReadFrom (.object ms) e.stdout ∧ p.HasMembers ms
  | .text, e => e.code = 0 ∧ e.stdout = (p.page.map (· ++ "\n")).flatMap utf8 ∧
      e.behind = ("✓ Plan for " ++ p.platform.os.name ++ "/" ++ p.platform.arch.name) ::
        (p.stages.filter (·.shadowed)).map fun s =>
          "⚠ output of stage '" ++ s.name ++ "' at " ++ s.exportPath ++ " is overlaid by a later stage"

end Plan

theorem Json.utf8_append (s t : String) : utf8 (s ++ t) = utf8 s ++ utf8 t := by
  simp [utf8]

theorem Digest.HasHash.plan_short {d : Digest} {hash : String} (h : d.HasHash hash) : Plan.short d.text = d.brief := by
  rw [Plan.short, ← Digest.short?, h.short?_eq, Option.getD_some, h.brief_eq]

theorem Cli.linesBytes_eq_flatMap (lines : List String) :
    linesBytes lines = (lines.map (· ++ "\n")).flatMap utf8 := by
  have hnewline : utf8 "\n" = [0x0a] := rfl
  simp only [linesBytes, List.flatMap_map, utf8_append, hnewline]

namespace Plan

theorem padTo_eq_rightpad (width : Nat) (s : String) : padTo width s = String.ofList (s.toList.rightpad width ' ') := by
  rw [padTo, List.rightpad, String.ofList_append, String.ofList_toList, String.length_toList]

theorem opLine_eq {o : PlanOp} {hash : String} (h : o.digest.HasHash hash) : opLine o = opText o := by
  rw [opLine, opText, h.plan_short, padTo_eq_rightpad]

/-- Each wave has its number, and its operations have their lines. -/
theorem waveLines_eq {waves : List (List PlanOp)} (h : ∀ wave ∈ waves, ∀ o ∈ wave, ∃ hash, o.digest.HasHash hash)
    (number : Nat) :
    waveLines number waves =
      (waves.zipIdx number).flatMap fun w => ["", "Wave " ++ toString w.2 ++ ":"] ++ w.1.map opText := by
  induction waves generalizing number with
  | nil => rfl
  | cons wave waves ih =>
      obtain ⟨hwave, hwaves⟩ := List.forall_mem_cons.1 h
      have hops : wave.map opLine = wave.map opText := by
        refine List.map_congr_left fun o ho => ?_
        obtain ⟨hash, hhash⟩ := hwave o ho
        exact opLine_eq hhash
      rw [waveLines, ih hwaves, hops, List.zipIdx_cons, List.flatMap_cons]

/-- What is said on the standard error, as it is written there. -/
theorem notes_eq (p : Plan) :
    (.success ("Plan for " ++ p.platform.text) :: p.warnings.map .warning : List Cli.Note).map Cli.Note.text =
      ("✓ Plan for " ++ p.platform.os.name ++ "/" ++ p.platform.arch.name) ::
        (p.stages.filter (·.shadowed)).map fun s =>
          "⚠ output of stage '" ++ s.name ++ "' at " ++ s.exportPath ++ " is overlaid by a later stage" := by
  simp only [warnings, List.map_cons, List.map_map, Function.comp_def, Cli.Note.text, Platform.text,
    ← String.append_assoc]
  rfl

theorem stageLines_eq (stages : List PlanStage) :
    stageLines stages =
      if stages = [] then [] else ["", "Stages:"] ++ stages.map fun s => "  " ++ s.name ++ " → " ++ s.exportPath := by
  cases stages <;> rfl

theorem hasMembers_value (p : Plan) : ∃ ms, p.value = .object ms ∧ p.HasMembers ms := by
  obtain ⟨platform, root, ops, waves, stages, fileHash⟩ := p
  refine ⟨_, rfl, ?_⟩
  -- the members that there are depend on the stages and on the hash of the file
  cases stages <;> cases fileHash <;> cases root <;> exact ⟨by simp, rfl, rfl, rfl, rfl, rfl, rfl⟩

namespace Hashed

variable {p : Plan}

theorem lines_eq_page (h : p.Hashed) : p.lines = p.page := by
  have hroot : ∀ digest ∈ p.root, stat "Root" (short digest.text) = "  Root: " ++ digest.brief := by
    intro digest hdigest
    obtain ⟨hash, hhash⟩ := h.root digest hdigest
    rw [hhash.plan_short]
    rfl
  have hfile : ∀ hash ∈ p.fileHash, stat "File" (short hash) = "  File: " ++ Digest.firstDigits hash := by
    intro hash hhash
    rw [short, Digest.shorten?_hash (h.fileHash hash hhash)]
    rfl
  rw [lines, page, waveLines_eq h.ops, stageLines_eq]
  cases hdigest : p.root <;> cases hhash : p.fileHash <;>
    simp only [hroot, hfile, hdigest, hhash, Option.mem_def, Option.toList_some, Option.toList_none, List.map_cons,
      List.map_nil] <;>
    rfl

/-- A plan of hashes is printed in either format. -/
theorem prints (h : p.Hashed) (format : OutputFormat) (overlaps : List Overlap) :
    p.Prints format (.of (.ok (Cli.planReport format p overlaps))) := by
  cases format with
  | json =>
      obtain ⟨ms, hvalue, hms⟩ := p.hasMembers_value
      refine ⟨rfl, rfl, ms, ?_, hms⟩
      have hspacing : ∀ b ∈ [(0x0a : UInt8)], isSpacing b = true := List.forall_mem_singleton.2 rfl
      rw [← hvalue]
      exact readFrom_write blank_indented p.value [0x0a] hspacing
  | text =>
      refine ⟨rfl, ?_, p.notes_eq⟩
      rw [← h.lines_eq_page]
      exact Cli.linesBytes_eq_flatMap p.lines

end Hashed

end Plan

end BuildGraph
