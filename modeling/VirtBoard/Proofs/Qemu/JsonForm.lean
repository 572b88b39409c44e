import VirtBoard.Proofs.Json.Grammar
import VirtBoard.Qemu.Invocation

/-!
# Invocations as JSON

Everything of an invocation can be read back from its JSON text: the program, the arguments and the
disks, in order, whatever characters they are made of.
-/

namespace VirtBoard

/-! ## 1. Reading an invocation -/

namespace Json

def text? : Json → Option String
  | .str s => some s
  | _ => none

def elements? : Json → Option (List Json)
  | .arr es => some es
  | _ => none

end Json

namespace Qemu

def DiskImage.ofJson? (j : Json) : Option DiskImage := do
  let role ← (← j.field? "role").text?
  let name ← (← j.field? "name").text?
  return ⟨role, name⟩

namespace Invocation

def ofJson? (j : Json) : Option Invocation := do
  let program ← (← j.field? "program").text?
  let args ← (← (← j.field? "args").elements?).mapM Json.text?
  let disks ← (← (← j.field? "disks").elements?).mapM DiskImage.ofJson?
  return ⟨⟨program⟩, args, disks⟩

/-- The texts of an invocation, one for each layout. -/
def jsonTexts (i : Invocation) : List String :=
  [i.toJson.pretty, i.toJson.compact]

/-! ## 2. Nothing is lost -/

theorem mapM_map_some {α β : Type} {f : α → β} {g : β → Option α} (h : ∀ a, g (f a) = some a)
    (as : List α) : (as.map f).mapM g = some as := by
  induction as with
  | nil => rfl
  | cons a as ih =>
    rw [List.map_cons, List.mapM_cons, h, ih]
    rfl

theorem ofJson?_toJson (i : Invocation) : ofJson? i.toJson = some i := by
  have hprogram : i.toJson.field? "program" = some (.str i.program.text) := rfl
  have hargs : i.toJson.field? "args" = some (.arr (i.args.map .str)) := rfl
  have hdisks : i.toJson.field? "disks" = some (.arr (i.disks.map fun d =>
      .obj [("role", .str d.role), ("name", .str d.name)])) := rfl
  have hreadArgs : (i.args.map Json.str).mapM Json.text? = some i.args := by
    apply mapM_map_some
    exact fun _ => rfl
  have hreadDisks : (i.disks.map fun d =>
      Json.obj [("role", .str d.role), ("name", .str d.name)]).mapM DiskImage.ofJson? =
        some i.disks := by
    apply mapM_map_some
    exact fun _ => rfl
  unfold ofJson?
  rw [hprogram, hargs, hdisks]
  simp only [Option.bind_eq_bind, Option.bind_some, Json.text?, Json.elements?, hreadArgs,
    hreadDisks]
  rfl

theorem read_of_mem_jsonTexts {i : Invocation} {text : String} (h : text ∈ i.jsonTexts) :
    Json.read text = some i.toJson := by
  simp only [jsonTexts, List.mem_cons, List.not_mem_nil, or_false] at h
  rcases h with rfl | rfl
  · exact Json.read_pretty i.toJson
  · exact Json.read_compact i.toJson

/-- The JSON texts of an invocation are well-formed and have one meaning, from which the whole
invocation is read.  So no other invocation has the same text. -/
theorem json_carries_the_invocation (i : Invocation) :
    (∀ text ∈ i.jsonTexts, (∀ j, Json.IsTextOf text j ↔ j = i.toJson) ∧
      (Json.read text).bind ofJson? = some i) ∧
    ∀ i' : Invocation, ∀ text ∈ i.jsonTexts, text ∈ i'.jsonTexts → i = i' := by
  refine ⟨fun text htext => ?_, fun i' text htext htext' => ?_⟩
  · have hread := read_of_mem_jsonTexts htext
    refine ⟨fun j => ?_, ?_⟩
    · rw [← Json.read_eq_some_iff, hread, Option.some.injEq]
      exact eq_comm
    · rw [hread, Option.bind_some, ofJson?_toJson]
  · have hsame := (read_of_mem_jsonTexts htext).symm.trans (read_of_mem_jsonTexts htext')
    have hinvocation := congrArg ofJson? (Option.some.inj hsame)
    rw [ofJson?_toJson, ofJson?_toJson] at hinvocation
    exact Option.some.inj hinvocation

/-- An invocation with all that has to be escaped, and with nothing in its lists but that. -/
def awkward : Invocation where
  program := ⟨"C:\\qemu"⟩
  args := ["", "\x00\t\"é\""]
  disks := []

theorem awkward_is_carried :
    awkward.toJson.compact = "\x7b\"program\":\"C:\\\\qemu\"," ++
        "\"args\":[\"\",\"\\u0000\\t\\\"é\\\"\"],\"disks\":[]\x7d" ∧
      (∀ j, Json.IsTextOf awkward.toJson.compact j ↔ j = awkward.toJson) ∧
      (Json.read awkward.toJson.compact).bind ofJson? = some awkward :=
  ⟨by decide +kernel, (json_carries_the_invocation awkward).1 _ (by simp [jsonTexts])⟩

end Invocation

end Qemu

end VirtBoard
