import VirtBoard.Proofs.Qemu.OptionNames

/-!
# Looking up a value

A value is looked up among the words of a command line as they stand, names and values alike.  As
long as no value is the word that is looked up, the look-up finds what the emulator reads: the value
of the first option of that name.
-/

namespace VirtBoard.Qemu

/-! ## 1. Values of the options -/

namespace Argument

/-- The word in the place of a value, if the option takes one. -/
def value? : Argument → Option String
  | .alone _ => none
  | .option _ value => some value

/-- Only the switches come without a value, so a name that is no switch has one wherever it is. -/
theorem values_eq_nil_iff {n : String} {as : List Argument} (hlegible : ∀ a ∈ as, a.Legible)
    (hn : n ∉ switches) : values n as = [] ↔ n ∉ as.map name := by
  refine ⟨fun hnil hmem => ?_, values_eq_nil⟩
  obtain ⟨a, ha, hname⟩ := List.mem_map.mp hmem
  cases a with
  | alone m =>
    have hm : m ∈ switches := hlegible _ ha
    have hmn : m = n := hname
    rw [hmn] at hm
    exact hn hm
  | option m v =>
    have hmn : m = n := hname
    have hv : v ∈ values n as := by
      apply List.mem_filterMap.mpr
      exact ⟨.option m v, ha, if_pos hmn⟩
    rw [hnil] at hv
    cases hv

end Argument

/-! ## 2. Looking up among the words -/

namespace Invocation

open Argument (switches values words)

variable {program : Path} {disks : List DiskImage} {w n : String} {ws : List String}

theorem valueOf_nil : valueOf ⟨program, [], disks⟩ n = none :=
  rfl

theorem valueOf_cons_self : valueOf ⟨program, n :: ws, disks⟩ n = ws.head? := by
  show ((n :: ws).dropWhile (· ≠ n))[1]? = ws.head?
  rw [List.dropWhile_cons_of_neg (by simp), List.getElem?_cons_succ, List.head?_eq_getElem?]

theorem valueOf_cons_ne (h : w ≠ n) :
    valueOf ⟨program, w :: ws, disks⟩ n = valueOf ⟨program, ws, disks⟩ n := by
  show ((w :: ws).dropWhile (· ≠ n))[1]? = (ws.dropWhile (· ≠ n))[1]?
  rw [List.dropWhile_cons_of_pos (by simpa using h)]

/-- Options one after the other are passed over until one has the name. -/
theorem valueOf_words {as : List Argument} (hlegible : ∀ a ∈ as, a.Legible) (hn : n ∉ switches)
    (hvalues : ∀ a ∈ as, a.value? ≠ some n) :
    valueOf ⟨program, as.flatMap words, disks⟩ n = (values n as).head? := by
  induction as with
  | nil => exact valueOf_nil
  | cons a as ih =>
    have ih := ih (fun b hb => hlegible b (List.mem_cons_of_mem a hb))
      fun b hb => hvalues b (List.mem_cons_of_mem a hb)
    have ha := hlegible a List.mem_cons_self
    rw [List.flatMap_cons]
    cases a with
    | alone m =>
      -- A switch is no name that is looked up.
      have hm : m ≠ n := by
        intro he
        rw [he] at ha
        exact hn ha
      show valueOf ⟨program, m :: as.flatMap words, disks⟩ n = _
      rw [valueOf_cons_ne hm, ih, Argument.values_alone_cons]
    | option m v =>
      have hv : v ≠ n := by
        intro he
        apply hvalues _ List.mem_cons_self
        rw [he]
        rfl
      show valueOf ⟨program, m :: v :: as.flatMap words, disks⟩ n = _
      rw [Argument.values_option_cons]
      by_cases hm : m = n
      · rw [if_pos hm, hm, valueOf_cons_self]
        rfl
      · rw [if_neg hm, valueOf_cons_ne hm, valueOf_cons_ne hv, ih]

end Invocation

/-! ## 3. Looking up in an assembled command line -/

namespace Assembly

open Board
open Argument (name values)

/-- The value that is looked up is the value of the first option of that name as the emulator reads
the command line, and there is none exactly if there is no such option. -/
theorem valueOf_is_the_first_value {o : Options} {sel : Selection} {env : Environment}
    {i : Invocation} (h : Invocation.assemble o sel env = .ok i) {n : String}
    (hn : n ∉ ["-nographic", "-S", "-s"])
    (hvalues : ∀ as, Argument.read i.args = some as → ∀ a ∈ as, a.value? ≠ some n) :
    ∃ as, Argument.read i.args = some as ∧ i.valueOf n = (values n as).head? ∧
      (i.valueOf n = none ↔ n ∉ as.map name) := by
  have hread := read_assembled h
  have hlegible := legible_arguments o sel env
  have hvalue : i.valueOf n = (values n (arguments o sel env)).head? := by
    rw [assemble_ok h]
    exact Invocation.valueOf_words hlegible hn (hvalues _ hread)
  refine ⟨arguments o sel env, hread, hvalue, ?_⟩
  rw [hvalue, List.head?_eq_none_iff]
  exact Argument.values_eq_nil_iff hlegible hn

/-- Values that look like options, one of them like an option of the board itself. -/
theorem value_behind_deceptive_words :
    ∃ i, Invocation.assemble deceptiveOptions ⟨.max, .el3, .virtio, .hda⟩
        { kernel := ⟨"-drive"⟩, version := ⟨8, 2, 0⟩ } = .ok i ∧
      "-append" ∉ ["-nographic", "-S", "-s"] ∧
      (∀ as, Argument.read i.args = some as → ∀ a ∈ as, a.value? ≠ some "-append") ∧
      ∃ as, Argument.read i.args = some as ∧ i.valueOf "-append" = (values "-append" as).head? ∧
        (i.valueOf "-append" = none ↔ "-append" ∉ as.map name) := by
  obtain ⟨i, hi⟩ : ∃ i, Invocation.assemble deceptiveOptions ⟨.max, .el3, .virtio, .hda⟩
      { kernel := ⟨"-drive"⟩, version := ⟨8, 2, 0⟩ } = .ok i := ⟨_, rfl⟩
  have hname : "-append" ∉ ["-nographic", "-S", "-s"] := by decide
  have hvalues : ∀ as, Argument.read i.args = some as → ∀ a ∈ as, a.value? ≠ some "-append" := by
    intro as has
    rw [read_assembled hi] at has
    obtain rfl := Option.some.inj has
    decide
  exact ⟨i, hi, hname, hvalues, valueOf_is_the_first_value hi hname hvalues⟩

-- A kernel of that name hides the boot arguments: what stands behind it is found.
example :
    (Invocation.assemble {} ⟨.max, .el3, .virtio, .hda⟩
      { kernel := ⟨"-append"⟩, version := ⟨8, 2, 0⟩ }).map (·.valueOf "-append") =
        .ok (some "-append") := by
  rfl

end Assembly

end VirtBoard.Qemu
