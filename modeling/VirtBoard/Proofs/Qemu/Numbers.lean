import VirtBoard.Proofs.Board.Composition
import VirtBoard.Proofs.Qemu.Settings
import VirtBoard.Proofs.Text.Integers

/-!
# Numbers from the flags to the command line

Five flags set a number.  Each takes exactly the integer texts of the numbers in its range and sets
exactly that number, and refuses any other text as it was given.  Where the command line shows such a
number, it shows its decimal text, which the flag takes again for the same number.
-/

namespace VirtBoard.Board

open Text (IsDecimal IsInteger isDecimal_toString placeValue)

namespace Options

/-! ## 1. Setting a number -/

/-- The number that a flag sets. -/
def number? (o : Options) : ValueFlag → Option Nat
  | .gic => some o.gic.toNat
  | .exceptionLevel => some o.exceptionLevel.toNat
  | .cpus => some o.cpus.toNat
  | .memory => some o.memory.toNat
  | .sshForward => some o.sshForward.toNat
  | _ => none

/-- The options with another number for a flag. -/
def withNumber (o : Options) (n : Nat) : ValueFlag → Options
  | .gic => { o with gic := .ofNat n }
  | .exceptionLevel => { o with exceptionLevel := .ofNat n }
  | .cpus => { o with cpus := .ofNat n }
  | .memory => { o with memory := .ofNat n }
  | .sshForward => { o with sshForward := .ofNat n }
  | _ => o

section Number

variable {f : ValueFlag} {bound n : Nat} {value : String} {o o' : Options} {e : UsageError}

theorem number?_withNumber (hf : f.bound? = some bound) (hn : n < bound) (o : Options) :
    (o.withNumber n f).number? f = some n := by
  cases f with
  | gic | exceptionLevel | cpus | memory =>
    obtain rfl := Option.some.inj hf
    exact congrArg some (UInt32.toNat_ofNat_of_lt' hn)
  | sshForward =>
    obtain rfl := Option.some.inj hf
    exact congrArg some (UInt16.toNat_ofNat_of_lt' hn)
  | _ => cases hf

theorem set_eq (hf : f.bound? = some bound) (o : Options) (value : String) :
    o.set f value =
      match Text.readInteger bound value with
      | some n => .ok (o.withNumber n f)
      | none => .error (.invalidInteger f.name value) := by
  cases f with
  | gic | exceptionLevel | cpus | memory =>
    obtain rfl := Option.some.inj hf
    simp only [set, integer32, integer]
    cases Text.readInteger UInt32.size value <;> rfl
  | sshForward =>
    obtain rfl := Option.some.inj hf
    simp only [set, integer16, integer]
    cases Text.readInteger UInt16.size value <;> rfl
  | _ => cases hf

theorem set_eq_ok_iff (hf : f.bound? = some bound) :
    o.set f value = .ok o' ↔
      ∃ digits, IsInteger value digits ∧ placeValue digits < bound ∧
        o' = o.withNumber (placeValue digits) f := by
  rw [set_eq hf]
  constructor
  · intro h
    cases hread : Text.readInteger bound value with
    | none =>
      rw [hread] at h
      cases h
    | some n =>
      rw [hread] at h
      obtain ⟨digits, hdigits, rfl, hlt⟩ := Text.readInteger_eq_some_iff.mp hread
      exact ⟨digits, hdigits, hlt, (Except.ok.inj h).symm⟩
  · rintro ⟨digits, hdigits, hlt, rfl⟩
    have hread : Text.readInteger bound value = some (placeValue digits) :=
      Text.readInteger_eq_some_iff.mpr ⟨digits, hdigits, rfl, hlt⟩
    rw [hread]

theorem set_eq_error_iff (hf : f.bound? = some bound) :
    o.set f value = .error e ↔
      e = .invalidInteger f.name value ∧
        ∀ digits, IsInteger value digits → ¬placeValue digits < bound := by
  constructor
  · intro h
    refine ⟨?_, fun digits hdigits hlt => ?_⟩
    · rw [set_eq hf] at h
      split at h
      next => cases h
      next => exact (Except.error.inj h).symm
    · have hok : o.set f value = .ok (o.withNumber (placeValue digits) f) :=
        (set_eq_ok_iff hf).mpr ⟨digits, hdigits, hlt, rfl⟩
      rw [h] at hok
      cases hok
  · rintro ⟨rfl, hnone⟩
    cases h : o.set f value with
    | ok o' =>
      obtain ⟨digits, hdigits, hlt, -⟩ := (set_eq_ok_iff hf).mp h
      exact absurd hlt (hnone digits hdigits)
    | error e =>
      rw [set_eq hf] at h
      split at h
      next => cases h
      next => rw [← Except.error.inj h]

/-- Behind a list that parses, a flag with a value only sets that value. -/
theorem parse_concat_setting {tokens : List String} (h : parse tokens = .ok o) (f : ValueFlag)
    (value : String) : parse (tokens ++ [Flag.token (.value f), value]) = o.set f value := by
  obtain ⟨hread, hend, hitems⟩ := parse_eq_ok_iff.mp h
  have hcut : Item.cut [Flag.token (.value f), value] = ([.setting f value], none) := by
    rw [Item.cut, Flag.ofToken?_token]
    rfl
  have hfold := foldlM_ofItems [] (Item.cut tokens).1
  rw [hread] at hfold
  have hdone : (Item.cut tokens).1.foldlM apply (ofItems []) = .ok o := by
    rw [hfold, ← hitems]
    rfl
  unfold parse
  rw [Item.cut_append hend, hcut]
  show ((Item.cut tokens).1 ++ [Item.setting f value]).foldlM apply (ofItems []) >>= pure = _
  rw [List.foldlM_append, hdone]
  show (o.set f value >>= pure) >>= pure = _
  rw [bind_pure, bind_pure]

/-- The usual decimal text of a number, which a flag takes for that number. -/
structure Prints (f : ValueFlag) (text : String) (n : Nat) : Prop where
  decimal : IsDecimal text n
  accepted : ∀ o : Options, o.set f text = .ok (o.withNumber n f)

theorem prints_toString (hf : f.bound? = some bound) (hn : n < bound) :
    Prints f (toString n) n where
  decimal := isDecimal_toString n
  accepted := by
    intro o
    rw [set_eq hf, Text.readInteger_toString hn]

end Number

end Options

end VirtBoard.Board

namespace VirtBoard.Qemu.Assembly

open Board
open Argument (values)
open Text (IsDecimal IsInteger placeValue push?)

/-! ## 2. Numbers in a command line -/

theorem read_network (o : Options) (sel : Selection) (env : Environment) :
    (values "-netdev" (arguments o sel env)).map OptionString.read = [networkReading o env.host] := by
  have htext : values "-netdev" (paravirtual o env.host) =
      [OptionString.ofProperties (networkReading o env.host)] := rfl
  rw [values_network, htext, List.map_singleton, read_networkReading]

theorem networkReading_of_user {o : Options} (h : o.tap = false) (host : Host) :
    networkReading o host = [.word "user",
      .pair "hostfwd" ("tcp::" ++ toString o.sshForward ++ "-:22"), .pair "id" "net0"] := by
  unfold networkReading
  rw [h]
  rfl

/-- A flag that sets a number takes a text exactly if it is an integer in the flag's range, whose
number it then sets without leaving that range at any digit, and refuses every other text as it is
given.  The numbers that the command line shows are taken again as they are shown. -/
theorem numbers_are_exact :
    (∀ (f : ValueFlag) (bound : Nat),
      f ∈ [.gic, .exceptionLevel, .cpus, .memory] ∧ bound = 2 ^ 32 ∨
        f = .sshForward ∧ bound = 2 ^ 16 →
      ∀ value : String,
        (∀ tokens o, Options.parse tokens = .ok o →
          Options.parse (tokens ++ ["-" ++ f.name, value]) = o.set f value) ∧
        (∀ o o' : Options, o.set f value = .ok o' ↔
          ∃ digits n, IsInteger value digits ∧ placeValue digits = n ∧ n < bound ∧
            digits.foldlM (push? bound) 0 = some n ∧
            o' = o.withNumber n f ∧ o'.number? f = some n) ∧
        ∀ (o : Options) (e : UsageError), o.set f value = .error e ↔
          e = .invalidInteger f.name value ∧
            ∀ digits, IsInteger value digits → ¬placeValue digits < bound) ∧
    ∀ (o : Options) (sel : Selection) (env : Environment) (i : Invocation),
      Invocation.assemble o sel env = .ok i →
      ∃ as cpus memory, Argument.read i.args = some as ∧
        values "-smp" as = [cpus] ∧ Options.Prints .cpus cpus o.cpus.toNat ∧
        values "-m" as = [memory] ∧ Options.Prints .memory memory o.memory.toNat ∧
        (o.tap = false → ∃ port, Options.Prints .sshForward port o.sshForward.toNat ∧
          (values "-netdev" as).map OptionString.read =
            [[.word "user", .pair "hostfwd" ("tcp::" ++ port ++ "-:22"), .pair "id" "net0"]]) := by
  refine ⟨fun f bound hbound value => ?_, fun o sel env i h => ?_⟩
  · have hf : f.bound? = some bound := by
      rcases hbound with ⟨hf, rfl⟩ | ⟨rfl, rfl⟩
      · simp only [List.mem_cons, List.not_mem_nil, or_false] at hf
        rcases hf with rfl | rfl | rfl | rfl <;> rfl
      · rfl
    have hpos : 0 < bound := by omega
    refine ⟨fun tokens o h => Options.parse_concat_setting h f value, fun o o' => ?_,
      fun o e => Options.set_eq_error_iff hf⟩
    rw [Options.set_eq_ok_iff hf]
    constructor
    · rintro ⟨digits, hdigits, hlt, rfl⟩
      refine ⟨digits, _, hdigits, rfl, hlt, ?_, rfl, Options.number?_withNumber hf hlt o⟩
      rw [Text.foldlM_push? hpos, if_pos hlt]
    · rintro ⟨digits, n, hdigits, rfl, hlt, -, rfl, -⟩
      exact ⟨digits, hdigits, hlt, rfl⟩
  · obtain ⟨hcpus, hmemory, -⟩ := values_of_boot o env
    refine ⟨arguments o sel env, toString o.cpus, toString o.memory, read_assembled h, ?_,
      Options.prints_toString rfl o.cpus.toNat_lt, ?_,
      Options.prints_toString rfl o.memory.toNat_lt, fun htap => ?_⟩
    · rw [values_boot (by decide), hcpus]
    · rw [values_boot (by decide), hmemory]
    · refine ⟨toString o.sshForward, Options.prints_toString rfl o.sshForward.toNat_lt, ?_⟩
      rw [read_network, networkReading_of_user htap]

/-- The largest number of all, behind a wide blank, a plus sign and zeros, is shown without them. -/
theorem largest_memory_is_shown :
    Options.parse ["-tap", "-mem", "\u2003+0004294967295\n"] =
        .ok { tap := true, memory := 4294967295 } ∧
      ∃ i, Invocation.assemble { tap := true, memory := 4294967295 } ⟨.max, .el1, .smmu, .hda⟩
          { version := ⟨8, 2, 0⟩ } = .ok i ∧
        ∃ as cpus memory, Argument.read i.args = some as ∧
          values "-smp" as = [cpus] ∧ Options.Prints .cpus cpus 4 ∧
          values "-m" as = [memory] ∧ Options.Prints .memory memory 4294967295 := by
  have hdigits : IsInteger "\u2003+0004294967295\n" "0004294967295".toList :=
    ⟨.inr (Text.trim_eq_iff.mp (by decide)), by decide, List.all_eq_true.mp (by decide)⟩
  obtain ⟨hparse, hset, -⟩ := numbers_are_exact.1 .memory (2 ^ 32) (.inl ⟨by decide, rfl⟩)
    "\u2003+0004294967295\n"
  obtain ⟨i, hi⟩ : ∃ i, Invocation.assemble { tap := true, memory := 4294967295 }
      ⟨.max, .el1, .smmu, .hda⟩ { version := ⟨8, 2, 0⟩ } = .ok i := ⟨_, rfl⟩
  obtain ⟨as, cpus, memory, has, hcpus, hprints, hmemory, hprints', -⟩ :=
    numbers_are_exact.2 _ _ _ i hi
  refine ⟨?_, i, hi, as, cpus, memory, has, hcpus, hprints, hmemory, hprints'⟩
  refine (hparse ["-tap"] { tap := true } rfl).trans ((hset _ _).mpr ?_)
  exact ⟨_, 4294967295, hdigits, by decide, by decide, by decide, rfl, rfl⟩

end VirtBoard.Qemu.Assembly
