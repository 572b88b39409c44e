import VirtBoard.Launch.Pipeline
import VirtBoard.Proofs.Action.Steps
import VirtBoard.Proofs.Qemu.UserText

/-!
# The jobs of a launch with overlays

The temporary files of a launch with overlays, the programs that it starts and the commands that
start them.
-/

namespace VirtBoard.Launch

open Board DeviceTree FileSystem Qemu

/-! ## 1. Temporary files -/

inductive Temporary where
  | dumpBinary
  | dumpSource
  | mergedSource
  | expandedSource
  | mergedBinary
deriving DecidableEq

def Temporary.name : Temporary → String
  | .dumpBinary => "qemu.tmp.dtb"
  | .dumpSource => "qemu.tmp.dts"
  | .mergedSource => "qemu.run.dts"
  | .expandedSource => "qemu.run.dts.tmp"
  | .mergedBinary => "qemu.run.dtb"

theorem Temporary.fileName (t : Temporary) : FileName t.name := by
  cases t <;> decide

theorem Temporary.name_ne {t u : Temporary} (h : t ≠ u) : t.name ≠ u.name := by
  -- Twenty-five cases, of which five are excluded.
  cases t <;> cases u <;> first | exact absurd rfl h | decide

namespace Pipeline

/-- Where a temporary file stands. -/
def temporary (p : Pipeline) (t : Temporary) : Path :=
  p.work.join ⟨t.name⟩

/-- What stands under the name of a temporary file. -/
def standing (p : Pipeline) (m : Machine) (fs : Files) (t : Temporary) : Option Entry :=
  fs.named? m.cwd (p.temporary t)

def Present (p : Pipeline) (m : Machine) (fs : Files) (t : Temporary) : Prop :=
  p.standing m fs t ≠ none

theorem treeBinary_mergedSource (p : Pipeline) :
    (p.temporary .mergedSource).treeBinary = p.temporary .mergedBinary :=
  @Path.withExtension_join "qemu.run".toList "dts".toList "dtb" (by decide) (by decide)
    (by decide) (by decide) p.work

theorem expanded_mergedSource (p : Pipeline) :
    Toolchain.expanded (p.temporary .mergedSource) = p.temporary .expandedSource :=
  Path.append_join (by decide) (by decide) p.work

-- All names but one have the same length.
theorem checkPath_temporary {p : Pipeline} {t u : Temporary} (ht : t ≠ .expandedSource)
    (h : Files.checkPath (p.temporary u) = .ok ()) : Files.checkPath (p.temporary t) = .ok () := by
  refine checkPath_join t.fileName.1 u.fileName.1 ?_ ?_ h
  · cases t <;> first | exact absurd rfl ht | (cases u <;> decide)
  · cases t <;> decide

end Pipeline

/-! ## 2. Jobs and their commands -/

inductive Job where
  /-- The emulator dumps its tree. -/
  | dump
  | decompile
  /-- The bundled compiler is built. -/
  | build
  | preprocess
  | compile
  /-- The emulator boots with the merged tree. -/
  | relaunch
deriving DecidableEq

/-- What a job is there to write. -/
def Job.output : Job → Option Temporary
  | .dump => some .dumpBinary
  | .decompile => some .dumpSource
  | .build => none
  | .preprocess => some .expandedSource
  | .compile => some .mergedBinary
  | .relaunch => none

/-- What a job makes something of. -/
def Job.input : Job → Option Temporary
  | .dump => none
  | .decompile => some .dumpBinary
  | .build => none
  | .preprocess => some .mergedSource
  | .compile => some .expandedSource
  | .relaunch => none

namespace Pipeline

/-- The jobs in order.  The bundled compiler is built only if no other one was given. -/
def jobs (p : Pipeline) : List Job :=
  [.dump, .decompile] ++ (if p.tools.compiler.isNone then [.build] else []) ++
    [.preprocess, .compile, .relaunch]

def emulator (p : Pipeline) (o : Options) : Option Command :=
  match Invocation.assemble o p.selection p.environment with
  | .ok i => some ⟨i.program, i.args⟩
  | .error _ => none

/-- The programs that compile the merged source. -/
def chain (p : Pipeline) : Toolchain where
  compiler := p.tools.compiler.getD ((p.tools.root.join compilerDir).join ⟨"dtc"⟩)
  preprocessor := p.tools.preprocessor.getD ⟨"cpp"⟩
  includes := [p.tools.root.join headerDir]

def command? (p : Pipeline) (m : Machine) (fs : Files) : Job → Option Command
  | .dump => p.emulator p.dumpOptions
  | .decompile =>
    (p.tools.compiler.or (m.which fs ⟨"dtc"⟩)).map fun dtc =>
      ⟨dtc, Toolchain.decompileArgs (p.temporary .dumpBinary) (p.temporary .dumpSource)⟩
  | .build =>
    (m.which fs ⟨"scons"⟩).map fun scons =>
      ⟨scons, ["-C", (p.tools.root.join compilerDir).text]⟩
  | .preprocess =>
    (m.which fs p.chain.preprocessor).map fun cpp =>
      ⟨cpp, p.chain.preprocessArgs (p.temporary .mergedSource) (p.temporary .expandedSource)⟩
  | .compile =>
    some ⟨p.chain.compiler,
      Toolchain.compileArgs (p.temporary .expandedSource) (p.temporary .mergedBinary)⟩
  | .relaunch => p.emulator (p.relaunchOptions (p.temporary .mergedBinary))

def Does (p : Pipeline) (m : Machine) (j : Job) (r : Run) : Prop :=
  p.command? m r.start.files j = some r.start.command

/-- Every run of a job, whatever ran before, changes the files in a certain way. -/
def Behaves (p : Pipeline) (m : Machine) (j : Job) (change : Files → Files → Prop) : Prop :=
  ∀ before start effect, p.command? m start.files j = some start.command →
    m.programs before start = some effect → change start.files effect.files

end Pipeline

/-! ## 3. Trees on the emulator's command line -/

/-- The path that a property of the machine tells to dump the tree to. -/
def dumpPath : Property → Option String
  | .pair "dumpdtb" path => some path
  | _ => none

/-- The paths that the emulator is told to dump its tree to. -/
def dumpTargets (args : List String) : Option (List String) :=
  (Argument.read args).map fun as =>
    ((Argument.values "-M" as).map OptionString.read).flatMap (·.filterMap dumpPath)

/-- The trees that the emulator is told to boot with. -/
def bootTrees (args : List String) : Option (List String) :=
  (Argument.read args).map (Argument.values "-dtb")

theorem values_tree (o : Options) (sel : Selection) (env : Environment) :
    Argument.values "-dtb" (Assembly.arguments o sel env) = (o.tree.map (·.text)).toList := by
  have hmachine : Argument.values "-dtb" [Assembly.machine o sel] = [] :=
    Argument.values_eq_nil (by simp)
  have hboot : Argument.values "-dtb" (Assembly.boot o env) = (o.tree.map (·.text)).toList := by
    unfold Assembly.boot
    cases o.tree <;> cases o.initrd <;> rfl
  have hdisplay : Argument.values "-dtb" (Assembly.display o) = [] := by
    apply Argument.values_eq_nil
    rw [Assembly.names_display]
    split <;> simp
  have hdebug : Argument.values "-dtb" (Assembly.debugStub o) = [] :=
    Argument.values_eq_nil (by rw [Assembly.names_debugStub]; split <;> simp)
  have hparavirtual : Argument.values "-dtb" (Assembly.paravirtual o env.host) = [] :=
    Argument.values_eq_nil (by simp [Assembly.names_paravirtual])
  have hshare : Argument.values "-dtb" (Assembly.sharedDirectory o) = [] :=
    Argument.values_eq_nil (by simp [Assembly.names_sharedDirectory])
  have hplugged : Argument.values "-dtb" (Assembly.pluggedMemory o env.host) = [] :=
    Argument.values_eq_nil (by rw [Assembly.names_pluggedMemory]; split <;> simp)
  have hiommu : Argument.values "-dtb" (Assembly.iommuDevice sel.iommu) = [] :=
    Argument.values_eq_nil (by simp [Assembly.names_iommuDevice])
  have hsound : Argument.values "-dtb" (Assembly.soundCard sel.sound) = [] := by
    apply Argument.values_eq_nil
    rw [Assembly.names_soundCard]
    split <;> simp
  have hstorage : Argument.values "-dtb" (Assembly.storage o) = [] :=
    Argument.values_eq_nil (by simp [Assembly.names_storage])
  have hufs : Argument.values "-dtb" (Assembly.ufs o env) = [] :=
    Argument.values_eq_nil (by simp [Assembly.names_ufs])
  have hfixed : Argument.values "-dtb" Assembly.crypto = [] ∧
      Argument.values "-dtb" Assembly.firstConsole = [] ∧
      Argument.values "-dtb" Assembly.watchdog = [] ∧
      Argument.values "-dtb" Assembly.teachingDevice = [] := ⟨rfl, rfl, rfl, rfl⟩
  -- Only the section about booting has the option, and it has it last.
  rw [Assembly.values_arguments, hmachine, hboot, hdisplay, hdebug, hparavirtual, hshare, hplugged,
    hfixed.1, hfixed.2.1, hiommu, hsound, hstorage, hfixed.2.2.1, hufs, hfixed.2.2.2]
  simp only [List.append_nil, List.nil_append]

-- The dump is the only property of its name, whatever its path is.
theorem dumps_machineReading (o : Options) (sel : Selection) :
    (Assembly.machineReading o sel).filterMap dumpPath = (o.dumpTree.map (·.text)).toList := by
  unfold Assembly.machineReading
  split <;> cases o.dumpTree <;> cases sel.level <;> rfl

namespace Pipeline

variable {p : Pipeline} {o : Options} {c : Command}

theorem read_emulator (h : p.emulator o = some c) :
    Argument.read c.args = some (Assembly.arguments o p.selection p.environment) := by
  unfold emulator at h
  split at h
  next i hi =>
    cases h
    exact Assembly.read_assembled hi
  next => cases h

theorem program_emulator (h : p.emulator o = some c) : c.program = p.environment.program := by
  unfold emulator at h
  split at h
  next i hi =>
    cases h
    rw [Assembly.assemble_ok hi]
  next => cases h

theorem emulator_eq_none (o o' : Options) (h : p.emulator o = none) :
    p.emulator o' = none := by
  unfold emulator Invocation.assemble at h ⊢
  split at h
  next => cases h
  next hassemble =>
    split at hassemble
    next hsound => rw [if_pos hsound]
    next => cases hassemble

theorem dumpTargets_emulator (h : p.emulator o = some c) :
    dumpTargets c.args = some (o.dumpTree.map (·.text)).toList := by
  rw [dumpTargets, read_emulator h, Option.map_some, Assembly.read_machine, List.flatMap_singleton,
    dumps_machineReading]

theorem bootTrees_emulator (h : p.emulator o = some c) :
    bootTrees c.args = some (o.tree.map (·.text)).toList := by
  rw [bootTrees, read_emulator h, Option.map_some, values_tree]

theorem head_emulator (h : p.emulator o = some c) : c.args.head? = some "-M" := by
  unfold emulator at h
  split at h
  next i hi =>
    cases h
    rw [Assembly.assemble_ok hi]
    rfl
  next => cases h

end Pipeline

/-- The job that a command is started for, told from its arguments. -/
def Job.ofCommand (c : Command) : Job :=
  if c.args.head? = some "-C" then .build
  else if c.args.head? = some "-nostdinc" then .preprocess
  else if c.args.take 2 = ["-I", "dtb"] then .decompile
  else if c.args.take 2 = ["-I", "dts"] then .compile
  else if dumpTargets c.args = some [] then .relaunch
  else .dump

namespace Pipeline

variable {p : Pipeline} {m : Machine} {fs : Files} {j : Job} {c : Command}

-- The two launches of the emulator differ in the dump.
theorem ofCommand_emulator {o : Options} (h : p.emulator o = some c) :
    Job.ofCommand c = if o.dumpTree = none then .relaunch else .dump := by
  have hhead := head_emulator h
  obtain ⟨rest, hargs⟩ := List.head?_eq_some_iff.mp hhead
  have htargets : dumpTargets c.args = some [] ↔ o.dumpTree = none := by
    rw [dumpTargets_emulator h]
    cases o.dumpTree <;> simp
  have htake (word : String) : c.args.take 2 ≠ ["-I", word] := by
    rw [hargs]
    intro he
    exact absurd (List.cons.inj he).1 (by decide)
  unfold Job.ofCommand
  rw [hhead, if_neg (by decide), if_neg (by decide), if_neg (htake _), if_neg (htake _)]
  simp only [htargets]

theorem ofCommand_eq (h : p.command? m fs j = some c) : Job.ofCommand c = j := by
  cases j with
  | dump => exact ofCommand_emulator (o := p.dumpOptions) h
  | relaunch => exact ofCommand_emulator (o := p.relaunchOptions (p.temporary .mergedBinary)) h
  | decompile =>
    obtain ⟨dtc, -, rfl⟩ := Option.map_eq_some_iff.mp h
    rfl
  | build =>
    obtain ⟨scons, -, rfl⟩ := Option.map_eq_some_iff.mp h
    rfl
  | preprocess =>
    obtain ⟨cpp, -, rfl⟩ := Option.map_eq_some_iff.mp h
    rfl
  | compile =>
    obtain rfl := Option.some.inj h
    rfl

end Pipeline

/-! ## 4. Inputs and outputs on command lines -/

/-- The path behind the flag for an output. -/
def outputArg : List String → Option Path
  | [] => none
  | flag :: rest => if flag = "-o" then rest.head?.map Path.mk else outputArg rest

/-- Where a job's command tells it to write to. -/
def Job.target (j : Job) (c : Command) : Option Path :=
  match j with
  | .dump | .relaunch => (dumpTargets c.args).bind fun paths => paths.head?.map Path.mk
  | .decompile | .build | .preprocess | .compile => outputArg c.args

/-- What a job's command tells it to read, if it makes something of it. -/
def Job.source (j : Job) (c : Command) : Option Path :=
  match j with
  | .dump | .build | .relaunch => none
  | .decompile | .preprocess | .compile => c.args.getLast?.map Path.mk

/-- The text that a command finds in its input. -/
def inputText (cwd : Place) (j : Job) (c : Command) (fs : Files) : Option String :=
  (j.source c).bind fun path => (fs.readText cwd path).toOption

namespace Pipeline

variable {p : Pipeline} {m : Machine} {fs : Files} {j : Job} {c : Command}

-- No directory of headers looks like the flag.
theorem headers_ne_flag (root : Path) : (root.join headerDir).text ≠ "-o" := by
  intro h
  have hlength := congrArg String.length h
  unfold Path.join at hlength
  rw [if_neg (by decide)] at hlength
  have hflag : "-o".length = 2 := by decide
  have hheaders : headerDir.text.length = 26 := by decide
  split at hlength
  · rw [String.length_append, hheaders, hflag] at hlength
    omega
  · rw [String.length_append, String.length_append, hheaders, hflag] at hlength
    omega

theorem target_command (h : p.command? m fs j = some c) :
    j.target c = j.output.map p.temporary := by
  cases j with
  | dump =>
    have hc : p.emulator p.dumpOptions = some c := h
    rw [Job.target, dumpTargets_emulator hc]
    rfl
  | decompile =>
    obtain ⟨dtc, -, rfl⟩ := Option.map_eq_some_iff.mp h
    rfl
  | build =>
    obtain ⟨scons, -, rfl⟩ := Option.map_eq_some_iff.mp h
    simp [Job.target, Job.output, outputArg]
  | preprocess =>
    obtain ⟨cpp, -, rfl⟩ := Option.map_eq_some_iff.mp h
    simp [Job.target, Job.output, outputArg, Toolchain.preprocessArgs, chain, headers_ne_flag]
  | compile =>
    obtain rfl := Option.some.inj h
    rfl
  | relaunch =>
    have hc : p.emulator (p.relaunchOptions (p.temporary .mergedBinary)) = some c := h
    rw [Job.target, dumpTargets_emulator hc]
    rfl

theorem source_command (h : p.command? m fs j = some c) :
    j.source c = j.input.map p.temporary := by
  cases j with
  | dump => rfl
  | decompile =>
    obtain ⟨dtc, -, rfl⟩ := Option.map_eq_some_iff.mp h
    rfl
  | build => rfl
  | preprocess =>
    obtain ⟨cpp, -, rfl⟩ := Option.map_eq_some_iff.mp h
    unfold Job.source Toolchain.preprocessArgs
    dsimp only
    rw [List.getLast?_append]
    rfl
  | compile =>
    obtain rfl := Option.some.inj h
    rfl
  | relaunch => rfl

end Pipeline

/-! ## 5. Plain programs

A machine with programs of the simplest kind, for a launch with one overlay. -/

/-- A launch that looks for all its tools in the search path, but for the compiler that it builds. -/
def sample : Pipeline where
  options := { overlays := [⟨"leds.dts"⟩] }
  selection := ⟨.version 2, .el1, .smmu, .hda⟩
  environment := { program := ⟨"/bin/qemu"⟩, version := ⟨8, 2, 0⟩ }
  work := ⟨"work"⟩
  tools := { root := ⟨"/src"⟩ }

/-- A program of the sample does what its command line says, as the emulator or as a tool. -/
def sampleRole (c : Command) : Job :=
  if c.program = sample.environment.program then .dump else .compile

/-- The emulator writes an empty tree, and a tool copies its input. -/
def sampleText (_ : Command) (input : Option String) : String :=
  input.getD "/ { };"

def sampleMachine : Machine where
  cwd := []
  searchPath := [⟨"/bin"⟩]
  programs _ start :=
    let c := start.command
    match (sampleRole c).target c with
    | none => some ⟨start.files, start.now, .success, .empty⟩
    | some path =>
      let text := sampleText c (inputText [] (sampleRole c) c start.files)
      match start.files.write [] path text.toUTF8 start.now with
      | .ok files => some ⟨files, start.now, .success, .empty⟩
      | .error _ => some ⟨start.files, start.now, .exited 1, .empty⟩

/-- The overlay of the sample, an empty working directory, and programs. -/
def sampleWorld (programs : List Place) : World where
  files := ⟨[([], .directory default), (["work"], .directory default),
      (["leds.dts"], .file "/ { leds { }; };".toUTF8 default false),
      (["bin"], .directory default), (["src"], .directory default),
      (["tools", "src"], .directory default), (["dtc", "tools", "src"], .directory default)] ++
    programs.map fun place => (place, .file .empty default true)⟩
  now := default
  journal := []

/-- Where the programs of the sample are; the first one builds the compiler. -/
def samplePrograms : List Place :=
  [["scons", "bin"], ["qemu", "bin"], ["dtc", "bin"], ["cpp", "bin"],
    ["dtc", "dtc", "tools", "src"]]

theorem which_sample {fs : Files} {name : String} {found : Path}
    (hname : Machine.isCompound ⟨name⟩ = false) (h : sampleMachine.which fs ⟨name⟩ = some found) :
    found = Path.join ⟨"/bin"⟩ ⟨name⟩ := by
  unfold Machine.which at h
  rw [hname] at h
  exact List.mem_singleton.mp (List.mem_of_find?_eq_some h)

theorem sampleRole_command {fs : Files} {j : Job} {c : Command}
    (h : sample.command? sampleMachine fs j = some c) :
    sampleRole c = if j = .dump ∨ j = .relaunch then .dump else .compile := by
  unfold sampleRole
  cases j with
  | dump =>
    have hc : sample.emulator sample.dumpOptions = some c := h
    exact if_pos (Pipeline.program_emulator hc)
  | relaunch =>
    have hc : sample.emulator (sample.relaunchOptions (sample.temporary .mergedBinary)) = some c := h
    exact if_pos (Pipeline.program_emulator hc)
  | decompile =>
    obtain ⟨dtc, hdtc, rfl⟩ := Option.map_eq_some_iff.mp h
    rw [which_sample (by decide) hdtc]
    exact if_neg (by decide)
  | build =>
    obtain ⟨scons, hscons, rfl⟩ := Option.map_eq_some_iff.mp h
    rw [which_sample (by decide) hscons]
    exact if_neg (by decide)
  | preprocess =>
    obtain ⟨cpp, hcpp, rfl⟩ := Option.map_eq_some_iff.mp h
    rw [which_sample (by decide) hcpp]
    exact if_neg (by decide)
  | compile =>
    obtain rfl := Option.some.inj h
    exact if_neg (by decide)

theorem sampleTarget_command {fs : Files} {j : Job} {c : Command}
    (h : sample.command? sampleMachine fs j = some c) :
    (sampleRole c).target c = j.output.map sample.temporary := by
  rw [sampleRole_command h, ← Pipeline.target_command h]
  cases j <;> rfl

theorem sampleInput_command {fs fs' : Files} {j : Job} {c : Command}
    (h : sample.command? sampleMachine fs j = some c) (hout : j.output ≠ none) :
    inputText [] (sampleRole c) c fs' = inputText [] j c fs' := by
  rw [sampleRole_command h]
  cases j with
  | build => exact absurd rfl hout
  | relaunch => exact absurd rfl hout
  | dump => rfl
  | decompile => rfl
  | preprocess => rfl
  | compile => rfl

-- What a program of the sample does: nothing, or it writes its output.
theorem sample_effect {fs : Files} {j : Job} {before : List Run} {start : Start} {effect : Effect}
    (hc : sample.command? sampleMachine fs j = some start.command)
    (h : sampleMachine.programs before start = some effect) :
    effect.files = start.files ∨ ∃ t text, j.output = some t ∧
      start.files.write [] (sample.temporary t) text start.now = .ok effect.files := by
  unfold sampleMachine at h
  dsimp only at h
  rw [sampleTarget_command hc] at h
  cases hout : j.output with
  | none =>
    rw [hout] at h
    cases h
    exact Or.inl rfl
  | some t =>
    rw [hout] at h
    dsimp only [Option.map_some] at h
    split at h
    next files hwrite =>
      cases h
      exact Or.inr ⟨t, _, rfl, hwrite⟩
    next =>
      cases h
      exact Or.inl rfl

end VirtBoard.Launch
