import VirtBoard.Proofs.Launch.Order
import VirtBoard.Proofs.Launch.Runs
import VirtBoard.Proofs.Qemu.CommandLineText

/-!
# The two launches with overlays

A launch with overlays starts the emulator twice, first to dump its tree and then to boot with the
merged one.  Both times it starts the machine that the options ask for: the command line is that of
a plain launch but for the dump and the tree.  A configuration that a plain launch would refuse is
refused before anything is started.
-/

namespace VirtBoard.Launch

open VirtBoard.Action Board DeviceTree FileSystem Qemu
open Assembly (commandLine)

namespace Pipeline

variable {p : Pipeline} {m : Machine} {w : World}

/-! ## 1. The command lines -/

/-- The command line of a plain launch with another dump and another tree. -/
def wordsWith (p : Pipeline) (dump tree : Option Path) : List String :=
  commandLine p.options p.selection p.environment dump tree

theorem assemble_options (p : Pipeline) :
    Invocation.assemble p.options p.selection p.environment =
      (Invocation.assemble p.options p.selection p.environment).map fun i =>
        { i with args := p.wordsWith p.options.dumpTree p.options.tree } := by
  rw [Assembly.assemble_eq]
  split <;> rfl

theorem assemble_dumpOptions (p : Pipeline) :
    Invocation.assemble p.dumpOptions p.selection p.environment =
      (Invocation.assemble p.options p.selection p.environment).map fun i =>
        { i with args := p.wordsWith (some (p.work.join dumpBinary)) p.options.tree } := by
  rw [Assembly.assemble_eq, Assembly.assemble_eq]
  split <;> rfl

theorem assemble_relaunchOptions (p : Pipeline) (tree : Path) :
    Invocation.assemble (p.relaunchOptions tree) p.selection p.environment =
      (Invocation.assemble p.options p.selection p.environment).map fun i =>
        { i with args := p.wordsWith none (some tree) } := by
  rw [Assembly.assemble_eq, Assembly.assemble_eq]
  split <;> rfl

/-! ## 2. The runs -/

/-- Before the second launch there are the dump and then some of the tools: all of them, or those up
to the builder of the compiler. -/
theorem playsAll_buildTree (p : Pipeline) :
    ∃ tools : List Job, tools.Sublist [.decompile, .build, .preprocess, .compile] ∧
      PlaysAll (p.Does m) (.dump :: tools) m w p.buildTree := by
  obtain ⟨done, hruns, hfollows, hgood⟩ := plays_buildTree (m := m) (w := w) p
  by_cases hskips : ∃ rs b, done = rs ++ [b] ∧ Completes (p.Does m) [.dump, .decompile] rs ∧
      p.Overtakes m b
  · obtain ⟨rs, b, rfl, hrs, hb⟩ := hskips
    have hall : Completes (p.Does m) ([.dump, .decompile] ++ [.build]) (rs ++ [b]) :=
      hrs.append ⟨.cons hb.does .nil, by simpa using hb.succeeded⟩
    exact ⟨[.decompile, .build], by decide, rs ++ [b], hruns, hall.follows, fun _ _ => hall⟩
  · refine ⟨.decompile :: p.treeJobs, ?_, done, hruns, hfollows,
      fun compiled hcompiled => (hgood compiled hcompiled).resolve_right hskips⟩
    unfold treeJobs
    split <;> decide

/-- A run is the dump, then some of the tools, then the relaunch, and does not end well before. -/
theorem run_jobs (h : p.options.overlays ≠ []) :
    ∃ tools : List Job, tools.Sublist [.decompile, .build, .preprocess, .compile] ∧
      Plays (p.Does m) (.dump :: tools ++ [.relaunch])
        (fun _ done => List.Forall₂ (p.Does m) (.dump :: tools ++ [.relaunch]) done) m w p.run := by
  obtain ⟨tools, htools, hplays⟩ := playsAll_buildTree (m := m) (w := w) p
  refine ⟨tools, htools, ?_⟩
  rw [run_eq_relaunch h]
  refine plays_bind hplays fun compiled w₁ rs hout _ hrs => Or.inr ⟨hrs, ?_⟩
  rw [buildTree_binary p w compiled (by rw [hout])]
  refine (plays_relaunch p).mono ?_
  rintro _ _ ⟨r, rfl, hdoes, -⟩
  exact List.rel_append hrs.1 (.cons hdoes .nil)

theorem perform_launch_refused {o : Board.Options} {e : UsageError}
    (h : Invocation.assemble o p.selection p.environment = .error e) :
    (p.launch o).perform m w = (.error (.usage e), w) := by
  unfold launch
  rw [h]
  rfl

theorem perform_run_refused {e : UsageError}
    (h : Invocation.assemble p.options p.selection p.environment = .error e) :
    p.run.perform m w = (.error (.usage e), w) := by
  by_cases hoverlays : p.options.overlays = []
  · rw [run_eq_direct hoverlays, direct, perform_bind, perform_launch_refused h]
  · have hdump : Invocation.assemble p.dumpOptions p.selection p.environment = .error e := by
      rw [assemble_dumpOptions, h]
      rfl
    rw [run_eq hoverlays, perform_bind, dump, perform_bind, perform_launch_refused hdump]

/-! ## 3. The two launches -/

section Commands

variable {plain : Invocation} {o : Board.Options} {args : List String}

theorem emulator_of_assemble
    (h : Invocation.assemble o p.selection p.environment = .ok { plain with args }) :
    p.emulator o = some ⟨plain.program, args⟩ := by
  rw [emulator, h]

theorem does_iff {j : Job} (hj : ∀ fs, p.command? m fs j = p.emulator o)
    (h : Invocation.assemble o p.selection p.environment = .ok { plain with args }) (r : Run) :
    p.Does m j r ↔ r.start.command = ⟨plain.program, args⟩ := by
  rw [Does, hj, emulator_of_assemble h, Option.some.injEq, eq_comm]

end Commands

/-- Both launches with overlays start the machine of a plain launch: the words are the same but for
the dump and the tree.  What a plain launch would refuse is refused before anything is started. -/
theorem overlay_launches_keep_the_machine (p : Pipeline) (m : Machine) (w : World) :
    match Invocation.assemble p.options p.selection p.environment with
    | .error e =>
      Invocation.assemble p.dumpOptions p.selection p.environment = .error e ∧
      (∀ tree, Invocation.assemble (p.relaunchOptions tree) p.selection p.environment = .error e) ∧
      p.run.perform m w = (.error (.usage e), w)
    | .ok plain =>
      let dump := p.wordsWith (some (p.work.join ⟨"qemu.tmp.dtb"⟩)) p.options.tree
      let relaunch := p.wordsWith none (some (p.work.join ⟨"qemu.run.dtb"⟩))
      plain.args = p.wordsWith p.options.dumpTree p.options.tree ∧
      Invocation.assemble p.dumpOptions p.selection p.environment = .ok { plain with args := dump } ∧
      Invocation.assemble (p.relaunchOptions (p.work.join ⟨"qemu.run.dtb"⟩)) p.selection
        p.environment = .ok { plain with args := relaunch } ∧
      dumpTargets dump = some [(p.work.join ⟨"qemu.tmp.dtb"⟩).text] ∧
      dumpTargets relaunch = some [] ∧
      bootTrees relaunch = some [(p.work.join ⟨"qemu.run.dtb"⟩).text] ∧
      (p.options.overlays ≠ [] →
        ∃ (tools : List Job) (done : List Run),
          tools.Sublist [.decompile, .build, .preprocess, .compile] ∧
          (p.run.perform m w).2.runs = w.runs ++ done ∧
          List.Forall₂ (p.Does m) ((Job.dump :: tools ++ [Job.relaunch]).take done.length) done ∧
          (∀ r, p.Does m .dump r ↔ r.start.command = ⟨plain.program, dump⟩) ∧
          (∀ r, p.Does m .relaunch r ↔ r.start.command = ⟨plain.program, relaunch⟩) ∧
          ∀ s, (p.run.perform m w).1 = .ok s → done.length = tools.length + 2) := by
  cases h : Invocation.assemble p.options p.selection p.environment with
  | error e =>
    refine ⟨?_, fun tree => ?_, perform_run_refused h⟩
    · rw [assemble_dumpOptions, h]
      rfl
    · rw [assemble_relaunchOptions, h]
      rfl
  | ok plain =>
    have hplain := assemble_options p
    have hdump := assemble_dumpOptions p
    have hrelaunch := assemble_relaunchOptions p (p.temporary .mergedBinary)
    rw [h, Except.map] at hplain hdump hrelaunch
    have hdumps := emulator_of_assemble hdump
    have hboots := emulator_of_assemble hrelaunch
    refine ⟨congrArg Invocation.args (Except.ok.inj hplain), hdump, hrelaunch,
      dumpTargets_emulator hdumps, dumpTargets_emulator hboots, bootTrees_emulator hboots,
      fun hoverlays => ?_⟩
    obtain ⟨tools, htools, done, hruns, hfollows, hgood⟩ := run_jobs (m := m) (w := w) hoverlays
    refine ⟨tools, done, htools, hruns, hfollows.jobs, does_iff (fun _ => rfl) hdump,
      does_iff (fun _ => rfl) hrelaunch, fun s hs => ?_⟩
    have hlength := (hgood s hs).length_eq
    simp only [List.length_append, List.length_cons, List.length_nil] at hlength
    omega

/-- Options with a dump, a tree and an initial RAM disk of the user's, and commas in two paths. -/
def customized : Pipeline where
  options :=
    { exceptionLevel := 2, bootArgs := "quiet", dumpTree := some ⟨"own,tree"⟩,
      tree := some ⟨"board.dtb"⟩, initrd := some ⟨"disk"⟩, overlays := [⟨"leds.dts"⟩] }
  selection := ⟨.version 2, .el2, .smmu, .hda⟩
  environment := sample.environment
  work := ⟨"a,b"⟩
  tools := sample.tools

theorem customized_keeps_the_machine :
    ∃ plain, Invocation.assemble customized.options customized.selection customized.environment =
        .ok plain ∧
      plain.args.take 2 = ["-M", "virt,acpi=on,iommu=smmuv3,its=on,gic-version=2,dumpdtb=own,,tree," ++
        "virtualization=on"] ∧
      ∃ dump relaunch : Invocation,
        Invocation.assemble customized.dumpOptions customized.selection customized.environment =
          .ok dump ∧
        dump.args.take 2 = ["-M", "virt,acpi=on,iommu=smmuv3,its=on,gic-version=2," ++
          "dumpdtb=a,,b/qemu.tmp.dtb,virtualization=on"] ∧
        dump.args.drop 2 = plain.args.drop 2 ∧
        Invocation.assemble (customized.relaunchOptions ⟨"a,b/qemu.run.dtb"⟩) customized.selection
          customized.environment = .ok relaunch ∧
        relaunch.args.take 16 = ["-M", "virt,acpi=on,iommu=smmuv3,its=on,gic-version=2," ++
          "virtualization=on", "-cpu", "max", "-smp", "4", "-m", "128", "-kernel", "rtthread.bin",
          "-append", "quiet", "-dtb", "a,b/qemu.run.dtb", "-initrd", "disk"] ∧
        relaunch.args.drop 16 = plain.args.drop 16 ∧
        ∀ r, (customized.run.perform sampleMachine (sampleWorld samplePrograms)).2.runs.head? =
          some r → r.start.command = ⟨dump.program, dump.args⟩ := by
  obtain ⟨plain, hplain⟩ : ∃ plain, Invocation.assemble customized.options customized.selection
      customized.environment = .ok plain := ⟨_, rfl⟩
  have h := overlay_launches_keep_the_machine customized sampleMachine (sampleWorld samplePrograms)
  rw [hplain] at h
  obtain ⟨hargs, hdump, hrelaunch, -, -, -, hruns⟩ := h
  obtain ⟨tools, done, -, hdone, hfits, hdoes, -⟩ := hruns (by decide)
  have hwork : customized.work.join ⟨"qemu.run.dtb"⟩ = ⟨"a,b/qemu.run.dtb"⟩ := by decide
  have hfirst : ∀ r, done.head? = some r → customized.Does sampleMachine .dump r := by
    intro r hr
    obtain ⟨rest, rfl⟩ := List.head?_eq_some_iff.mp hr
    exact (List.forall₂_cons.mp hfits).1
  rw [hwork] at hrelaunch
  refine ⟨plain, hplain, ?_, _, _, hdump, ?_, ?_, hrelaunch, ?_, ?_, fun r hr => ?_⟩
  · rw [hargs]
    decide +kernel
  · show (customized.wordsWith (some (customized.work.join ⟨"qemu.tmp.dtb"⟩))
      customized.options.tree).take 2 = _
    decide +kernel
  · rw [hargs]
    rfl
  · show (customized.wordsWith none (some ⟨"a,b/qemu.run.dtb"⟩)).take 16 = _
    decide +kernel
  · rw [hargs]
    rfl
  · rw [hdone] at hr
    exact (hdoes r).mp (hfirst r hr)

end Pipeline

end VirtBoard.Launch
