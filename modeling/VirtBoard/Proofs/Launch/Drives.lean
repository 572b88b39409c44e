import VirtBoard.Proofs.Launch.Provisioning
import VirtBoard.Proofs.Qemu.Settings

/-!
# Images of the drives

The images that are provided for an invocation are the files of its drives, in the same order, and
so every file that a drive names is there when the emulator starts.
-/

namespace VirtBoard.Launch

open Board FileSystem Qemu
open Qemu.Argument (values)
open Qemu.Assembly (arguments valuesOf)

/-- The files that the emulator reads for each drive of a command line. -/
def driveFiles (as : List Argument) : List (List String) :=
  (values "-drive" as).map fun text => valuesOf "file" (OptionString.read text)

theorem driveFiles_arguments (o : Options) (sel : Selection) (env : Environment) :
    driveFiles (arguments o sel env) =
      (Assembly.disks o env).map fun d => [d.fileName.text] := by
  have hread : driveFiles (arguments o sel env) =
      ((values "-drive" (arguments o sel env)).map OptionString.read).map (valuesOf "file") := by
    rw [List.map_map]
    rfl
  rw [hread, Assembly.read_drives]
  unfold Assembly.disks
  split <;> rfl

theorem mem_disks_ufs_iff (o : Options) (env : Environment) :
    ⟨"ufs", o.ufs⟩ ∈ Assembly.disks o env ↔ Assembly.hasUfs env := by
  unfold Assembly.disks
  by_cases h : Assembly.hasUfs env <;> simp [h]

-- An image's name ends in its extension, so it is never empty.
theorem fileName_ne_empty (d : DiskImage) : d.fileName.text ≠ "" := by
  intro h
  have hlength := congrArg String.length h
  rw [DiskImage.fileName, String.length_append] at hlength
  have hext : ".qcow2".length = 6 := by decide
  have hnone : "".length = 0 := by decide
  omega

/-- The emulator reads one file for each drive, and these are the images of the invocation in the
same order, among them one for UFS exactly if the release has the controller.  So once the images
are provided in a directory, every file of a drive is there, also as the emulator looks for it from
that directory. -/
theorem drives_have_their_images {o : Options} {sel : Selection} {env : Environment}
    {i : Invocation} (h : Invocation.assemble o sel env = .ok i) :
    ∃ as, Argument.read i.args = some as ∧
      driveFiles as = i.disks.map (fun d => [d.fileName.text]) ∧
      (⟨"ufs", o.ufs⟩ ∈ i.disks ↔ ⟨8, 2, 0⟩ ≤ env.version) ∧
      ∀ (m : Machine) (dir tool : Path) (w w' : World) (made : List Path),
        Tooled m tool (i.disks.map fun d => dir.join d.fileName) →
        (ensureImages dir tool i.disks).perform m w = (.ok made, w') →
        ∀ files ∈ driveFiles as, ∀ file ∈ files,
          w'.files.exists? m.cwd (dir.join ⟨file⟩) = .ok true ∧
          ∀ here t, w'.files.walk m.cwd dir = .ok (.occupied here (.directory t)) →
            w'.files.exists? here ⟨file⟩ = .ok true := by
  have hfiles : driveFiles (arguments o sel env) = i.disks.map fun d => [d.fileName.text] := by
    rw [Assembly.assemble_ok h]
    exact driveFiles_arguments o sel env
  refine ⟨arguments o sel env, Assembly.read_assembled h, hfiles, ?_, ?_⟩
  · rw [Assembly.assemble_ok h]
    exact mem_disks_ufs_iff o env
  intro m dir tool w w' made htool hmade files hmem file hfile
  rw [hfiles] at hmem
  obtain ⟨d, hd, rfl⟩ := List.mem_map.mp hmem
  obtain rfl := List.mem_singleton.mp hfile
  have hexists := ensureImages_exists htool hmade d hd
  exact ⟨hexists, fun here t hdir =>
    exists?_of_join (fileName_ne_empty d) (walkInto_of_walk hdir) hexists⟩

/-- Disks with commas in their names, one of them in another directory. -/
def scatteredDisks : Options := { block := "a,,b,", flash := "/images/x=1,", ufs := "" }

theorem scattered_images_are_there :
    ∃ i, Invocation.assemble scatteredDisks ⟨.max, .el1, .smmu, .hda⟩ { version := ⟨8, 2, 0⟩ } =
        .ok i ∧
      ∃ as, Argument.read i.args = some as ∧
        driveFiles as = [["a,,b,.qcow2"], ["scsi.qcow2"], ["/images/x=1,.qcow2"], ["emmc.qcow2"],
          ["nvme.qcow2"], [".qcow2"]] ∧
        ∃ made w', (ensureImages ⟨"/board"⟩ ⟨"qemu-img"⟩ i.disks).perform boardMachine boardWorld =
            (.ok made, w') ∧
          ∀ files ∈ driveFiles as, ∀ file ∈ files,
            w'.files.exists? ["board"] (Path.join ⟨"/board"⟩ ⟨file⟩) = .ok true := by
  obtain ⟨i, hi⟩ : ∃ i, Invocation.assemble scatteredDisks ⟨.max, .el1, .smmu, .hda⟩
      { version := ⟨8, 2, 0⟩ } = .ok i := ⟨_, rfl⟩
  obtain ⟨as, hread, hfiles, -, hthere⟩ := drives_have_their_images hi
  have hended : ((ensureImages ⟨"/board"⟩ ⟨"qemu-img"⟩ i.disks).perform boardMachine
      boardWorld).1.isOk = true := by
    rw [Assembly.assemble_ok hi]
    decide +kernel
  rcases hmade : (ensureImages ⟨"/board"⟩ ⟨"qemu-img"⟩ i.disks).perform boardMachine boardWorld
    with ⟨_ | made, w'⟩
  · rw [hmade] at hended
    cases hended
  · refine ⟨i, hi, as, hread, ?_, made, w', hmade, fun files hmem file hfile => ?_⟩
    · rw [hfiles, Assembly.assemble_ok hi]
      rfl
    · exact (hthere boardMachine ⟨"/board"⟩ ⟨"qemu-img"⟩ boardWorld w' made
        (boardMachine_tooled _ _) hmade files hmem file hfile).1

end VirtBoard.Launch
