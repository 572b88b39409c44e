import VirtBoard.Action

/-!
# Disk images

Images that are missing are made before the emulator starts.  Images that exist are never touched.
-/

namespace VirtBoard.Launch

open Qemu (DiskImage)

def imageSize : String := "64M"

def createArgs (image : Path) : List String :=
  ["create", "-f", "qcow2", image.text, imageSize]

/-- Makes the image of a disk unless it exists; the result is its path if it was made. -/
def ensureImage (dir tool : Path) (disk : DiskImage) : Action (Option Path) := do
  let image := dir.join disk.fileName
  if ← Action.ask (fun cwd fs => fs.exists? cwd image) fun _ => .file .check image then
    return none
  match ← Action.start ⟨tool, createArgs image⟩ .shown with
  | none => throw (.notRun tool.text)
  | some effect =>
    if effect.status ≠ .success then throw (.failed "qemu-img" effect.status)
    return some image

/-- Makes the missing images, in order; the result are the paths of those that were made. -/
def ensureImages (dir tool : Path) (disks : List DiskImage) : Action (List Path) := do
  let made ← disks.mapM (ensureImage dir tool)
  return made.filterMap id

end VirtBoard.Launch
