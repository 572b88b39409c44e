import VirtBoard.Action
import VirtBoard.Text.Line
import VirtBoard.Text.Utf8

/-!
# Examining the emulator

What has to be known of the emulator before it is launched: its release, which it tells, and whether
it is a Windows program, which its file shows.
-/

namespace VirtBoard.Launch

open FileSystem Qemu

/-- A Windows program starts with the letters `MZ`. -/
def isWindowsProgram (content : List UInt8) : Bool :=
  [0x4D, 0x5A].isPrefixOf content

/-- The platform of an emulator, through links.  A program that cannot be read is none of
Windows. -/
def Host.detect (fs : Files) (cwd : Place) (program : Path) : Host :=
  match fs.read cwd program with
  | .ok content => ⟨isWindowsProgram content.data.toList⟩
  | .error _ => ⟨false⟩

/-- The version in what the emulator prints about itself: its first line is the banner. -/
def versionOfOutput (output : ByteArray) : Except VersionError Version :=
  Version.ofBanner (String.ofList (Text.firstLine (Text.decodeLossy output.data.toList)))

def queryVersion (program : Path) : Action Version := do
  let what := program.text ++ " --version"
  match ← Action.start ⟨program, ["--version"]⟩ .captured with
  | none => throw (.notRun what)
  | some effect =>
    if effect.status ≠ .success then throw (.failed what effect.status)
    match versionOfOutput effect.output with
    | .ok v => return v
    | .error e => throw (.version e)

end VirtBoard.Launch
