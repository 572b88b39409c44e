import VirtBoard.Proofs.CommandLine.Preparation
import VirtBoard.Proofs.Launch.Provisioning
import VirtBoard.Proofs.Text.Encoded

/-!
# The line that tells the release

Of all that the emulator prints when it is asked for its release only the first line counts, and
nothing counts if the emulator fails.
-/

namespace VirtBoard.CommandLine.Launcher

open VirtBoard.Action Launch Qemu Text

section Query

variable {m : Machine} {w : World} {qemu : Path} {r : Run} {line : List UInt8} {text : List Char}

theorem versionOfOutput_eq {output : ByteArray} (hline : IsFirstLine output.data.toList line)
    (htext : Reads line text) :
    versionOfOutput output = Version.ofBanner (String.ofList text) := by
  rw [versionOfOutput, hline.firstLine_decodeLossy, decodeLossy_eq_iff.mpr htext]

theorem answer_eq_of_success (hs : r.effect.status = .success)
    (hline : IsFirstLine r.effect.output.data.toList line) (htext : Reads line text) :
    answer qemu r = (Version.ofBanner (String.ofList text)).mapError .version := by
  rw [answer, if_pos hs, versionOfOutput_eq hline htext]

theorem perform_queryVersion_of_run
    (hrun : m.run? w.runs w.files w.now .captured (versionQuery qemu) = some r) :
    (queryVersion qemu).perform m w = (answer qemu r, w.after r) := by
  rw [perform_queryVersion, hrun]

end Query

/-- The launcher asks the emulator for its release.  If the emulator succeeds, the release is the one
in the text of the first line that it printed, whether its bytes are well-formed text or not.  What it
printed behind the first line feed makes no difference.  If it fails, so does the launcher, whatever
was printed. -/
theorem release_is_in_the_first_line {m : Machine} {w : World} {qemu : Path} {r : Run}
    (hrun : m.run? w.runs w.files w.now .captured (versionQuery qemu) = some r) :
    (r.effect.status = .success →
      (∃ line text, IsFirstLine r.effect.output.data.toList line ∧ Reads line text) ∧
      (∀ line text, IsFirstLine r.effect.output.data.toList line → Reads line text →
        (queryVersion qemu).perform m w =
          ((Version.ofBanner (String.ofList text)).mapError .version, w.after r)) ∧
      ∀ m' w' r' bs rest rest',
        m'.run? w'.runs w'.files w'.now .captured (versionQuery qemu) = some r' →
        r'.effect.status = .success → 0x0A ∉ bs →
        r.effect.output.data.toList = bs ++ 0x0A :: rest →
        r'.effect.output.data.toList = bs ++ 0x0A :: rest' →
        ((queryVersion qemu).perform m' w').1 = ((queryVersion qemu).perform m w).1) ∧
      (r.effect.status ≠ .success →
        (queryVersion qemu).perform m w =
          (.error (.failed (qemu.text ++ " --version") r.effect.status), w.after r)) := by
  have hreads (line : List UInt8) : Reads line (decodeLossy line) := decodeLossy_eq_iff.mp rfl
  rw [perform_queryVersion_of_run hrun]
  refine ⟨fun hs => ⟨?_, fun line text hline htext => ?_, ?_⟩, fun hs => ?_⟩
  · obtain ⟨line, hline⟩ := exists_isFirstLine r.effect.output.data.toList
    exact ⟨line, decodeLossy line, hline, hreads line⟩
  · rw [answer_eq_of_success hs hline htext]
  · intro m' w' r' bs rest rest' hrun' hs' hfeed houtput houtput'
    obtain ⟨line, hline⟩ := exists_isFirstLine_append hfeed
    rw [perform_queryVersion_of_run hrun',
      answer_eq_of_success hs (houtput ▸ hline rest) (hreads line),
      answer_eq_of_success hs' (houtput' ▸ hline rest') (hreads line)]
  · rw [answer, if_neg hs]

/-- A line with a release and the first two of three bytes of a character. -/
def unfinishedLine : List UInt8 :=
  [0x76, 0x65, 0x72, 0x73, 0x69, 0x6F, 0x6E, 0x20, 0x38, 0x2E, 0x32, 0xE2, 0x82]

/-- The byte that would finish the character stands behind the end of the line. -/
def unfinishedOutput : List UInt8 :=
  unfinishedLine ++ 0x0D :: 0x0A :: [0xAC]

/-- A machine whose programs all print that and succeed. -/
def hastyMachine : Machine :=
  { boardMachine with
    programs := fun _ start =>
      some ⟨start.files, start.now, .success, ⟨unfinishedOutput.toArray⟩⟩ }

theorem line_feed_ends_an_unfinished_character :
    ∃ r, hastyMachine.run? boardWorld.runs boardWorld.files boardWorld.now .captured
        (versionQuery ⟨"qemu-system-aarch64"⟩) = some r ∧
      r.effect.status = .success ∧ IsFirstLine r.effect.output.data.toList unfinishedLine ∧
      Reads unfinishedLine "version 8.2\uFFFD".toList ∧
      (queryVersion ⟨"qemu-system-aarch64"⟩).perform hastyMachine boardWorld =
        (.ok ⟨8, 2, 0⟩, boardWorld.after r) := by
  have hlocate : (hastyMachine.locate boardWorld.files ⟨"qemu-system-aarch64"⟩).isSome = true := by
    decide
  obtain ⟨place, hplace⟩ := Option.isSome_iff_exists.mp hlocate
  have hrun := run?_eq hastyMachine boardWorld.runs boardWorld.files boardWorld.now .captured
    (versionQuery ⟨"qemu-system-aarch64"⟩)
  rw [if_pos (by decide), versionQuery, hplace] at hrun
  have hline : IsFirstLine unfinishedOutput unfinishedLine := .returned (by decide) [0xAC]
  have htext : Reads unfinishedLine "version 8.2\uFFFD".toList := decodeLossy_eq_iff.mp (by decide)
  have hbanner : Version.ofBanner (String.ofList "version 8.2\uFFFD".toList) = .ok ⟨8, 2, 0⟩ := by
    decide
  have hanswer := ((release_is_in_the_first_line hrun).1 rfl).2.1 unfinishedLine _ hline htext
  rw [hbanner] at hanswer
  exact ⟨_, hrun, rfl, hline, htext, hanswer⟩

end VirtBoard.CommandLine.Launcher
