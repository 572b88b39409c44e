import VirtBoard.Text.Decimal
import VirtBoard.Text.Quoted

/-!
# Releases of the emulator

A release has three numbers.  They are read from texts such as `8.2.0`, `9.1.0-rc2` or `7.2`, and
from the banner that the emulator prints, and they are compared number by number.
-/

namespace VirtBoard.Qemu

structure Version where
  major : UInt32
  minor : UInt32
  revision : UInt32
deriving DecidableEq

inductive VersionError where
  /-- The banner has no `version ` in it. -/
  | missingMarker (banner : String)
  | malformed (text : String)
deriving DecidableEq

def VersionError.message : VersionError → String
  | .missingMarker banner => "no `version` marker in banner " ++ Text.quoted banner
  | .malformed text => "malformed version " ++ Text.quoted text

namespace Version

/-! ## Order -/

/-- Numeric comparison, component by component. -/
def compare (v w : Version) : Ordering :=
  compareLex (compareOn (·.major.toNat))
    (compareLex (compareOn (·.minor.toNat)) (compareOn (·.revision.toNat))) v w

instance : Ord Version := ⟨compare⟩

instance : LE Version := ⟨fun v w => (compare v w).isLE⟩

instance (v w : Version) : Decidable (v ≤ w) :=
  inferInstanceAs (Decidable ((compare v w).isLE = true))

/-- The first release with the `ufs` controller. -/
def ufsMin : Version := ⟨8, 2, 0⟩

/-- The first release with the VirtIO sound card. -/
def virtioSoundMin : Version := ⟨8, 2, 0⟩

/-! ## Texts -/

def text (v : Version) : String :=
  toString v.major ++ "." ++ toString v.minor ++ "." ++ toString v.revision

/-- The number at the start of a component.  Release candidates and distribution builds put more
behind it, such as `0-rc1` or `0+dfsg`. -/
def component (s : List Char) : Option UInt32 :=
  (Text.readLeading UInt32.size s).map UInt32.ofNat

/-- Reads the components between dots: at least two, the third is zero if it is not there, and all
after it are ignored. -/
def ofComponents? : List (List Char) → Option Version
  | [a, b] => do return ⟨← component a, ← component b, 0⟩
  | a :: b :: c :: _ => do return ⟨← component a, ← component b, ← component c⟩
  | _ => none

def parse (s : String) : Except VersionError Version :=
  match ofComponents? ((Text.trim s.toList).splitOn '.') with
  | some v => .ok v
  | none => .error (.malformed s)

/-! ## Banners -/

def marker : List Char := "version ".toList

/-- The text after the first occurrence of a word. -/
def after? (word : List Char) : List Char → Option (List Char)
  | [] => if word = [] then some [] else none
  | c :: s =>
    if word.isPrefixOf (c :: s) then some ((c :: s).drop word.length) else after? word s

/-- Reads a banner such as `QEMU emulator version 8.2.1 (Debian 1:8.2.1+dfsg-1)`: the version is the
first word after the marker. -/
def ofBanner (banner : String) : Except VersionError Version :=
  match after? marker banner.toList with
  | none => .error (.missingMarker banner)
  | some rest => parse (String.ofList (Text.firstWord rest))

end Version

end VirtBoard.Qemu
