import VirtBoard.Path

/-!
# Files

A file system as a finite map from places to entries.  A place is the list of names that lead to it
from the root, innermost first, so that the place of a directory is the tail of the place of what it
holds.  A directory is modified when a name in it is made or taken away, not when something that it
holds is modified.
-/

namespace VirtBoard.FileSystem

/-- A point in time since the epoch. -/
structure Time where
  seconds : Int
  nanoseconds : Nat
deriving DecidableEq, Inhabited

instance : LE Time where
  le s t := s.seconds < t.seconds ∨ (s.seconds = t.seconds ∧ s.nanoseconds ≤ t.nanoseconds)

instance (s t : Time) : Decidable (s ≤ t) :=
  inferInstanceAs (Decidable (_ ∨ _))

/-- The names that lead to a place, innermost first. -/
abbrev Place := List String

def Place.path (l : Place) : Path :=
  match l with
  | [] => ⟨"/"⟩
  | _ => ⟨String.join (l.reverse.map ("/" ++ ·))⟩

-- The test that goes with the type; libraries bring along others.
instance decidableEqContent : DecidableEq ByteArray :=
  ByteArray.instDecidableEq

inductive Entry where
  | directory (modified : Time)
  | file (content : ByteArray) (modified : Time) (executable : Bool)
  | link (target : Path)
deriving DecidableEq

/-- When an entry was modified last.  Nothing depends on the time of a link. -/
def Entry.modified : Entry → Time
  | .directory t => t
  | .file _ t _ => t
  | .link _ => default

def Entry.modifiedAt (e : Entry) (t : Time) : Entry :=
  match e with
  | .directory _ => .directory t
  | .file content _ executable => .file content t executable
  | .link target => .link target

structure Files where
  entries : List (Place × Entry)

namespace Files

def find? (fs : Files) (l : Place) : Option Entry :=
  fs.entries.lookup l

def erase (fs : Files) (l : Place) : Files :=
  ⟨fs.entries.filter (·.1 ≠ l)⟩

def insert (fs : Files) (l : Place) (e : Entry) : Files :=
  ⟨(l, e) :: (fs.erase l).entries⟩

def touch (fs : Files) (l : Place) (t : Time) : Files :=
  ⟨fs.entries.map fun (k, e) => (k, if k = l then e.modifiedAt t else e)⟩

/-- Makes an entry at a vacant place, in a directory that is modified by it. -/
def create (fs : Files) (l : Place) (e : Entry) (now : Time) : Files :=
  (fs.touch l.tail now).insert l e

/-- Takes away what is at a place, from a directory that is modified by it. -/
def delete (fs : Files) (l : Place) (now : Time) : Files :=
  (fs.touch l.tail now).erase l

private theorem lookup_filter_ne (es : List (Place × Entry)) (l k : Place) :
    (es.filter (·.1 ≠ l)).lookup k = if k = l then none else es.lookup k := by
  induction es with
  | nil => simp
  | cons e es ih => by_cases hl : e.1 = l <;> by_cases hk : k = e.1 <;> grind

theorem find?_erase (fs : Files) (l k : Place) :
    (fs.erase l).find? k = if k = l then none else fs.find? k :=
  lookup_filter_ne fs.entries l k

theorem find?_insert (fs : Files) (l : Place) (e : Entry) (k : Place) :
    (fs.insert l e).find? k = if k = l then some e else fs.find? k := by
  have h := find?_erase fs l k
  unfold find? insert at *
  by_cases hk : k = l <;> grind

theorem find?_touch (fs : Files) (l : Place) (t : Time) (k : Place) :
    (fs.touch l t).find? k =
      if k = l then (fs.find? k).map (·.modifiedAt t) else fs.find? k := by
  obtain ⟨es⟩ := fs
  unfold find? touch
  induction es with
  | nil => simp
  | cons e es ih => by_cases hk : k = e.1 <;> by_cases hl : k = l <;> grind

theorem find?_create (fs : Files) (l : Place) (e : Entry) (now : Time) (k : Place) :
    (fs.create l e now).find? k =
      if k = l then some e
      else if k = l.tail then (fs.find? k).map (·.modifiedAt now)
      else fs.find? k := by
  rw [create, find?_insert, find?_touch]

theorem find?_delete (fs : Files) (l : Place) (now : Time) (k : Place) :
    (fs.delete l now).find? k =
      if k = l then none
      else if k = l.tail then (fs.find? k).map (·.modifiedAt now)
      else fs.find? k := by
  rw [delete, find?_erase, find?_touch]

end Files

end VirtBoard.FileSystem
