import TreePath.Files.Load

/-!
A directory tree at rest, and what stands at a path in it.
-/

namespace TreePath

/-- The way that a name leads through a tree. Places are lists of names, here the last name first. -/
structure Trail where
  place : List (List Char)
  /-- The directories on the way, the top among them. -/
  passed : List (List (List Char))

namespace Trail

def step (t : Trail) (part : List Char) : Trail :=
  if part = [] ∨ part = ['.'] then t
  else ⟨if part = ['.', '.'] then t.place.tail else part :: t.place, t.place :: t.passed⟩

def ofName (name : String) : Trail := (FileName.parts name.toList).foldl step ⟨[], []⟩

end Trail

/-- Files and directories by their places. The top is a directory in any case. -/
structure Snapshot where
  files : List (List (List Char) × ByteArray)
  directories : List (List (List Char))

namespace Snapshot

/-- The tree that comes about when directories and then files are made, with all directories on the
way to them. Of two files in one place the later one stays. -/
def ofEntries (files : List (String × ByteArray)) (directories : List String) : Snapshot where
  files := (files.map fun e => ((Trail.ofName e.1).place, e.2)).reverse
  directories := (directories.map fun name => (Trail.ofName name).place) ++
    (directories ++ files.map Prod.fst).flatMap fun name => (Trail.ofName name).passed

def entry (s : Snapshot) (place : List (List Char)) : FileState :=
  match s.files.lookup place with
  | some bytes => .file bytes
  | none => if place = [] ∨ place ∈ s.directories then .directory else .missing

/-- Follows the parts of a path from a place. Above the top of the tree nothing is known but that the
directory is there. -/
def follow (s : Snapshot) : Option (List (List Char)) → List (List Char) → FileState
  | none, [] => .directory
  | some place, [] => s.entry place
  | none, part :: rest =>
    if part = [] ∨ part = ['.'] ∨ part = ['.', '.'] then follow s none rest else .missing
  | some place, part :: rest =>
    match s.entry place with
    | .directory =>
      if part = [] ∨ part = ['.'] then follow s (some place) rest
      else if part = ['.', '.'] then
        follow s (match place with
          | [] => none
          | _ :: above => some above) rest
      else follow s (some (part :: place)) rest
    | _ => .missing

def state (s : Snapshot) (path : String) : FileState :=
  match path.toList with
  | [] => .missing
  | '/' :: rest => s.follow none (FileName.parts rest)
  | cs => s.follow (some []) (FileName.parts cs)

end Snapshot

end TreePath
