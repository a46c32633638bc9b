import Combinatory.Text.Quoted

/-!
# Destinations

What a path leads to from a folder with nothing in it: a folder, a place for a file, or the sink
that keeps nothing of what is written to it. The names in a path are divided by slashes; all but the
last must name folders. Of the folders elsewhere, only the root and the standard ones in it are
known.
-/

namespace Combinatory

/-- Why a path cannot be used for a file. -/
inductive PathFault where
  | noFolder
  | notFolder
  | isFolder
  | tooLong
  | nullCharacter
deriving DecidableEq, Repr

namespace PathFault

/-- The wording of a fault in a path. -/
def message (path : String) : PathFault → String
  | noFolder => "[Errno 2] No such file or directory: " ++ Text.quoted path
  | notFolder => "[Errno 20] Not a directory: " ++ Text.quoted path
  | isFolder => "[Errno 21] Is a directory: " ++ Text.quoted path
  | tooLong => "[Errno 36] File name too long: " ++ Text.quoted path
  | nullCharacter => "embedded null byte"

end PathFault

/-- A folder, as a path leads to it. -/
inductive Folder where
  /-- The folder so many levels above the empty one. -/
  | above (levels : Nat)
  | root
  /-- A standard folder in the root. -/
  | standard (name : String)
deriving DecidableEq, Repr

/-- The names of the standard folders in the root. -/
def Folder.standardNames : List String :=
  ["bin", "boot", "dev", "etc", "home", "lib", "media", "mnt", "opt", "proc", "root", "run", "sbin",
    "srv", "sys", "tmp", "usr", "var"]

/-- A path taken apart. -/
structure Path where
  start : Folder
  names : List String
  /-- Whether a slash follows the last name. -/
  isClosed : Bool
deriving Repr

namespace Path

/-- The path that a text spells. -/
def ofText (text : String) : Except PathFault Path :=
  let cs := text.toList
  if cs.contains (Char.ofNat 0) then .error .nullCharacter
  else if cs.isEmpty then .error .noFolder
  else if text.utf8ByteSize > 4095 then .error .tooLong
  else
    let names := (cs.splitBy fun a b => a ≠ '/' && b ≠ '/').filter fun word => word ≠ ['/']
    .ok ⟨if cs.head? = some '/' then .root else .above 0, names.map String.ofList,
      cs.getLast? = some '/'⟩

end Path

/-- What a path leads to. -/
inductive Destination where
  | folder (f : Folder)
  /-- What is written here is gone. -/
  | sink
  /-- A place for a file that is not there yet. -/
  | file (folder : Folder) (name : String)
deriving DecidableEq, Repr

/-- Where a name leads from a folder. -/
def Folder.entry (f : Folder) (name : String) : Except PathFault Destination :=
  match f, name with
  | f, "." => .ok (.folder f)
  | above n, ".." => .ok (.folder (above (n + 1)))
  | _, ".." => .ok (.folder root)
  | standard "dev", "null" => .ok .sink
  | f, name =>
    if name.utf8ByteSize > 255 then .error .tooLong
    else if f = root && standardNames.contains name then .ok (.folder (standard name))
    else .ok (.file f name)

namespace Destination

/-- Where a name leads from a destination, which must be a folder. -/
def enter (d : Destination) (name : String) : Except PathFault Destination :=
  match d with
  | folder f => f.entry name
  | sink => .error .notFolder
  | file _ _ => .error .noFolder

/-- Where some names lead from a folder, one after another. -/
def follow (f : Folder) (names : List String) : Except PathFault Destination :=
  names.foldlM enter (folder f)

/-- Where a file is written that is to be at a path. A name with a slash after it can only be that
of a folder. -/
def forWriting (path : String) : Except PathFault Destination := do
  let p ← Path.ofText path
  match p.names.getLast? with
  | none => throw .isFolder
  | some last =>
    match ← follow p.start p.names.dropLast, p.isClosed with
    | folder _, true => throw .isFolder
    | parent, _ =>
      match ← parent.enter last with
      | folder _ => throw .isFolder
      | d => return d

/-- The text of the file at a path after `written` was written, or `none` if no file is there.
Folders have no text, and the sink is always empty. -/
def read (written : Option (Destination × String)) (path : String) :
    Except PathFault (Option String) :=
  match Path.ofText path with
  | .error _ => .ok none
  | .ok p =>
    match follow p.start p.names, p.isClosed with
    | .error _, _ => .ok none
    | .ok (folder _), _ => .error .isFolder
    | .ok _, true => .ok none
    | .ok sink, false => .ok (some "")
    | .ok d, false => .ok ((written.filter (·.1 = d)).map (·.2))

end Destination

end Combinatory
