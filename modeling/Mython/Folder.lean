namespace Mython

/-- Why a file could not be read. -/
inductive ReadError where
  | notFound
  | isDirectory
  | notDirectory
  | nameTooLong
  | notUtf8
  | other (message : String)

/-- The wording of a read error. -/
def ReadError.message : ReadError → String
  | notFound => "No such file or directory (os error 2)"
  | isDirectory => "Is a directory (os error 21)"
  | notDirectory => "Not a directory (os error 20)"
  | nameTooLong => "File name too long (os error 36)"
  | notUtf8 => "stream did not contain valid UTF-8"
  | other message => message

/-- What a name in a folder stands for. -/
inductive Entry where
  | file (bytes : ByteArray)
  | folder (entries : List (String × Entry))

/-- Entries under their names. Of two under one name the first counts. -/
abbrev Folder := List (String × Entry)

/-- Puts a file under the last of the names; the others name the folders on the way to it, which
are made where they are missing. -/
def Folder.put (folder : Folder) (bytes : ByteArray) : List String → Folder
  | [] => folder
  | [name] => (name, .file bytes) :: folder
  | name :: next :: rest =>
    let inner : Folder := match folder.lookup name with
      | some (.folder entries) => entries
      | _ => []
    (name, .folder (Folder.put inner bytes (next :: rest))) :: folder

/-- A folder with the folders around it, the nearest first. -/
structure Place where
  here : Folder
  around : List Folder

namespace Place

/-- The folder around a place. Around the outermost there is only itself. -/
def up (place : Place) : Place :=
  match place.around with
  | [] => place
  | outer :: around => ⟨outer, around⟩

/-- The outermost folder around a place. -/
def root (place : Place) : Place :=
  match place.around.getLast? with
  | none => place
  | some outermost => ⟨outermost, []⟩

/-- The most bytes that a name may have. -/
def longestName : Nat := 255

/-- The most bytes that a path may have. -/
def longestPath : Nat := 4095

/-- The file that names lead to from a place, one after the other. -/
def follow (place : Place) : List String → Except ReadError ByteArray
  | [] => .error .isDirectory
  | name :: rest =>
    if name = "" ∨ name = "." then place.follow rest
    else if name = ".." then place.up.follow rest
    else if longestName < name.utf8ByteSize then .error .nameTooLong
    else match place.here.lookup name with
      | none => .error .notFound
      | some (.folder entries) => Place.follow ⟨entries, place.here :: place.around⟩ rest
      | some (.file bytes) => if rest.isEmpty then .ok bytes else .error .notDirectory

/-- The file that a path leads to from a place. -/
def read (place : Place) (path : String) : Except ReadError ByteArray :=
  if path.isEmpty then .error .notFound
  else if longestPath < path.utf8ByteSize then .error .nameTooLong
  else (if path.startsWith "/" then place.root else place).follow (path.splitOn "/")

end Place

end Mython
