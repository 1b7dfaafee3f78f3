import SimtAsm.Text.Utf8
import Std.Data.ExtTreeMap

namespace SimtAsm

open Std

inductive FileError
  | notFound
  | notDirectory
  | isDirectory
  | notUtf8
  deriving DecidableEq, Repr

def FileError.message : FileError → Text
  | notFound => "No such file or directory (os error 2)"
  | notDirectory => "Not a directory (os error 20)"
  | isDirectory => "Is a directory (os error 21)"
  | notUtf8 => "stream did not contain valid UTF-8"

inductive Node
  | directory
  | file (bytes : List UInt8)
  deriving DecidableEq, Repr

/-- The directories and files of a machine, each under the names that lead to it from the root, and the directory
that a command works in. The root itself is not listed. -/
structure Files where
  nodes : ExtTreeMap (List Text) Node
  current : List Text

/-- Where a path ends. -/
inductive Place
  | directory
  /-- A name in a directory, taken by a file or still free. -/
  | name (path : List Text)
  /-- The same with slashes behind it, as only a directory may have them. -/
  | slashed (path : List Text)
  deriving DecidableEq, Repr

namespace Files

/-- The steps between the slashes of a path. -/
def steps (path : Text) : List Text := path.pieces (· == '/')

def node? (files : Files) (path : List Text) : Option Node :=
  if path = [] then some .directory else files.nodes[path]?

/-- Follows steps from a directory. An empty step and a single dot stay where they are, and two dots go back, save
from the root, which has nothing above it. -/
def placeFrom (files : Files) (directory : List Text) : List Text → Except FileError Place
  | [] => .ok .directory
  | step :: rest =>
    if step = [] ∨ step = ['.'] then files.placeFrom directory rest
    else if step = ['.', '.'] then files.placeFrom directory.dropLast rest
    else
      let reached := directory ++ [step]
      if files.node? reached = some .directory then files.placeFrom reached rest
      else if rest = [] then .ok (.name reached)
      else if rest.all List.isEmpty then .ok (.slashed reached)
      else if (files.node? reached).isSome then .error .notDirectory
      else .error .notFound

/-- The place of a path, from the root if it begins with a slash. The empty path has none. -/
def place (files : Files) : Text → Except FileError Place
  | [] => .error .notFound
  | '/' :: rest => files.placeFrom [] (steps rest)
  | path => files.placeFrom files.current (steps path)

def read (files : Files) (path : Text) : Except FileError (List UInt8) :=
  match files.place path with
  | .error error => .error error
  | .ok .directory => .error .isDirectory
  | .ok (.slashed target) => if (files.node? target).isSome then .error .notDirectory else .error .notFound
  | .ok (.name target) =>
    match files.node? target with
    | some (.file bytes) => .ok bytes
    | some .directory => .error .isDirectory
    | none => .error .notFound

/-- Puts a file in the place of a path, over the one that may be there. -/
def write (files : Files) (path : Text) (bytes : List UInt8) : Except FileError Files :=
  match files.place path with
  | .error error => .error error
  | .ok .directory | .ok (.slashed _) => .error .isDirectory
  | .ok (.name target) => .ok { files with nodes := files.nodes.insert target (.file bytes) }

end Files

end SimtAsm
