import TeenyLang.Text.Quoted

set_option autoImplicit false

/-!
# Paths

A path is a root and the names below it. Reading one drops empty and single-dot names and
keeps double-dot names as they stand. A path that starts with exactly two slashes keeps
both.
-/
namespace TeenyLang

inductive PathRoot where
  | here
  | slash
  | doubleSlash
deriving DecidableEq, Repr

structure Path where
  root : PathRoot
  names : List String
deriving DecidableEq, Repr

namespace Path

def pieces (piece : List Char) : List Char → List (List Char)
  | [] => [piece.reverse]
  | '/' :: rest => piece.reverse :: pieces [] rest
  | c :: rest => pieces (c :: piece) rest

def components (text : String) : List String :=
  (pieces [] text.toList).map String.ofList

def rootOf (text : List Char) : PathRoot :=
  match text with
  | '/' :: '/' :: '/' :: _ => .slash
  | '/' :: '/' :: _ => .doubleSlash
  | '/' :: _ => .slash
  | _ => .here

def ofText (text : String) : Path :=
  ⟨rootOf text.toList, (components text).filter fun name => !(name.isEmpty || name == ".")⟩

def rootText : PathRoot → String
  | .here => ""
  | .slash => "/"
  | .doubleSlash => "//"

/-- The text of a path; the empty path is a dot. -/
def text (p : Path) : String :=
  if p.root = .here && p.names.isEmpty then "."
  else rootText p.root ++ "/".intercalate p.names

inductive SuffixFault where
  | invalidSuffix (suffix : String)
  | noName (path : Path)
deriving DecidableEq, Repr

def SuffixFault.message : SuffixFault → String
  | invalidSuffix suffix => s!"Invalid suffix {Text.quoted suffix}"
  | noName path => s!"PosixPath({Text.quoted path.text}) has an empty name"

/-- Whether a suffix is empty, or a dot and more with no slash in it. -/
def isSuffix (suffix : List Char) : Bool :=
  match suffix with
  | [] => true
  | '.' :: rest => !rest.isEmpty && !rest.contains '/'
  | _ => false

/-- A name without its suffix, which starts at the last dot. A dot at either end of the name
starts none. -/
def stem (name : List Char) : List Char :=
  let tail := name.reverse.takeWhile (· ≠ '.')
  let before := (name.reverse.dropWhile (· ≠ '.')).tail.reverse
  if tail.isEmpty || before.isEmpty then name else before

def withSuffix (p : Path) (suffix : String) : Except SuffixFault Path :=
  if !isSuffix suffix.toList then .error (.invalidSuffix suffix)
  else
    match p.names.getLast? with
    | none => .error (.noName p)
    | some name =>
      .ok { p with
        names := p.names.dropLast ++ [String.ofList (stem name.toList) ++ suffix] }

end Path

end TeenyLang
