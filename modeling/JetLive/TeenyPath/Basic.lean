import Mathlib.Data.List.Basic
import Mathlib.Data.String.Basic

/-!
# The path algebra of TeenyPath

A path is the list of its characters; nothing is normalized when it is built. As everywhere in the
model of the library, a character stands for one byte of a `std::string`: a name that is not ASCII
is given by the bytes of its encoding, such as `Ã©` for `é` in UTF-8.

The root of `/foo/bar` is `/foo` here, not `/`: `getRoot` and `isRoot` treat the
first directory of an absolute path as a root of its own, and a leading `//foo`
likewise. `lexicallyNormalized` only ever asks for the parent of a path that is
lexically normal already, so that the parent of such a path, `parentOfNormal`,
is defined before both.

What a path asks of the file system is a `FileSystem`.
-/

namespace JetLive

/-- The answers of the file system at one moment. `realpath` gives the resolved
absolute path of an existing file, `read` the content of a file that can be
opened. -/
structure FileSystem where
  access : String → Bool
  realpath : String → Option String
  isDirectory : String → Bool
  read : String → Option String

namespace TeenyPath

/-- `m_path` of a path. -/
abbrev Path := List Char

/-- What follows the last separator, the whole path without one. -/
def filename (p : Path) : Path := (p.reverse.takeWhile (· ≠ '/')).reverse

/-- `m_path.substr(0, m_path.find_last_of('/'))`: what precedes the last
separator, the whole path without one. -/
def beforeLastSeparator (p : Path) : Path :=
  if '/' ∈ p then (p.reverse.dropWhile (· ≠ '/')).tail.reverse else p

/-- The name of the root directory at the start of `rest`, where `rest` follows
the leading separators. It is empty if `rest` starts with `..`, with `./`, or is
`.` or nothing. -/
def rootName (rest : Path) : Path :=
  if ['.', '.'] <+: rest ∨ ['.', '/'] <+: rest ∨ rest = ['.'] ∨ rest = [] then []
  else rest.takeWhile (· ≠ '/')

/-- `//foo`, `/foo`, or just `//` and `/`; empty for a relative path. -/
def getRoot : Path → Path
  | '/' :: '/' :: rest =>
      if rest.head? = some '/' then ['/'] else '/' :: '/' :: rootName rest
  | '/' :: rest => '/' :: rootName rest
  | _ => []

/-- The root, then the non-empty components after it. -/
def split (p : Path) : List Path :=
  (if getRoot p = [] then [] else [getRoot p]) ++
    ((p.drop (getRoot p).length).splitOn '/').filter (· ≠ [])

/-- `/foo` or `//foo`: one or two separators and then another character. -/
def isAbsolute : Path → Bool
  | '/' :: '/' :: c :: _ => c ≠ '/'
  | '/' :: c :: _ => c ≠ '/'
  | _ => false

def isRoot (p : Path) : Bool :=
  ((split p).length = 1 && isAbsolute p) || p = ['/'] || p = ['/', '/']

def isLexicallyNormal (p : Path) : Bool :=
  (split p).count ['.', '.'] = 0 && (split p).count ['.'] = 0

/-- `operator/=`. -/
def append (p q : Path) : Path :=
  if q = [] then p
  else if q.head? ≠ some '/' ∧ p ≠ [] ∧ p.getLast? ≠ some '/' then p ++ '/' :: q
  else p ++ q

/-- `parent_path` of a path that is lexically normal. -/
def parentOfNormal (p : Path) : Path :=
  if isRoot p then getRoot p else beforeLastSeparator p

/-- One part of a path, read after the parts before it. -/
def normalizeStep (p part : Path) : Path :=
  if part = ['.', '.'] then parentOfNormal p
  else if part = ['.'] then p
  else append p part

def lexicallyNormalized (p : Path) : Path :=
  if isLexicallyNormal p then p else (split p).foldl normalizeStep []

def parentPath (p : Path) : Path :=
  if isRoot p then getRoot p
  else if isLexicallyNormal p then beforeLastSeparator p
  else parentOfNormal (lexicallyNormalized p)

/-- An absolute path is kept as it is written; any other is resolved by the file
system, to the empty path if it does not exist. -/
def resolveAbsolute (fs : FileSystem) (p : Path) : Path :=
  if isAbsolute p then p
  else match fs.realpath (String.ofList p) with
    | some r => r.toList
    | none => []

/-- `path::exists`. -/
def pathExists (fs : FileSystem) (p : Path) : Bool :=
  fs.access (String.ofList (resolveAbsolute fs p))

/-- `operator==` of two paths. -/
def samePath (p q : Path) : Bool := lexicallyNormalized p = lexicallyNormalized q

def filenameOf (s : String) : String := String.ofList (filename s.toList)

def parentOf (s : String) : String := String.ofList (parentPath s.toList)

end TeenyPath

end JetLive
