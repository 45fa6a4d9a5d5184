import BirakFormal.Shared.Symlinks
import BirakFormal.Syncer.Naming

/-!
# Paths that clients may name

`SafePath`: a request is cleaned, held to the namespace rules, joined with the root, and then
resolved through the symbolic links of the host, one component after the other down to the
first that does not exist. The resolved path has to stay below the root and keep the same rules.

A path of the host is given component by component; the empty list is `/`.
-/

namespace BirakFormal

open Symlinks

inductive HostEntry where
  | dir
  | file
  | link (target : String)
  deriving DecidableEq, Repr

def stepOf (c : String) : Step String :=
  if c = "" ∨ c = "." then .stay else if c = ".." then .up else .name c

def HostEntry.kind : HostEntry → Kind String
  | .dir => .dir
  | .file => .file
  | .link target => .link (hasPrefix target "/") ((split target).map stepOf)

structure Host where
  entry : List String → Option HostEntry
  rooted : ∀ p c, entry (p ++ [c]) ≠ none → p = [] ∨ entry p = some .dir

def Host.tree (h : Host) : Symlinks.Tree String where
  entry p := (h.entry p).map HostEntry.kind
  rooted p c hp := by
    rcases h.rooted p c (fun hnone => hp (by rw [hnone]; rfl)) with hnil | hdir
    · exact Or.inl hnil
    · exact Or.inr (by rw [hdir]; rfl)

def maxNested : Nat := 40

/-- `os.Lstat`: everything but the last component is followed by the kernel. -/
def Host.lstat (h : Host) (p : List String) : Option HostEntry :=
  match p.getLast? with
  | none => some .dir
  | some c =>
    match stepOf c with
    | .name c => (follow h.tree maxNested [] (p.dropLast.map stepOf)).bind fun d => h.entry (d.1 ++ [c])
    | _ => (follow h.tree maxNested [] (p.map stepOf)).map fun _ => .dir

/-- `filepath.Join`. -/
def joinPath (a b : String) : String :=
  if a = "" then (if b = "" then "" else clean b) else clean (a ++ "/" ++ b)

def render (p : List String) : String := "/" ++ joinSlash p

/-- `filepath.Abs` in the working directory `cwd`. -/
def absPath (cwd : List String) (path : String) : String :=
  if hasPrefix path "/" then clean path else joinPath (render cwd) path

def pathComponents (path : String) : List String := (split path).filter (· ≠ "")

def dropCommon : List String → List String → List String × List String
  | a :: as, b :: bs => if a = b then dropCommon as bs else (a :: as, b :: bs)
  | as, bs => (as, bs)

/-- `filepath.Rel`. -/
def relPath (base targ : String) : Except String String :=
  let b := cleanParts (hasPrefix base "/") [] (split base)
  let t := cleanParts (hasPrefix targ "/") [] (split targ)
  let rest := dropCommon b t
  if hasPrefix base "/" ≠ hasPrefix targ "/" || rest.1.head? = some ".." then
    .error ("Rel: can't make " ++ targ ++ " relative to " ++ base)
  else if rest.1 = [] ∧ rest.2 = [] then .ok "."
  else .ok (joinSlash (rest.1.map (fun _ => "..") ++ rest.2))

/-- How many links `filepath.EvalSymlinks` follows along one path. -/
def maxSymlinks : Nat := 255

def Host.evalSymlinks (h : Host) (path : String) : Option String :=
  (follow h.tree maxSymlinks [] ((split path).map stepOf)).map fun d => render d.1

/-- Drop the last component, or leave it to `Lstat` at the top. -/
def dropComponent (dest : List String) : List String :=
  if 1 < dest.length ∧ dest.getLast? ≠ some ".." then dest.dropLast else dest ++ [".."]

/-- How far the elements of a path lead: to their end, or to a link, with the directory its
target starts from and the elements still to resolve. -/
inductive Evaluated where
  | stopped (dest : List String)
  | linked (dest path : List String)

/-- `evalEntry` up to the next link. -/
def evalElems (h : Host) : List String → List String → Option Evaluated
  | dest, [] => some (.stopped dest)
  | dest, elem :: rest =>
    if elem = "" ∨ elem = "." then evalElems h dest rest
    else if elem = ".." then evalElems h (dropComponent dest) rest
    else
      match h.lstat (dest ++ [elem]) with
      | none => none
      | some .dir => evalElems h (dest ++ [elem]) rest
      | some .file => if rest.isEmpty then some (.stopped (dest ++ [elem])) else none
      | some (.link target) =>
        some (.linked (if hasPrefix target "/" then [] else dest) (split target ++ rest))

/-- `evalEntry`, with the number of links that may still be followed. -/
def evalEntry (h : Host) (left : Nat) (dest path : List String) : Option (List String × Nat) :=
  match evalElems h dest path with
  | none => none
  | some (.stopped dest) => some (dest, left)
  | some (.linked dest path) =>
    match left with
    | 0 => none
    | left + 1 => evalEntry h left dest path

/-- The loop of `evalDeepestAncestor`: what is resolved, and the components that are not. -/
def evalAncestors (h : Host) : Nat → List String → List String → List String × List String
  | _, dest, [] => (dest, [])
  | left, dest, name :: next =>
    match evalEntry h left dest [name] with
    | none => (dest, name :: next)
    | some (resolved, left) => evalAncestors h left resolved next

def evalDeepestAncestor (h : Host) (p : String) : String :=
  let r := evalAncestors h maxSymlinks [] (pathComponents p)
  joinPath (render r.1) (joinSlash r.2)

def resolveNoSymlinkEscape (h : Host) (cwd : List String) (rootDir full : String) :
    Except String (String × Option String) :=
  let absFull := absPath cwd full
  match h.evalSymlinks (absPath cwd rootDir) with
  | none => .ok (absFull, none)
  | some realRoot =>
    let resolved := evalDeepestAncestor h absFull
    if resolved ≠ realRoot ∧ !hasPrefix resolved (realRoot ++ "/") then .error "path traversal"
    else .ok (resolved, some realRoot)

def validateResolved (patterns : String → Bool) (resolved realRoot : String) : Except String Unit :=
  match relPath realRoot resolved with
  | .error e => .error ("resolve symlink target: " ++ e)
  | .ok rel => validateClientPath patterns (if rel = "." then "" else rel)

def cleanRequest (reqPath : String) : String :=
  let cleaned := clean reqPath
  let cleaned := if cleaned = "." ∨ cleaned = "/" then "" else cleaned
  if hasPrefix cleaned "/" then String.ofList (cleaned.toList.drop 1) else cleaned

def safePath (h : Host) (cwd : List String) (rootDir reqPath : String) (patterns : String → Bool) :
    Except String (String × String) :=
  let cleaned := cleanRequest reqPath
  let full := joinPath rootDir cleaned
  if hasPrefix cleaned "../" ∨ cleaned = ".." then .error "path traversal"
  else if cleaned = "" then .ok ("", rootDir)
  else
    match validateClientPath patterns cleaned with
    | .error e => .error e
    | .ok () =>
      if !hasPrefix (absPath cwd full) (absPath cwd rootDir ++ "/") then .error "path traversal"
      else
        match resolveNoSymlinkEscape h cwd rootDir full with
        | .error e => .error e
        | .ok (_, none) => .ok (cleaned, full)
        | .ok (resolved, some realRoot) =>
          match validateResolved patterns resolved realRoot with
          | .error e => .error e
          | .ok () => .ok (cleaned, full)

end BirakFormal
