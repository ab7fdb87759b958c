/-
# `Limceron.Load.Imports` — resolving the imports of a program

`resolve_imports` of `main.c`.  It goes through the `use` declarations of a file, finds
the file of each, parses it, resolves its imports, and merges its declarations into the
program.  What `stat`, `read_source_file` and `parse_source` say of a path is `File`.

| table     | holds                                   | places | a full table           |
|-----------|-----------------------------------------|--------|------------------------|
| `paths`   | the files that were visited             | 64     | takes no more          |
| `stack`   | the files that are being resolved       | 64     | takes no more, but pops |
| `entries` | the declarations that were seen         | 512    | takes no more          |

The messages are not modelled, apart from the count of the cycles.
-/
import Limceron.Parse.Syntax

namespace Limceron.Load

open Parse (Node NodeKind NodeVal)

abbrev Path := List Char

/-! ## Files -/

/-- What a path leads to, if `stat` finds something there. -/
inductive File where
  /-- It cannot be opened, or is too large. -/
  | unreadable
  /-- It has a syntax error. -/
  | broken
  | program (params : List Node)

structure Files where
  file : Path → Option File
  baseDir : Path
  stdlibDir : Path

/-! ## The path of a `use` -/

def isModuleUse (d : Node) : Bool :=
  d.kind = .use && match d.name with
    | none => false
    | some n => n ≠ "mcp" && n ≠ "a2a" && n ≠ "driver" && n ≠ "model"

def isStdImport (name : Path) : Bool := "std.".toList.isPrefixOf name

/-- A buffer holds 512 bytes, the last of them a NUL. -/
def pathSize : ℕ := 511

def usePathToFilepath (usePath baseDir : Path) : Path :=
  (baseDir ++ '/' :: usePath.map fun c => if c = '.' then '/' else c).take pathSize

/-- The file a `use` names: `.lceron` first, then `.lceron.md`. -/
def useTarget (fs : Files) (d : Node) : Option Path :=
  if isModuleUse d then
    let name := (d.name.getD "").toList
    let relPath :=
      if isStdImport name then usePathToFilepath (name.drop 4) fs.stdlibDir
      else usePathToFilepath name fs.baseDir
    let fullPath := (relPath ++ ".lceron".toList).take pathSize
    if (fs.file fullPath).isSome then some fullPath
    else
      let fullPath := (relPath ++ ".lceron.md".toList).take pathSize
      if (fs.file fullPath).isSome then some fullPath else none
  else none

/-! ## The tables -/

def maxImportPaths : ℕ := 64

structure ImportTracker where
  paths : List Path := []
  stack : List Path := []
  errors : ℕ := 0

namespace ImportTracker

def visited (t : ImportTracker) (path : Path) : Bool := t.paths.any fun p => decide (p = path)

def markVisited (t : ImportTracker) (path : Path) : ImportTracker :=
  if t.paths.length < maxImportPaths then { t with paths := t.paths ++ [path.take pathSize] } else t

def onStack (t : ImportTracker) (path : Path) : Bool := t.stack.any fun p => decide (p = path)

def stackPush (t : ImportTracker) (path : Path) : ImportTracker :=
  if t.stack.length < maxImportPaths then { t with stack := t.stack ++ [path.take pathSize] }
  else t

def stackPop (t : ImportTracker) : ImportTracker := { t with stack := t.stack.dropLast }

end ImportTracker

def maxDeclEntries : ℕ := 512

structure DeclEntry where
  kind : NodeKind
  name : String

abbrev DeclTracker := List DeclEntry

def declSeen (t : DeclTracker) (kind : NodeKind) : Option String → Bool
  | none => false
  | some name => t.any fun e => decide (e.kind = kind ∧ e.name = name)

def declMarkSeen (t : DeclTracker) (kind : NodeKind) : Option String → DeclTracker
  | none => t
  | some name => if t.length < maxDeclEntries then t ++ [⟨kind, name⟩] else t

/-! ## Merging -/

/-- The name of a module, from the path of its file. -/
def moduleStem (path : Path) : String :=
  let base := (path.reverse.takeWhile (· ≠ '/')).reverse
  let base :=
    if ".lceron.md".toList.isSuffixOf base then base.take (base.length - 10)
    else if ".lceron".toList.isSuffixOf base then base.take (base.length - 7)
    else base
  String.ofList ((base.take 127).map fun c => if c = '-' ∨ c = '.' then '_' else c)

/-- A declaration of the program, with the file it comes from and its place there. -/
structure Merged where
  node : Node
  file : Path
  index : ℕ

/-- The program, and its declarations that were seen. -/
structure Target where
  params : List Merged
  decls : DeclTracker

/-- A function is tagged with its module. -/
def tagStem (stem : String) (imp : Node) : Node :=
  if imp.kind = .fn ∧ imp.val = .none then { imp with val := .str stem } else imp

def isDecl (imp : Node) : Bool := !(imp.kind = .use || imp.kind = .module)

/-- One declaration of a file.  One that was seen is dropped, if it is not a function. -/
def mergeDecl (path : Path) (t : Target) (imp : Node × ℕ) : Target :=
  let merged : Merged := ⟨tagStem (moduleStem path) imp.1, path, imp.2⟩
  if isDecl imp.1 then
    if declSeen t.decls imp.1.kind imp.1.name then
      if imp.1.kind = .fn then { t with params := t.params ++ [merged] } else t
    else
      { params := t.params ++ [merged]
        decls := declMarkSeen t.decls imp.1.kind imp.1.name }
  else t

def mergeFile (path : Path) (params : List Node) (t : Target) : Target :=
  params.zipIdx.foldl (mergeDecl path) t

/-! ## The search -/

structure Loader where
  imports : ImportTracker
  target : Target
  /-- The files that were given to the parser. -/
  parsed : List Path
  /-- What the calls return, added up. -/
  resolved : ℕ

def Loader.push (s : Loader) (path : Path) : Loader :=
  { s with imports := (s.imports.markVisited path).stackPush path }

def Loader.pop (s : Loader) : Loader := { s with imports := s.imports.stackPop }

def Loader.parse (s : Loader) (path : Path) : Loader := { s with parsed := s.parsed ++ [path] }

/-- One declaration of the file that is scanned. -/
def resolveUse (fs : Files) (resolve : List Node → Loader → Option Loader) (s : Loader)
    (d : Node) : Option Loader :=
  match useTarget fs d with
  | none => some s
  | some path =>
      if s.imports.onStack path then
        some { s with imports := { s.imports with errors := s.imports.errors + 1 } }
      else if s.imports.visited path then some s
      else
        match fs.file path with
        | none => some s
        | some .unreadable => some (s.push path).pop
        | some .broken => some ((s.push path).parse path).pop
        | some (.program params) =>
            (resolve params ((s.push path).parse path)).map fun s =>
              Loader.pop
                { s with target := mergeFile path params s.target, resolved := s.resolved + 1 }

/-- `resolve_imports`, at most `n` files deep.  What is merged into the program while it is
scanned is no `use`, and so is not scanned here. -/
def resolveImports (fs : Files) : ℕ → List Node → Loader → Option Loader
  | 0, _, _ => none
  | n + 1, scan, s => scan.foldlM (resolveUse fs (resolveImports fs n)) s

/-- The loader before the first call: the entry file is parsed, visited and on the stack,
and its declarations are seen. -/
def Loader.start (entry : Path) (params : List Node) : Loader where
  imports := (({ } : ImportTracker).markVisited entry).stackPush entry
  target :=
    { params := params.zipIdx.map fun (d, i) => ⟨d, entry, i⟩
      decls := (params.filter isDecl).foldl (fun t d => declMarkSeen t d.kind d.name) [] }
  parsed := [entry]
  resolved := 0

end Limceron.Load
