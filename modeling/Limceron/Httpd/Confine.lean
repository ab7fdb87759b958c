/-
# `Limceron.Httpd.Confine` — files below a directory

`runtime/httpd.c`, `serve_static_file`.  The path of a request, behind the name of a
directory, is the name of a file.  There are two things to ask of it:

| | holds |
| :-- | :-- |
| the file is below the directory | if the directory has a name; behind the empty one it is below the root |
| a path without `..` is not refused | if no name in it, or in that of the directory, ends with two dots |

The scan for `..` does not look at what stands in front of the dots (`served_contained_iff`).
-/
import Limceron.Httpd.Request
import Limceron.Lib.DotPaths

namespace Limceron.Httpd

open DotPaths

/-! ## Serving a file -/

/-- `mime_table`. -/
def mimeTable : List (Bytes × String) :=
  [(ascii ".html", "text/html"), (ascii ".css", "text/css"),
    (ascii ".js", "application/javascript"), (ascii ".json", "application/json"),
    (ascii ".svg", "image/svg+xml"), (ascii ".png", "image/png"), (ascii ".ico", "image/x-icon")]

/-- From the last dot on. -/
def lastDot (path : Bytes) : Option Bytes := path.tails.reverse.find? fun s => s.head? = some dot

def detectMime (path : Bytes) : String :=
  (((lastDot path).bind fun ext => mimeTable.lookup ext)).getD "application/octet-stream"

/-- `HTTPD_MAX_PATH`. -/
def httpdMaxPath : ℕ := 1024

inductive Reply where
  | error (status : ℕ) (message : String)
  | file (path : Bytes) (mime : String) (content : Bytes)
  deriving DecidableEq

/-- `/` is `/index.html`. -/
def servePath (path : Bytes) : Bytes := if path = [slash] then ascii "/index.html" else path

/-- `serve_static_file`, where `files` has the content of the regular files. -/
def serveStaticFile (files : Bytes → Option Bytes) (staticDir : Option Bytes)
    (req : LcnHttpRequest) : Reply :=
  match staticDir with
  | none => .error 404 "not found"
  | some dir =>
      let filepath := dir ++ servePath req.path
      if httpdMaxPath ≤ filepath.length then .error 400 "path too long"
      else if !pathIsSafe filepath then .error 403 "forbidden"
      else
        match files filepath with
        | none => .error 404 "not found"
        | some content => .file filepath (detectMime filepath) content

/-! ## What is meant -/

/-- The directory that a path leads to from `cwd`. -/
def resolved (cwd : List Bytes) (path : Bytes) : List Bytes :=
  walk (if path.head? = some slash then [] else cwd) (moves slash dot path)

def Confined (dir path : Bytes) : Prop := ∀ cwd, resolved cwd dir <+: resolved cwd path

/-- The path fits into its field, and behind the directory into the file's name. -/
structure Fits (dir raw : Bytes) (req : LcnHttpRequest) : Prop where
  field : ∀ method uri, requestLine raw = some (method, uri) →
    (urlDecode uri.length (splitUri uri).1).length ≤ fieldRoom
  name : (dir ++ servePath req.path).length < httpdMaxPath

/-- What is opened is confined, and a path without `..` is not refused. -/
structure Contained (dir raw : Bytes) : Prop where
  confined : ∀ files req path mime content, parseRequest raw = some req →
    serveStaticFile files (some dir) req = .file path mime content → Confined dir path
  served : ∀ req, parseTarget raw = some req → Fits dir raw req →
    [dot, dot] ∉ req.path.splitOn slash →
    parseRequest raw = some req ∧
      ∀ files, serveStaticFile files (some dir) req ≠ .error 403 "forbidden"

/-- A name ends with two dots. -/
def Dotted (path : Bytes) : Prop := ∃ name ∈ path.splitOn slash, [dot, dot] <:+ name

/-- The condition: see `served_contained_iff`. -/
structure Plain (dir raw : Bytes) : Prop where
  named : ∀ req, parseTarget raw = some req → (dir ++ servePath req.path).length < httpdMaxPath →
    pathIsSafe req.path = true → dir ≠ []
  undotted : ∀ req, parseTarget raw = some req → Fits dir raw req →
    [dot, dot] ∉ req.path.splitOn slash → ¬ Dotted req.path ∧ ¬ Dotted dir

/-! ## Paths that begin with a slash -/

theorem pathIsSafe_iff_not_dotted {p : Bytes} : pathIsSafe p = true ↔ ¬ Dotted p := by
  rw [pathIsSafe_iff, Dotted, not_exists]
  exact forall_congr' fun name => not_and.symm

theorem head_stripSlash {path : Bytes} (h : path.head? = some slash) :
    (stripSlash path).head? = some slash := by
  rw [stripSlash]
  split
  · next hlong =>
      rw [List.head?_dropLast, if_pos hlong.1, h]
  · exact h

theorem head_of_parseTarget {raw : Bytes} {req : LcnHttpRequest} (h : parseTarget raw = some req) :
    req.path.head? = some slash := by
  rcases Option.bind_eq_some_iff.1 h with ⟨⟨method, uri⟩, -, h⟩
  dsimp only at h
  split at h
  · next hslash =>
      cases h
      exact head_stripSlash hslash
  · cases h

theorem servePath_cons {path : Bytes} (h : path.head? = some slash) :
    ∃ rest, servePath path = slash :: rest := by
  rw [servePath]
  split
  · exact ⟨_, rfl⟩
  · rcases path with _ | ⟨c, rest⟩
    · cases h
    · cases h
      exact ⟨rest, rfl⟩

theorem dotted_append {p q : Bytes} : Dotted (p ++ slash :: q) ↔ Dotted p ∨ Dotted q := by
  simp only [Dotted, List.splitOn_append_cons_self, List.mem_append, or_and_right, exists_or]

theorem dotted_slash {p : Bytes} : Dotted (slash :: p) ↔ Dotted p := by
  have hnil : ¬ Dotted [] := pathIsSafe_iff_not_dotted.1 rfl
  exact (dotted_append (p := [])).trans (or_iff_right hnil)

theorem dotted_servePath {path : Bytes} : Dotted (servePath path) ↔ Dotted path := by
  rw [servePath]
  split
  · next hroot =>
      rw [hroot]
      exact iff_of_false (pathIsSafe_iff_not_dotted.1 (by decide))
        (pathIsSafe_iff_not_dotted.1 (by decide))
  · exact Iff.rfl

/-- The name of the file has the dots of the directory and of the path. -/
theorem dotted_filepath {dir path : Bytes} (h : path.head? = some slash) :
    Dotted (dir ++ servePath path) ↔ Dotted dir ∨ Dotted path := by
  rcases servePath_cons h with ⟨rest, hrest⟩
  rw [← @dotted_servePath path, hrest, dotted_append, dotted_slash]

/-! ## Below the directory -/

theorem confined_append {dir rest : Bytes} (hdir : dir ≠ []) (h : ¬ Dotted rest) :
    Confined dir (dir ++ slash :: rest) := by
  intro cwd
  rw [resolved, resolved, List.head?_append_of_ne_nil _ hdir, moves_append, walk_append]
  refine prefix_walk_of_not_up (net_of_not_up (up_not_mem_moves fun hdots => h ?_))
  exact ⟨_, hdots, List.suffix_refl _⟩

/-- What stands behind the empty name is below the root. -/
theorem not_confined_nil (rest : Bytes) : ¬ Confined [] (slash :: rest) := by
  intro h
  have hlength := (h (walk [] (moves slash dot (slash :: rest)) ++ [[]])).length_le
  have hstay : ∀ cwd, resolved cwd [] = cwd := fun _ => rfl
  rw [hstay, List.length_append] at hlength
  exact absurd hlength (Nat.not_succ_le_self _)

/-! ## The two sides -/

variable {dir raw : Bytes} {req : LcnHttpRequest}

theorem parseRequest_eq_some_iff :
    parseRequest raw = some req ↔ parseTarget raw = some req ∧ ¬ Dotted req.path := by
  rw [parseRequest, Option.bind_eq_some_iff]
  constructor
  · rintro ⟨req', htarget, h⟩
    split at h
    · next hsafe =>
        cases h
        exact ⟨htarget, pathIsSafe_iff_not_dotted.1 hsafe⟩
    · cases h
  · rintro ⟨htarget, h⟩
    exact ⟨req, htarget, if_pos (pathIsSafe_iff_not_dotted.2 h)⟩

theorem serveStaticFile_file {files : Bytes → Option Bytes} {path content : Bytes} {mime : String}
    (h : serveStaticFile files (some dir) req = .file path mime content) :
    (dir ++ servePath req.path).length < httpdMaxPath ∧ path = dir ++ servePath req.path := by
  rw [serveStaticFile] at h
  split at h
  · cases h
  · next hlong =>
      refine ⟨Nat.not_le.1 hlong, ?_⟩
      split at h
      · cases h
      · split at h
        · cases h
        · cases h
          rfl

/-- A path that is safe is served from any file that is there. -/
theorem serveStaticFile_safe (hlong : (dir ++ servePath req.path).length < httpdMaxPath)
    (hsafe : ¬ Dotted (dir ++ servePath req.path)) (content : Bytes) :
    serveStaticFile (fun _ => some content) (some dir) req =
      .file (dir ++ servePath req.path) (detectMime (dir ++ servePath req.path)) content := by
  rw [serveStaticFile, if_neg (Nat.not_le.2 hlong), pathIsSafe_iff_not_dotted.2 hsafe]
  rfl

theorem serveStaticFile_forbidden_iff {files : Bytes → Option Bytes}
    (hlong : (dir ++ servePath req.path).length < httpdMaxPath) :
    serveStaticFile files (some dir) req = .error 403 "forbidden" ↔
      Dotted (dir ++ servePath req.path) := by
  rw [serveStaticFile, if_neg (Nat.not_le.2 hlong)]
  by_cases hsafe : pathIsSafe (dir ++ servePath req.path) = true
  · rw [hsafe]
    refine iff_of_false ?_ (pathIsSafe_iff_not_dotted.1 hsafe)
    cases hfile : files (dir ++ servePath req.path) with
    | none => simp
    | some content => simp
  · refine iff_of_true ?_ (not_not.1 (mt pathIsSafe_iff_not_dotted.2 hsafe))
    rw [eq_false_of_ne_true hsafe]
    rfl

/-- Requests are contained if and only if their paths are plain. -/
theorem served_contained_iff (dir raw : Bytes) : Contained dir raw ↔ Plain dir raw := by
  constructor
  · intro h
    constructor
    · intro req htarget hlong hsafe hnil
      have hpath := pathIsSafe_iff_not_dotted.1 hsafe
      have hhead := head_of_parseTarget htarget
      have hname : ¬ Dotted (dir ++ servePath req.path) := by
        rw [dotted_filepath hhead, hnil]
        exact not_or.2 ⟨pathIsSafe_iff_not_dotted.1 rfl, hpath⟩
      have hconfined := h.confined _ req _ _ _ (parseRequest_eq_some_iff.2 ⟨htarget, hpath⟩)
        (serveStaticFile_safe hlong hname [])
      rcases servePath_cons hhead with ⟨rest, hrest⟩
      rw [hnil, hrest] at hconfined
      exact not_confined_nil rest hconfined
    · intro req htarget hfits hdots
      rcases h.served req htarget hfits hdots with ⟨hparse, hreply⟩
      have hname := mt (serveStaticFile_forbidden_iff hfits.name).2 (hreply fun _ => none)
      rw [dotted_filepath (head_of_parseTarget htarget), not_or] at hname
      exact ⟨hname.2, hname.1⟩
  · intro h
    constructor
    · intro files req path mime content hparse hreply
      rcases parseRequest_eq_some_iff.1 hparse with ⟨htarget, hpath⟩
      rcases serveStaticFile_file hreply with ⟨hlong, rfl⟩
      have hne := h.named req htarget hlong (pathIsSafe_iff_not_dotted.2 hpath)
      rcases servePath_cons (head_of_parseTarget htarget) with ⟨rest, hrest⟩
      rw [hrest]
      refine confined_append hne ?_
      rwa [← dotted_slash, ← hrest, dotted_servePath]
    · intro req htarget hfits hdots
      rcases h.undotted req htarget hfits hdots with ⟨hpath, hname⟩
      refine ⟨parseRequest_eq_some_iff.2 ⟨htarget, hpath⟩, fun files => ?_⟩
      rw [ne_eq, serveStaticFile_forbidden_iff hfits.name,
        dotted_filepath (head_of_parseTarget htarget)]
      exact not_or.2 ⟨hname, hpath⟩

/-- `/a..` is refused, though it is a name like any other. -/
theorem not_contained :
    ¬ ∀ dir raw : Bytes, [dot, dot] ∉ dir.splitOn slash → Contained dir raw := by
  intro h
  let req : LcnHttpRequest :=
    { method := ascii "GET", path := ascii "/a..", query := [], body := [] }
  have htarget : parseTarget (ascii "GET /a.. HTTP/1.1") = some req := by decide
  have hfits : Fits (ascii "srv") (ascii "GET /a.. HTTP/1.1") req := by
    refine ⟨fun method uri hline => ?_, by decide⟩
    have huri : requestLine (ascii "GET /a.. HTTP/1.1") = some (ascii "GET", ascii "/a..") := by
      decide
    cases huri.symm.trans hline
    decide
  have hserved := (h (ascii "srv") (ascii "GET /a.. HTTP/1.1") (by decide)).served req htarget
    hfits (by decide)
  exact absurd hserved.1 (by decide)

end Limceron.Httpd
