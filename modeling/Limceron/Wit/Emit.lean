/-
# `Limceron.Wit.Emit` — the WIT file of a program

`lcn_emit_wit` writes, for each agent, an interface for each prefix of its
capabilities and a world:

| block | lines |
| :-- | :-- |
| `interface prefix` | a `func` for each capability with the prefix |
| `world agent` | `import prefix;`, the host lists, the exported functions |

Signatures come from a table of eight capabilities; any other capability is
written as a function without parameters that returns a string.  An agent has at
most 64 capabilities and 32 prefixes here.
-/
import Mathlib.Data.List.DropRight
import Limceron.Json.Value

namespace Limceron.Wit

open Json (ascii)

/-- A string of the compiler, without its NUL. -/
abbrev Bytes := List UInt8

/-! ## Declarations -/

/-- A type as it is written. -/
inductive TypeExpr where
  | named (name : Bytes) (generics : List TypeExpr)
  | optional (left : TypeExpr)
  | slice (left : TypeExpr)
  | array (left : TypeExpr)
  | ref (left : TypeExpr)
  | ptr (left : TypeExpr)
  | infer
  | other

/-- An entry of a list of capabilities: a verb, or one with its hosts. -/
inductive CapEntry where
  | ident (name : Bytes)
  | item (name : Bytes) (hosts : List Bytes)
  deriving DecidableEq

/-- The value of a field: a list, or anything else. -/
inductive FieldValue where
  | array (params : List CapEntry)
  | other
  deriving DecidableEq

structure Field where
  name : Bytes
  right : FieldValue
  deriving DecidableEq

structure Param where
  name : Bytes
  typeExpr : Option TypeExpr

structure Fn where
  name : Bytes
  params : List Param
  typeExpr : Option TypeExpr

structure Agent where
  name : Bytes
  params : List Field
  /-- The functions in the body. -/
  left : List Fn

/-- The agents of a program, in the order of its declarations. -/
abbrev Program := List Agent

def CapEntry.name : CapEntry → Bytes
  | .ident name => name
  | .item name _ => name

def capabilitiesField : Bytes := ascii "capabilities"

/-- The list the passes read: the value of the first `capabilities` field. -/
def capabilityEntries (agent : Agent) : List CapEntry :=
  match agent.params.find? (·.name = capabilitiesField) with
  | some ⟨_, .array params⟩ => params
  | _ => []

/-! ## The signatures -/

def witCapTable : List (Bytes × Bytes) := [
  (ascii "llm.classify", ascii "classify: func(text: string) -> tuple<string, f64>"),
  (ascii "llm.complete", ascii "complete: func(prompt: string) -> string"),
  (ascii "llm.chat", ascii "chat: func(messages: list<string>) -> string"),
  (ascii "data.read", ascii "read: func(query: string) -> string"),
  (ascii "data.write", ascii "write: func(key: string, value: string) -> result<_, string>"),
  (ascii "kb.search", ascii "search: func(query: string, top-k: u32) -> list<string>"),
  (ascii "http.fetch", ascii "fetch: func(url: string) -> result<list<u8>, string>"),
  (ascii "mcp.call", ascii "call: func(tool: string, args: string) -> string")]

def witLookupCapSig (qualified : Bytes) : Option Bytes :=
  (witCapTable.find? (·.1 = qualified)).map (·.2)

/-! ## The buffer -/

/-- `witbuf_appendf`: what is formatted is cut to 1023 bytes. -/
def appendf (s : Bytes) : Bytes := s.take 1023

theorem mem_intercalate {sep : Bytes} {c : UInt8} :
    ∀ {xs : List Bytes}, c ∈ List.intercalate sep xs → c ∈ sep ∨ ∃ x ∈ xs, c ∈ x
  | [], h => by simp [List.intercalate] at h
  | [x], h => .inr ⟨x, by simp, by simpa [List.intercalate] using h⟩
  | x :: y :: xs, h => by
      have h : c ∈ x ∨ c ∈ sep ∨ c ∈ List.intercalate sep (y :: xs) := by
        simpa [List.intercalate, List.intersperse] using h
      rcases h with h | h | h
      · exact .inr ⟨x, by simp, h⟩
      · exact .inl h
      · rcases mem_intercalate h with h | ⟨z, hz, h⟩
        · exact .inl h
        · exact .inr ⟨z, List.mem_cons_of_mem _ hz, h⟩

/-! ## Names -/

def dash : UInt8 := 0x2D

def dot : UInt8 := 0x2E

/-- The characters `to_kebab` writes when there is room for all of them. -/
def kebabChars : Bool → Bytes → Bytes
  | _, [] => []
  | prevLower, c :: s =>
      if 0x41 ≤ c ∧ c ≤ 0x5A then
        (if prevLower then [dash] else []) ++ (c + 0x20) :: kebabChars false s
      else if c = 0x5F ∨ c = 0x20 ∨ c = dot then dash :: kebabChars false s
      else if (0x61 ≤ c ∧ c ≤ 0x7A) ∨ (0x30 ≤ c ∧ c ≤ 0x39) then c :: kebabChars true s
      else if c = dash then dash :: kebabChars false s
      else kebabChars prevLower s

/-- `to_kebab`, with an output of 128. -/
def toKebab (name : Bytes) : Bytes :=
  let out := ((kebabChars false name).take 127).rdropWhile (· = dash)
  if out = [] then ascii "agent" else out

/-- Behind the last dot. -/
def baseName (name : Bytes) : Bytes := name.rtakeWhile (· ≠ dot)

def namedToWit (name : Bytes) : Option Bytes :=
  let base := baseName name
  if base = ascii "int" ∨ base = ascii "i64" then some (ascii "s64")
  else if base = ascii "i32" then some (ascii "s32")
  else if base = ascii "u64" then some (ascii "u64")
  else if base = ascii "u32" then some (ascii "u32")
  else if base = ascii "float" ∨ base = ascii "f64" then some (ascii "f64")
  else if base = ascii "f32" then some (ascii "f32")
  else if base = ascii "bool" then some (ascii "bool")
  else if base = ascii "string" then some (ascii "string")
  else if base = ascii "char" then some (ascii "char")
  else if base = ascii "void" then some (ascii "_")
  else none

/-- `wit_type_str`. -/
def witTypeStr : TypeExpr → Bytes
  | .named name [] => (namedToWit name).getD (ascii "string")
  | .named name (first :: rest) =>
      let base := baseName name
      if base = ascii "list" ∨ base = ascii "List" then
        ascii "list<" ++ witTypeStr first ++ ascii ">"
      else if base = ascii "Result" ∨ base = ascii "result" then
        ascii "result<" ++ witTypeStr first ++ ascii ", " ++
          (match rest with
            | [] => ascii "string"
            | err :: _ => witTypeStr err) ++ ascii ">"
      else if base = ascii "Option" ∨ base = ascii "option" then
        ascii "option<" ++ witTypeStr first ++ ascii ">"
      else (namedToWit name).getD (ascii "string")
  | .optional left => ascii "option<" ++ witTypeStr left ++ ascii ">"
  | .slice left => ascii "list<" ++ witTypeStr left ++ ascii ">"
  | .array left => ascii "list<" ++ witTypeStr left ++ ascii ">"
  | .ref left => witTypeStr left
  | .ptr left => witTypeStr left
  | .infer => ascii "string"
  | .other => ascii "string"

def witType (t : Option TypeExpr) : Bytes := (t.map witTypeStr).getD (ascii "string")

/-! ## Interfaces -/

/-- `wit_collect_caps`. -/
def witCollectCaps (agent : Agent) : List Bytes :=
  (((capabilityEntries agent).map CapEntry.name).filter (· ≠ [])).take 64

/-- `split_qualified`: up to the first dot, in a buffer of 64, and behind it. -/
def splitQualified (qualified : Bytes) : Bytes × Bytes :=
  ((qualified.takeWhile (· ≠ dot)).take 63, (qualified.dropWhile (· ≠ dot)).tail)

/-- The comment behind the signature of a capability that is not in the table. -/
def placeholderNote : Bytes :=
  ascii "  // unknown capability " ++ [0xE2, 0x80, 0x94] ++ ascii " placeholder signature\n"

def emitCapFunc (qualified : Bytes) : Bytes :=
  match witLookupCapSig qualified with
  | some sig => appendf (ascii "    " ++ sig ++ ascii ";\n")
  | none => appendf (ascii "    " ++ toKebab (splitQualified qualified).2 ++
      ascii ": func() -> string;" ++ placeholderNote)

def emitInterface (caps : List Bytes) (pre : Bytes) : Bytes :=
  appendf (ascii "interface " ++ pre ++ ascii " \x7b\n") ++
    (caps.filter fun q => (splitQualified q).1 = pre).flatMap emitCapFunc ++ ascii "\x7d\n\n"

/-- The prefixes in the order they are first seen. -/
def uniquePrefixes (caps : List Bytes) : List Bytes :=
  caps.foldl (fun seen q =>
    let pre := (splitQualified q).1
    if pre = [] ∨ seen.contains pre ∨ 32 ≤ seen.length then seen else seen ++ [pre]) []

/-! ## Worlds -/

/-- `find_param_cap_item`: the first entry of the name that has hosts. -/
def findParamCapItem (agent : Agent) (qualified : Bytes) : Option (List Bytes) :=
  (capabilityEntries agent).findSome? fun
    | .item name hosts => if name = qualified then some hosts else none
    | .ident _ => none

/-- The hosts in brackets, each between quotes. -/
def hostsList (hosts : List Bytes) : Bytes :=
  ascii "[" ++
    List.intercalate (ascii ", ") (hosts.map fun h => appendf (ascii "\"" ++ h ++ ascii "\"")) ++
    ascii "]"

def emitParamCapImport (agent : Agent) (qualified : Bytes) : Option Bytes :=
  (findParamCapItem agent qualified).map fun hosts =>
    appendf (ascii "    import " ++ qualified ++ ascii " \x7b\n") ++ ascii "        hosts: " ++
      hostsList hosts ++ ascii "\n    \x7d\n"

def selfName : Bytes := ascii "self"

def emitExport (fn : Fn) : Bytes :=
  let params := fn.params.filter (·.name ≠ selfName)
  appendf (ascii "    export " ++ toKebab fn.name ++ ascii ": func(") ++
    List.intercalate (ascii ", ") (params.map fun p =>
      appendf (toKebab (if p.name = [] then ascii "arg" else p.name) ++ ascii ": ") ++
        witType p.typeExpr) ++ ascii ")" ++
    (match fn.typeExpr with
      | some t => ascii " -> " ++ witTypeStr t
      | none => []) ++ ascii ";\n"

def emitWorld (agent : Agent) : Bytes :=
  let caps := witCollectCaps agent
  let prefixes := uniquePrefixes caps
  appendf (ascii "world " ++ toKebab agent.name ++ ascii " \x7b\n") ++
    prefixes.flatMap (fun pre => appendf (ascii "    import " ++ pre ++ ascii ";\n")) ++
    (caps.filterMap (emitParamCapImport agent)).flatten ++
    (if prefixes = [] then [] else ascii "\n") ++
    agent.left.flatMap emitExport ++ ascii "\x7d\n"

def emitAgent (agent : Agent) : Bytes :=
  let caps := witCollectCaps agent
  (uniquePrefixes caps).flatMap (emitInterface caps) ++ emitWorld agent

/-! ## The file -/

/-- `LCN_VERSION`. -/
def version : Bytes := ascii "0.1.0-stage0"

/-- `lcn_emit_wit`; a program without an agent is an error. -/
def lcnEmitWit (P : Program) : Option Bytes :=
  match P with
  | [] => none
  | first :: _ =>
      some (appendf (ascii "// Auto-generated by Limceron " ++ version ++
          ascii ". Do not edit.\npackage limceron:" ++ toKebab first.name ++ ascii ";\n\n") ++
        List.intercalate (ascii "\n") (P.map emitAgent))

end Limceron.Wit
