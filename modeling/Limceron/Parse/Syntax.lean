/-
# `Limceron.Parse.Syntax` — the nodes the parser builds

`AstNode` with all its fields but the location.  A child is a pointer in the C
code, and what it points to may be linked to siblings by `next`; so a child is a
list here, empty for NULL.
-/
import Limceron.Parse.Token

namespace Limceron.Parse

/-- `AstKind`. -/
inductive NodeKind where
  | program | module | use | fn | struct | enum | variant | trait | interface | impl
  | typeAlias | const | field | param
  | block | letS | returnS | deferS | assign | exprStmt | forS | whileS | loop | breakS | continueS
  | intLit | floatLit | stringLit | interpString | boolLit | noneLit | ident
  | binary | unary | call | hostCall | fieldAccess | index | methodCall
  | ifS | matchS | matchArm | closure | array | map | mapEntry | tuple
  | cast | isExpr | range | pipe | spawn | awaitE | select | selectArm
  | tryE | resultOk | resultErr | tryCatch | unsafeBlock | comptime | ref | deref
  | typeNamed | typeRef | typePtr | typeArray | typeSlice | typeTuple | typeFn | typeUnion
  | typeOptional | typeInfer | typeSecret
  | patWildcard | patIdent | patLiteral | patTyped | patEnum | patStruct | patTuple | patRange
  | patOr
  | genericParam | attribute
  | agent | capability | capabilityItem | guard | invariant | taint | budget | tool | skill
  | supervisor | mesh | meshStage | meshRoute | channel
  | ask | tell | ensure | repeatS | waitUntil | tryOtherwise | keepWhere | each
  | router | routeRule | taskGroup
  | capEndpointRule | capBinaryRule | capPathRule | capDenyRange | capDefault
  | link | metrics | metricsField | progress | health
  deriving DecidableEq, Repr

/-- The union `val`. -/
inductive NodeVal where
  | none
  | int (v : Int)
  | float (digits : String)
  | str (s : String)
  | bool (b : Bool)
  | op (k : TokenKind)
  deriving DecidableEq, Repr

/-- `val.str_val`. -/
def NodeVal.ofStr : Option String → NodeVal
  | some s => .str s
  | .none => .none

structure Node where
  kind : NodeKind
  name : Option String := none
  typeExpr : List Node := []
  isPub : Bool := false
  isMut : Bool := false
  isUnsafe : Bool := false
  left : List Node := []
  right : List Node := []
  params : List Node := []
  generics : List Node := []
  attributes : List Node := []
  val : NodeVal := .none
  deriving Repr

end Limceron.Parse
