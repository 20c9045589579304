import InetLisp.Core.Connect
import InetLisp.Lang.Compile
import InetLisp.Lang.Load

/-! # Definitions

What the statements of a file do to its module and to the node ctors. A rule is stored in
the tables of the ctors that the names of its two ctors stand for in the module, which is a
second lookup after that of the patterns.
-/

namespace InetLisp.Define

/-- What stops a statement. The first two are undefined behaviour, the others are reported. -/
inductive Error where
  /-- The port infos of a ctor are read beyond its arity. -/
  | outOfBounds
  /-- `NULL` is read. -/
  | nullPointer
  | assertion
  | undefinedNode (name : String)
  | undefinedName (name : String)
  | run (e : InetLisp.Error)
  deriving DecidableEq, Repr

/-- The program stops with a message or a failed assertion. -/
def Error.Reported : Error → Prop
  | .outOfBounds => False
  | .nullPointer => False
  | .run e => e.Reported
  | _ => True

/-- `value_hash` of a module. -/
abbrev ValueHash := List (Text × Value)

def modFind (valueHash : ValueHash) (name : String) : Option Value := valueHash.lookup name.toList

def define (valueHash : ValueHash) (name : String) (value : Value) : Except Error ValueHash :=
  if (modFind valueHash name).isSome then .error .assertion
  else .ok ((name.toList, value) :: valueHash)

/-- The place of a ctor among those that are defined, and not one of the apply node ctors. -/
def place (c : ℕ) : Option ℕ :=
  if c < applyNodeCtors.length then none else some (c - applyNodeCtors.length)

def getCtor (P : Program) (c : ℕ) : Option NodeCtor := (place c).bind fun i => P.nodeCtors[i]?

/-- `as_node_ctor`, on what `mod_find` has found: the assertion also fails for `NULL`. -/
def asNodeCtor (P : Program) (value : Option Value) : Except Error (ℕ × NodeCtor) :=
  match value with
  | some (.nodeCtor c) => match getCtor P c with
    | some ctor => .ok (c, ctor)
    | none => .error .assertion
  | _ => .error .assertion

def defineNode (P : Program) (valueHash : ValueHash) (name : String) (portNameList : List String) :
    Except Error (Program × ValueHash) := do
  let c := applyNodeCtors.length + P.nodeCtors.length
  let nodeCtor : NodeCtor := { name := name, portInfos := portNameList.map PortInfo.fromName }
  let valueHash ← define valueHash name (.nodeCtor c)
  return ({ P with nodeCtors := P.nodeCtors ++ [nodeCtor] }, valueHash)

/-! ### Rules -/

/-- `node_pattern_t`; an entry that was not set is `NULL`. -/
structure NodePattern where
  ctor : ℕ
  name : String
  portInfos : List (Option PortInfo)
  deriving DecidableEq, Repr

/-- The loop of `build_node_pattern`, with `node_pattern_set_port_info`: an argument that is
principal where the port is not, or the other way round, is dropped. -/
def setPortInfos (portInfos : List PortInfo) :
    ℕ → List Exp → List (Option PortInfo) → Except Error (List (Option PortInfo))
  | _, [], entries => .ok entries
  | index, arg :: argList, entries => match arg with
    | .var name => match portInfos[index]? with
      | none => .error .outOfBounds
      | some portInfo =>
        if (PortInfo.fromName name).isPrincipal ≠ portInfo.isPrincipal then
          setPortInfos portInfos (index + 1) argList entries
        else
          setPortInfos portInfos (index + 1) argList
            (entries.set index (some (.fromName name)))
    | _ => .error .assertion

def buildNodePattern (P : Program) (valueHash : ValueHash) : Exp → Except Error NodePattern
  | .ap (.var name) argList => match modFind valueHash name with
    | none => .error (.undefinedNode name)
    | some value => do
      let (c, ctor) ← asNodeCtor P (some value)
      let entries ← setPortInfos ctor.portInfos 0 argList (List.replicate ctor.arity none)
      return ⟨c, ctor.name, entries⟩
  | _ => .error .assertion

def buildNodePatternList (P : Program) (valueHash : ValueHash) :
    List Exp → Except Error (List NodePattern)
  | [] => .ok []
  | patternExp :: patternExpList => do
    let pattern ← buildNodePattern P valueHash patternExp
    let patternList ← buildNodePatternList P valueHash patternExpList
    return pattern :: patternList

mutual

/-- `translate_pattern_arg_list`: a nested pattern becomes one of the list and leaves `!`. -/
def translatePatternArgList : List Exp → List Exp → Except Error (List Exp × List Exp)
  | [], patternExpList => .ok ([], patternExpList)
  | arg :: argList, patternExpList => match arg with
    | .var name => do
      let (args, patternExpList) ← translatePatternArgList argList patternExpList
      return (.var name :: args, patternExpList)
    | arg => do
      let patternExpList ← translatePatternSubTree arg patternExpList
      let (args, patternExpList) ← translatePatternArgList argList patternExpList
      return (.var "!" :: args, patternExpList)

def translatePatternSubTree : Exp → List Exp → Except Error (List Exp)
  | .ap target argList, patternExpList => do
    let (args, patternExpList) ← translatePatternArgList argList patternExpList
    return .ap target (args ++ [.var "!"]) :: patternExpList
  | _, _ => .error .assertion

end

def translatePatternTree : Exp → Except Error (List Exp)
  | .ap target argList => do
    let (args, patternExpList) ← translatePatternArgList argList []
    return .ap target args :: patternExpList
  | _ => .error .assertion

/-- One of the first two loops of `define_rule_star`. -/
def localNameList : List (Option PortInfo) → Except Error (List String)
  | [] => .ok []
  | none :: _ => .error .nullPointer
  | some portInfo :: entries => do
    let nameList ← localNameList entries
    return if portInfo.isPrincipal then nameList else portInfo.name :: nameList

/-- `array_push` on the rules of a ctor. -/
def pushRule (P : Program) (c : ℕ) (rule : Rule) : Program :=
  match place c with
  | none => P
  | some i => { P with nodeCtors :=
      P.nodeCtors.modify i fun ctor => { ctor with ruleArray := ctor.ruleArray ++ [rule] } }

def defineRule (P : Program) (valueHash : ValueHash) (name : String) (rule : Rule) :
    Except Error Program := do
  let (c, _) ← asNodeCtor P (modFind valueHash name)
  return pushRule P c rule

/-- The two calls of `define_rule`; what the first has done stays if the second stops. -/
def defineRules (P : Program) (valueHash : ValueHash) (left right : String) (rule : Rule) :
    Program × Option Error :=
  match defineRule P valueHash left rule with
  | .error e => (P, some e)
  | .ok P => match defineRule P valueHash right rule with
    | .error e => (P, some e)
    | .ok P => (P, none)

def ruleFunction (valueHash : ValueHash) (left right : NodePattern) (expList : List Exp) :
    Except Error Function := do
  let leftNames ← localNameList left.portInfos
  let rightNames ← localNameList right.portInfos
  let body : Body := ⟨modFind valueHash, leftNames ++ rightNames, expList⟩
  match body.compile with
  | .error e => .error (.undefinedName e.name)
  | .ok function => .ok function

def defineRuleStar (P : Program) (valueHash : ValueHash) (patternList : List NodePattern)
    (expList : List Exp) : Program × Option Error :=
  match patternList with
  | [left, right] => match ruleFunction valueHash left right expList with
    | .error e => (P, some e)
    | .ok function =>
      let rule : Rule := ⟨left.ctor, right.ctor, P.functions.length⟩
      defineRules { P with functions := P.functions ++ [function] } valueHash left.name right.name
        rule
  | _ => (P, some .assertion)

/-- The patterns of a rule, and the rule. -/
def executeRule (P : Program) (valueHash : ValueHash) (patternExpList : Except Error (List Exp))
    (expList : List Exp) : Program × Option Error :=
  match patternExpList >>= buildNodePatternList P valueHash with
  | .error e => (P, some e)
  | .ok patternList => defineRuleStar P valueHash patternList expList

/-! ### Statements -/

inductive Stmt where
  | define (name : String) (exp : Exp)
  | defineFunction (name : String) (argNameList : List String) (expList : List Exp)
  | defineNode (name : String) (portNameList : List String)
  | defineRule (patternExp : Exp) (expList : List Exp)
  | defineRuleStar (patternExpList expList : List Exp)
  | runExp (exp : Exp)

/-- `run_exp` and `stack_pop` of the worker that loads the module. -/
structure Runtime (N : Type) where
  runExp : N → Program → ValueHash → Exp → Except Error N
  popValue : N → Except Error (N × Value)

/-- What has been defined, and the nets of the loading workers. -/
structure World (N : Type) where
  program : Program
  net : N

section

variable {N F : Type} (R : Runtime N)

/-- `execute`, of a statement that defines no rule. -/
def executeOther (w : World N) (valueHash : ValueHash) : Stmt → Except Error (World N × ValueHash)
  | .define name exp => do
    let net ← R.runExp w.net w.program valueHash exp
    let (net, value) ← R.popValue net
    let valueHash ← define valueHash name value
    return (⟨w.program, net⟩, valueHash)
  | .defineFunction name argNameList expList =>
    match (⟨modFind valueHash, argNameList, expList⟩ : Body).compile with
    | .error e => .error (.undefinedName e.name)
    | .ok function => do
      let valueHash ← define valueHash name (.function w.program.functions.length)
      return (⟨{ w.program with functions := w.program.functions ++ [function] }, w.net⟩, valueHash)
  | .defineNode name portNameList => do
    let (P, valueHash) ← defineNode w.program valueHash name portNameList
    return (⟨P, w.net⟩, valueHash)
  | .runExp exp => do
    let net ← R.runExp w.net w.program valueHash exp
    return (⟨w.program, net⟩, valueHash)
  | _ => .ok (w, valueHash)

/-- `execute`; the world is as it was left, also if the statement is stopped. -/
def execute (w : World N) (valueHash : ValueHash) (stmt : Stmt) :
    World N × ValueHash × Option Error :=
  match stmt with
  | .defineRule patternExp expList =>
    let (P, e) := executeRule w.program valueHash (translatePatternTree patternExp) expList
    (⟨P, w.net⟩, valueHash, e)
  | .defineRuleStar patternExpList expList =>
    let (P, e) := executeRule w.program valueHash (.ok patternExpList) expList
    (⟨P, w.net⟩, valueHash, e)
  | stmt => match executeOther R w valueHash stmt with
    | .error e => (w, valueHash, some e)
    | .ok (w, valueHash) => (w, valueHash, none)

/-- What the prelude defines: a primitive that may have a node ctor. -/
structure PrimitiveDef where
  name : String
  inputArity : ℕ
  outputArity : ℕ
  fn : PrimitiveFn
  portNames : Option (List String)

/-- `define_primitive_fn`, and `define_primitive_node` if there are names of ports. -/
def definePrimitive (x : Program × ValueHash) (d : PrimitiveDef) : Program × ValueHash :=
  let (P, valueHash) := x
  let k := P.primitives.length
  let valueHash := (d.name.toList, .primitive k) :: valueHash
  match d.portNames with
  | none =>
    let primitive : Primitive := ⟨d.inputArity, d.outputArity, d.fn, none⟩
    ({ P with primitives := P.primitives ++ [primitive] }, valueHash)
  | some portNames =>
    let c := applyNodeCtors.length + P.nodeCtors.length
    let primitive : Primitive := ⟨d.inputArity, d.outputArity, d.fn, some c⟩
    let nodeCtor : NodeCtor := {
      name := d.name
      portInfos := portNames.map PortInfo.fromName
      primitive := some (.primitive k) }
    ({ P with
      nodeCtors := P.nodeCtors ++ [nodeCtor]
      primitives := P.primitives ++ [primitive] }, valueHash)

/-- `import_prelude`, into a new module. -/
def importPrelude (prelude : List PrimitiveDef) (w : World N) : World N × ValueHash :=
  let (P, valueHash) := prelude.foldl definePrimitive (w.program, [])
  (⟨P, w.net⟩, valueHash)

/-- Loading files whose statements are executed here. -/
def env (prelude : List PrimitiveDef) (fileOpen : Text → Option F)
    (parse : F → Option (List (Load.Stmt Stmt))) : Load.Env F Stmt (World N) Value Error where
  fileOpen := fileOpen
  parse := parse
  importPrelude := importPrelude prelude
  execute w valueHash stmt := match execute R w valueHash stmt with
    | (w, valueHash, none) => .ok (w, valueHash)
    | (_, _, some e) => .error e

end

end InetLisp.Define
