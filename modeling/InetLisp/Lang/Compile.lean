import InetLisp.Core.Program

/-! # Compiling expressions

Local names become indexes in the order in which they are first bound; a name that
is not local yet is looked up in the module when it is compiled. The arguments of
an application come before its target, and the names of an assignment are set from
the last to the first.
-/

namespace InetLisp

/-- `exp_t`; an integer has 64 bits and a float is given by its 64 bits. -/
inductive Exp where
  | var (name : String)
  | ap (target : Exp) (argList : List Exp)
  | assign (nameList : List String) (exp : Exp)
  | int (target : BitVec 64)
  | float (target : BitVec 64)
  deriving Repr

def xint (target : BitVec 64) : Value := .word (target <<< 3 ||| 2#64)

def xfloat (target : BitVec 64) : Value := .word (target &&& 0xfffffffffffffff8#64 ||| 3#64)

/-- A call of the compiler stops at an undefined name. -/
structure UndefinedName where
  name : String
  deriving DecidableEq, Repr

/-- The opcodes added to a function, and its local names in the order of their indexes. -/
abbrev Compiled := Except UndefinedName (List Opcode × List String)

/-- The index of a local name in `local_index_hash`. -/
def localIndex (locals : List String) (name : String) : Option ℕ := locals.idxOf? name

def compileSetVariable (locals : List String) (name : String) : List Opcode × List String :=
  match localIndex locals name with
  | some oldIndex => ([.setVariable oldIndex], locals)
  | none => ([.setVariable locals.length], locals ++ [name])

/-- The loop of `compile_set_variable_list`, over the names from the last to the first. -/
def compileSetVariables (locals : List String) : List String → List Opcode × List String
  | [] => ([], locals)
  | name :: names =>
    let (ops, locals) := compileSetVariable locals name
    let (ops', locals) := compileSetVariables locals names
    (ops ++ ops', locals)

def compileSetVariableList (locals names : List String) : List Opcode × List String :=
  compileSetVariables locals names.reverse

/-- `maybe_compile_get_variable`, then `compile_literal`. -/
def compileVar (find : String → Option Value) (locals : List String) (name : String) : Compiled :=
  match localIndex locals name with
  | some index => .ok ([.getVariable index], locals)
  | none => match find name with
    | some value => .ok ([.literal value], locals)
    | none => .error ⟨name⟩

mutual

/-- `compile_exp`; `find` is `mod_find` on the module of the function. -/
def compileExp (find : String → Option Value) (locals : List String) : Exp → Compiled
  | .var name => compileVar find locals name
  | .ap target argList => do
    let (ops, locals) ← compileExpList find locals argList
    let (ops', locals) ← compileExp find locals target
    return (ops ++ ops' ++ [.apply argList.length], locals)
  | .assign nameList exp => do
    let (ops, locals) ← compileExp find locals exp
    let (ops', locals) := compileSetVariableList locals nameList
    return (ops ++ ops', locals)
  | .int target => .ok ([.literal (xint target)], locals)
  | .float target => .ok ([.literal (xfloat target)], locals)

def compileExpList (find : String → Option Value) (locals : List String) : List Exp → Compiled
  | [] => .ok ([], locals)
  | exp :: expList => do
    let (ops, locals) ← compileExp find locals exp
    let (ops', locals) ← compileExpList find locals expList
    return (ops ++ ops', locals)

end

/--
What a function is compiled from: the names it binds first, its expressions, and
the definitions of its module. A top-level body binds no names first.
-/
structure Body where
  find : String → Option Value
  nameList : List String
  expList : List Exp

/-- As in `STMT_DEFINE_FUNCTION` and `define_rule_star`. -/
def Body.compile (b : Body) : Except UndefinedName Function := do
  let (ops, locals) := compileSetVariableList [] b.nameList
  let (ops', _) ← compileExpList b.find locals b.expList
  return { arity := b.nameList.length, opcodeArray := ops ++ ops' }

end InetLisp
