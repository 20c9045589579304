import InetLisp.Packages.Numeral
import InetLisp.Packages.SexpPrint

/-! # Parsing and printing statements

The parser of statements reads S-expressions and sees only the kinds and the strings of
their tokens. A statement is printed as text again, and a file is what text is written to.
-/

namespace InetLisp.Parse

/-- `exp_t` as the parser builds it: the expression of an assignment may be `NULL`. -/
inductive Exp where
  | var (name : Text)
  | ap (target : Exp) (argList : List Exp)
  | assign (nameList : List Text) (exp : Exp)
  | assignNull (nameList : List Text)
  | int (target : BitVec 64)
  | float (target : BitVec 64)
  deriving Repr

/-- `stmt_t`; the path of an import may be `NULL`. -/
inductive Stmt where
  | define (name : Text) (exp : Exp)
  | defineFunction (name : Text) (argNameList : List Text) (expList : List Exp)
  | defineNode (name : Text) (portNameList : List Text)
  | defineRule (patternExp : Exp) (expList : List Exp)
  | defineRuleStar (patternExpList expList : List Exp)
  | runExp (exp : Exp)
  | stmtImport (nameList : List Text) (path : Option Path)

/-- `=` -/
def equals : Text := ['=']

def assignWord : Text := ['a', 's', 's', 'i', 'g', 'n']

def defineWord : Text := ['d', 'e', 'f', 'i', 'n', 'e']

def defineNodeWord : Text := defineWord ++ ['-', 'n', 'o', 'd', 'e']

def defineRuleWord : Text := defineWord ++ ['-', 'r', 'u', 'l', 'e']

def defineRuleStarWord : Text := defineRuleWord ++ ['*']

def importWord : Text := ['i', 'm', 'p', 'o', 'r', 't']

def sexpStartsWith (sexp : Tree) (string : Text) : Bool :=
  match sexp with
  | .list (.atom _ first :: _) => first = string
  | _ => false

/-- `sexp_string`; nothing if it is asserted to be an atom and is none. -/
def sexpString : Tree → Option Text
  | .atom _ string => some string
  | .list _ => none

def sexpSexpList : Tree → Option (List Tree)
  | .atom _ _ => none
  | .list sexpList => some sexpList

mutual

/-- `parse_exp`; nothing if an assertion fails. -/
def parseExp : Tree → Option Exp
  | .atom kind string => match kind with
    | .int => some (.int (stringParseXint string))
    | .float => some (.float (stringParseDouble string))
    | _ => some (.var string)
  | .list [] => none
  | .list (sexp :: sexpList) =>
    if sexpStartsWith (.list (sexp :: sexpList)) equals ||
        sexpStartsWith (.list (sexp :: sexpList)) assignWord then
      parseAssign [] sexpList
    else do
      let target ← parseExp sexp
      let argList ← parseExpList sexpList
      return .ap target argList

/-- The loops over the expressions of a list. -/
def parseExpList : List Tree → Option (List Exp)
  | [] => some []
  | sexp :: sexpList => do
    let exp ← parseExp sexp
    let expList ← parseExpList sexpList
    return exp :: expList

/-- The loop of `parse_assign`, after the names in front: the last S-expression is the
expression. -/
def parseAssign (nameList : List Text) : List Tree → Option Exp
  | [] => some (.assignNull nameList)
  | [sexp] => (parseExp sexp).map (.assign nameList)
  | sexp :: sexp' :: sexpList => do
    let name ← sexpString sexp
    parseAssign (nameList ++ [name]) (sexp' :: sexpList)

end

def parseDefineNode : List Tree → Option Stmt
  | [] => none
  | nameSexp :: sexpList => do
    let name ← sexpString nameSexp
    let portNameList ← sexpList.mapM sexpString
    return .defineNode name portNameList

def parseDefineValue : List Tree → Option Stmt
  | [nameSexp, expSexp] => do
    let name ← sexpString nameSexp
    let exp ← parseExp expSexp
    return .define name exp
  | _ => none

def parseDefineFunction : List Tree → Option Stmt
  | .list (firstNameSexp :: nameSexpList) :: sexpList => do
    let name ← sexpString firstNameSexp
    let argNameList ← nameSexpList.mapM sexpString
    let expList ← parseExpList sexpList
    return .defineFunction name argNameList expList
  | _ => none

def parseDefine (sexpList : List Tree) : Option Stmt :=
  match sexpList with
  | [] => none
  | .atom _ _ :: _ => parseDefineValue sexpList
  | .list _ :: _ => parseDefineFunction sexpList

def parseDefineRule : List Tree → Option Stmt
  | [] => none
  | patternSexp :: sexpList => do
    let patternExp ← parseExp patternSexp
    let expList ← parseExpList sexpList
    return .defineRule patternExp expList

def parseDefineRuleStar : List Tree → Option Stmt
  | [] => none
  | patternsSexp :: sexpList => do
    let patternExpList ← parseExpList (← sexpSexpList patternsSexp)
    let expList ← parseExpList sexpList
    return .defineRuleStar patternExpList expList

/-- The loop of `parse_import`, after the names in front: the last token is the path. -/
def parseImport (nameList : List Text) : List Tree → Option Stmt
  | [] => some (.stmtImport nameList none)
  | [sexp] => (sexpString sexp).map fun string => .stmtImport nameList (some (.new string))
  | sexp :: sexp' :: sexpList => do
    let name ← sexpString sexp
    parseImport (nameList ++ [name]) (sexp' :: sexpList)

def parseStmt (sexp : Tree) : Option Stmt :=
  let sexpList := ((sexpSexpList sexp).getD []).tail
  if sexpStartsWith sexp defineNodeWord then parseDefineNode sexpList
  else if sexpStartsWith sexp defineRuleWord then parseDefineRule sexpList
  else if sexpStartsWith sexp defineRuleStarWord then parseDefineRuleStar sexpList
  else if sexpStartsWith sexp defineWord then parseDefine sexpList
  else if sexpStartsWith sexp importWord then parseImport [] sexpList
  else (parseExp sexp).map .runExp

/-- `value_print` of `xint`: the number without its three upper bits. -/
def xintPrint (target : BitVec 64) : Text :=
  intText (((target <<< 3 ||| 2#64).sshiftRight 3).toInt)

def nameListPrint (nameList : List Text) : Text := [' '].intercalate nameList

/-- The case of `exp_print` for an assignment. -/
def assignPrint (nameList : List Text) : Text :=
  if nameList.isEmpty then ['(', '=', ')']
  else ['(', '=', ' '] ++ nameListPrint nameList ++ [')']

mutual

/-- `exp_print`; `value_print` writes a float to the standard output, not to the file. -/
def expPrint : Exp → Text
  | .var name => name
  | .ap target argList =>
    if argList.isEmpty then '(' :: (expPrint target ++ [')'])
    else '(' :: (expPrint target ++ ' ' :: (expListPrint argList ++ [')']))
  | .assign nameList _ => assignPrint nameList
  | .assignNull nameList => assignPrint nameList
  | .int target => xintPrint target
  | .float _ => []

def expListPrint : List Exp → Text
  | [] => []
  | [exp] => expPrint exp
  | exp :: exp' :: expList => expPrint exp ++ ' ' :: expListPrint (exp' :: expList)

end

def expListPrintAsTail (expList : List Exp) : Text :=
  if expList.isEmpty then [')'] else ' ' :: (expListPrint expList ++ [')'])

def expListPrintAsList (expList : List Exp) : Text := '(' :: (expListPrint expList ++ [')'])

/-- `stmt_print`; nothing if it reads the path `NULL`. -/
def stmtPrint : Stmt → Option Text
  | .define name exp =>
    some ('(' :: (defineWord ++ ' ' :: (name ++ ' ' :: (expPrint exp ++ [')']))))
  | .defineFunction name argNameList expList =>
    let args := if argNameList.isEmpty then [')'] else ' ' :: (nameListPrint argNameList ++ [')'])
    some ('(' :: (defineWord ++ [' ', '('] ++ name ++ args ++ expListPrintAsTail expList))
  | .defineNode name portNameList =>
    some ('(' :: (defineNodeWord ++ ' ' :: (name ++ ' ' :: (nameListPrint portNameList ++ [')']))))
  | .defineRule patternExp expList =>
    some ('(' :: (defineRuleWord ++ ' ' :: (expPrint patternExp ++ expListPrintAsTail expList)))
  | .defineRuleStar patternExpList expList => some ('(' :: (defineRuleStarWord ++
      ' ' :: (expListPrintAsList patternExpList ++ expListPrintAsTail expList)))
  | .runExp exp => some (expPrint exp)
  | .stmtImport nameList path => path.map fun path => '(' :: (importWord ++
      ' ' :: (nameListPrint nameList ++ [' ', '"'] ++ path.string ++ ['"', ')']))

end InetLisp.Parse
