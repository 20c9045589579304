import InetLisp.Lang.Parse
import InetLisp.Lib.Cursor

/-! # Missing forms

The statement parser reads the elements of a list with a cursor. Behind the last element
there is none, and the readers do not look before they use what the cursor gives: an
assertion may fail, an absent element may be used, and a part of the statement may be left
out.
-/

namespace InetLisp.Forms

open Lib
open Parse (equals assignWord defineWord defineNodeWord defineRuleWord defineRuleStarWord
  importWord sexpStartsWith)

inductive Stop where
  | assertion
  | nullPointer
  deriving DecidableEq, Repr

abbrev Parsed (α : Type) := Except Stop α

def sexpString : Option Tree → Parsed Text
  | none => .error .nullPointer
  | some (.atom _ string) => .ok string
  | some (.list _) => .error .assertion

def sexpSexpList : Option Tree → Parsed (List Tree)
  | none => .error .nullPointer
  | some (.atom _ _) => .error .assertion
  | some (.list sexpList) => .ok sexpList

/-- The loops over the names from the cursor on. -/
def nameLoop : List Tree → Parsed (List Text)
  | [] => .ok []
  | sexp :: sexpList => do
    let name ← sexpString (some sexp)
    let nameList ← nameLoop sexpList
    return name :: nameList

mutual

def parseExp : Tree → Parsed Parse.Exp
  | .atom kind string => match kind with
    | .int => .ok (.int (stringParseXint string))
    | .float => .ok (.float (stringParseDouble string))
    | _ => .ok (.var string)
  | .list [] => .error .assertion
  | .list (sexp :: sexpList) =>
    if sexpStartsWith (.list (sexp :: sexpList)) equals ||
        sexpStartsWith (.list (sexp :: sexpList)) assignWord then
      parseAssign [] sexpList
    else do
      let target ← parseExp sexp
      let argList ← parseExpList sexpList
      return .ap target argList

/-- The loops over the expressions from the cursor on. -/
def parseExpList : List Tree → Parsed (List Parse.Exp)
  | [] => .ok []
  | sexp :: sexpList => do
    let exp ← parseExp sexp
    let expList ← parseExpList sexpList
    return exp :: expList

/-- The loop of `parse_assign`, after the names in front. -/
def parseAssign (nameList : List Text) : List Tree → Parsed Parse.Exp
  | [] => .ok (.assignNull nameList)
  | [sexp] => do
    let exp ← parseExp sexp
    return .assign nameList exp
  | sexp :: sexp' :: sexpList => do
    let name ← sexpString (some sexp)
    parseAssign (nameList ++ [name]) (sexp' :: sexpList)

end

/-- `parse_exp` of what the cursor gives. -/
def parseCurrent : Option Tree → Parsed Parse.Exp
  | none => .error .nullPointer
  | some sexp => parseExp sexp

def parseDefineNode (sexpList : List Tree) : Parsed Parse.Stmt := do
  let self := (Cursor.first sexpList).next
  let name ← sexpString self.current
  let self := self.next
  let portNameList ← nameLoop self.rest
  return .defineNode name portNameList

def parseDefineValue (sexpList : List Tree) : Parsed Parse.Stmt := do
  let self := (Cursor.first sexpList).next
  let name ← sexpString self.current
  let self := self.next
  let expSexp := self.current
  let self := self.next
  match self.current with
  | some _ => .error .assertion
  | none => do
    let exp ← parseCurrent expSexp
    return .define name exp

def parseDefineFunction (sexpList : List Tree) : Parsed Parse.Stmt := do
  let self := (Cursor.first sexpList).next
  let nameSexpList ← sexpSexpList self.current
  let names := Cursor.first nameSexpList
  let name ← sexpString names.current
  let names := names.next
  let argNameList ← nameLoop names.rest
  let self := self.next
  let expList ← parseExpList self.rest
  return .defineFunction name argNameList expList

def parseDefine (sexpList : List Tree) : Parsed Parse.Stmt :=
  match (sexpList[1]? : Option Tree) with
  | none => .error .nullPointer
  | some (.atom _ _) => parseDefineValue sexpList
  | some (.list _) => parseDefineFunction sexpList

def parseDefineRule (sexpList : List Tree) : Parsed Parse.Stmt := do
  let self := (Cursor.first sexpList).next
  let patternExp ← parseCurrent self.current
  let self := self.next
  let expList ← parseExpList self.rest
  return .defineRule patternExp expList

def parseDefineRuleStar (sexpList : List Tree) : Parsed Parse.Stmt := do
  let self := (Cursor.first sexpList).next
  let patternExpSexpList ← sexpSexpList self.current
  let patternExpList ← parseExpList (Cursor.first patternExpSexpList).rest
  let self := self.next
  let expList ← parseExpList self.rest
  return .defineRuleStar patternExpList expList

/-- The loop of `parse_import`, after the names in front. -/
def importLoop (nameList : List Text) : List Tree → Parsed Parse.Stmt
  | [] => .ok (.stmtImport nameList none)
  | [sexp] => do
    let string ← sexpString (some sexp)
    return .stmtImport nameList (some (.new string))
  | sexp :: sexp' :: sexpList => do
    let name ← sexpString (some sexp)
    importLoop (nameList ++ [name]) (sexp' :: sexpList)

def parseImport (sexpList : List Tree) : Parsed Parse.Stmt :=
  importLoop [] (Cursor.first sexpList).next.rest

def parseStmt (sexp : Tree) : Parsed Parse.Stmt :=
  let sexpList := (Parse.sexpSexpList sexp).getD []
  if sexpStartsWith sexp defineNodeWord then parseDefineNode sexpList
  else if sexpStartsWith sexp defineRuleWord then parseDefineRule sexpList
  else if sexpStartsWith sexp defineRuleStarWord then parseDefineRuleStar sexpList
  else if sexpStartsWith sexp defineWord then parseDefine sexpList
  else if sexpStartsWith sexp importWord then parseImport sexpList
  else do
    let exp ← parseExp sexp
    return .runExp exp

mutual

/-- No part of the expression is left out. -/
def ExpPresent : Parse.Exp → Prop
  | .var _ => True
  | .ap target argList => ExpPresent target ∧ ExpsPresent argList
  | .assign _ exp => ExpPresent exp
  | .assignNull _ => False
  | .int _ => True
  | .float _ => True

def ExpsPresent : List Parse.Exp → Prop
  | [] => True
  | exp :: expList => ExpPresent exp ∧ ExpsPresent expList

end

/-- No expression, name or path in the statement is left out. -/
def StmtPresent : Parse.Stmt → Prop
  | .define _ exp => ExpPresent exp
  | .defineFunction _ _ expList => ExpsPresent expList
  | .defineNode _ _ => True
  | .defineRule patternExp expList => ExpPresent patternExp ∧ ExpsPresent expList
  | .defineRuleStar patternExpList expList => ExpsPresent patternExpList ∧ ExpsPresent expList
  | .runExp exp => ExpPresent exp
  | .stmtImport _ path => path ≠ none

def IsAtom : Tree → Prop
  | .atom _ _ => True
  | .list _ => False

/-- The list is read as an assignment. -/
def IsAssign (sexp : Tree) : Bool := sexpStartsWith sexp equals || sexpStartsWith sexp assignWord

mutual

/-- The checks let the expression pass. -/
def ExpForm : Tree → Prop
  | .atom _ _ => True
  | .list [] => False
  | .list (sexp :: sexpList) =>
    if IsAssign (.list (sexp :: sexpList)) then AssignForm sexpList
    else ExpForm sexp ∧ ExpsForm sexpList

def ExpsForm : List Tree → Prop
  | [] => True
  | sexp :: sexpList => ExpForm sexp ∧ ExpsForm sexpList

/-- Names, and an expression at the end. -/
def AssignForm : List Tree → Prop
  | [] => True
  | [sexp] => ExpForm sexp
  | sexp :: sexp' :: sexpList => IsAtom sexp ∧ AssignForm (sexp' :: sexpList)

end

mutual

/-- Every assignment that is read has an expression. -/
def ExpFull : Tree → Prop
  | .atom _ _ => True
  | .list [] => True
  | .list (sexp :: sexpList) =>
    if IsAssign (.list (sexp :: sexpList)) then AssignFull sexpList
    else ExpFull sexp ∧ ExpsFull sexpList

def ExpsFull : List Tree → Prop
  | [] => True
  | sexp :: sexpList => ExpFull sexp ∧ ExpsFull sexpList

def AssignFull : List Tree → Prop
  | [] => False
  | [sexp] => ExpFull sexp
  | _ :: sexp' :: sexpList => AssignFull (sexp' :: sexpList)

end

def tailOf (sexp : Tree) : List Tree := ((Parse.sexpSexpList sexp).getD []).tail

/-- The first form of the statement is not there, or the list of its names is empty. -/
def Lacks (sexp : Tree) : Prop :=
  if sexpStartsWith sexp defineNodeWord then tailOf sexp = []
  else if sexpStartsWith sexp defineRuleWord then tailOf sexp = []
  else if sexpStartsWith sexp defineRuleStarWord then tailOf sexp = []
  else if sexpStartsWith sexp defineWord then
    tailOf sexp = [] ∨ (tailOf sexp).head? = some (.list [])
  else False

/-- A name and an expression, or a list of names and a body. -/
def DefineForm : List Tree → Prop
  | [.atom _ _, expSexp] => ExpForm expSexp
  | .list (nameSexp :: nameSexpList) :: sexpList =>
    IsAtom nameSexp ∧ (∀ sexp ∈ nameSexpList, IsAtom sexp) ∧ ExpsForm sexpList
  | _ => False

/-- A list of patterns and a body. -/
def RuleStarForm : List Tree → Prop
  | .list patternSexpList :: sexpList => ExpsForm patternSexpList ∧ ExpsForm sexpList
  | _ => False

/-- The checks let the statement pass. -/
def StmtForm (sexp : Tree) : Prop :=
  if sexpStartsWith sexp defineNodeWord then ∀ element ∈ tailOf sexp, IsAtom element
  else if sexpStartsWith sexp defineRuleWord then ExpsForm (tailOf sexp)
  else if sexpStartsWith sexp defineRuleStarWord then RuleStarForm (tailOf sexp)
  else if sexpStartsWith sexp defineWord then DefineForm (tailOf sexp)
  else if sexpStartsWith sexp importWord then ∀ element ∈ tailOf sexp, IsAtom element
  else ExpForm sexp

def DefineFull : List Tree → Prop
  | .list _ :: sexpList => ExpsFull sexpList
  | .atom _ _ :: sexpList => ExpsFull sexpList
  | [] => True

def RuleStarFull : List Tree → Prop
  | .list patternSexpList :: sexpList => ExpsFull patternSexpList ∧ ExpsFull sexpList
  | _ => True

def StmtFull (sexp : Tree) : Prop :=
  if sexpStartsWith sexp defineNodeWord then True
  else if sexpStartsWith sexp defineRuleWord then ExpsFull (tailOf sexp)
  else if sexpStartsWith sexp defineRuleStarWord then RuleStarFull (tailOf sexp)
  else if sexpStartsWith sexp defineWord then DefineFull (tailOf sexp)
  else if sexpStartsWith sexp importWord then tailOf sexp ≠ []
  else ExpFull sexp

/-- The reader stops at no absent element, returns something if the checks let the form pass,
and what it returns is without gaps if the form is full. -/
structure Reads {α : Type} (r : Parsed α) (form full : Prop) (P : α → Prop) : Prop where
  ne_nullPointer : r ≠ .error .nullPointer
  ok_iff : (∃ x, r = .ok x) ↔ form
  present : ∀ x, r = .ok x → (P x ↔ full)

section

variable {α β : Type} {r : Parsed α} {f : α → Parsed β} {form form' full full' : Prop}
  {P : α → Prop} {Q : β → Prop} {x : α} {sexp : Tree} {sexpList : List Tree}

theorem Reads.ok (h : P x ↔ full) : Reads (.ok x) True full P := by
  refine ⟨nofun, ⟨fun _ => trivial, fun _ => ⟨x, rfl⟩⟩, ?_⟩
  rintro _ ⟨⟩
  exact h

theorem Reads.assertion : Reads (.error .assertion : Parsed α) False full P :=
  ⟨nofun, ⟨fun ⟨_, h⟩ => (nomatch h), False.elim⟩, nofun⟩

theorem Reads.bind (h : Reads r form full P)
    (h' : ∀ x, (P x ↔ full) → Reads (f x) form' full' Q) :
    Reads (r >>= f) (form ∧ form') full' Q := by
  cases r with
  | error stop =>
    have hform : ¬form := fun hf => nomatch (h.ok_iff.mpr hf).choose_spec
    refine ⟨?_, ⟨nofun, fun hand => (hform hand.1).elim⟩, nofun⟩
    intro hnull
    obtain rfl := Except.error.inj hnull
    exact h.ne_nullPointer rfl
  | ok x =>
    have hform : form := h.ok_iff.mp ⟨x, rfl⟩
    have hx := h' x (h.present x rfl)
    refine ⟨hx.ne_nullPointer, ?_, hx.present⟩
    exact ⟨fun hok => ⟨hform, hx.ok_iff.mp hok⟩, fun hand => hx.ok_iff.mpr hand.2⟩

theorem Reads.congr (h : Reads r form full P) (hf : form ↔ form') (hl : full ↔ full') :
    Reads r form' full' P :=
  ⟨h.ne_nullPointer, h.ok_iff.trans hf, fun x hx => (h.present x hx).trans hl⟩

theorem reads_sexpString (sexp : Tree) :
    Reads (sexpString (some sexp)) (IsAtom sexp) True fun _ => True := by
  cases sexp with
  | atom kind string => exact .ok Iff.rfl
  | list sexpList => exact .assertion

theorem reads_nameLoop (sexpList : List Tree) :
    Reads (nameLoop sexpList) (∀ sexp ∈ sexpList, IsAtom sexp) True fun _ => True := by
  induction sexpList with
  | nil => exact (Reads.ok Iff.rfl).congr (by simp) Iff.rfl
  | cons sexp sexpList ih =>
    have h := (reads_sexpString sexp).bind fun name _ =>
      ih.bind fun nameList _ => Reads.ok (x := name :: nameList) (P := fun _ => True) Iff.rfl
    exact h.congr (by simp) Iff.rfl

mutual

theorem reads_parseExp : ∀ sexp : Tree,
    Reads (parseExp sexp) (ExpForm sexp) (ExpFull sexp) ExpPresent
  | .atom kind string => by
    cases kind <;> exact .ok Iff.rfl
  | .list [] => .assertion
  | .list (sexp :: sexpList) => by
    rw [parseExp, ExpForm, ExpFull, IsAssign]
    split
    · exact reads_parseAssign [] sexpList
    · refine ((reads_parseExp sexp).bind fun target ht =>
        (reads_parseExpList sexpList).bind fun argList ha => .ok ?_).congr (by simp) Iff.rfl
      rw [ExpPresent, ht, ha]

theorem reads_parseExpList : ∀ sexpList : List Tree,
    Reads (parseExpList sexpList) (ExpsForm sexpList) (ExpsFull sexpList) ExpsPresent
  | [] => .ok Iff.rfl
  | sexp :: sexpList => by
    refine ((reads_parseExp sexp).bind fun exp he =>
      (reads_parseExpList sexpList).bind fun expList hl => .ok ?_).congr (by simp [ExpsForm])
        Iff.rfl
    rw [ExpsPresent, he, hl]
    rfl

theorem reads_parseAssign (nameList : List Text) : ∀ sexpList : List Tree,
    Reads (parseAssign nameList sexpList) (AssignForm sexpList) (AssignFull sexpList) ExpPresent
  | [] => .ok Iff.rfl
  | [sexp] => by
    refine ((reads_parseExp sexp).bind fun exp he => .ok ?_).congr (by simp [AssignForm]) Iff.rfl
    rw [ExpPresent, he, AssignFull]
  | sexp :: sexp' :: sexpList =>
    (reads_sexpString sexp).bind fun name _ =>
      reads_parseAssign (nameList ++ [name]) (sexp' :: sexpList)

end

/-- The reader uses an absent element if the statement lacks its first form, and otherwise it
reads what there is. -/
structure ReadsStmt (r : Parsed Parse.Stmt) (lacks form full : Prop) : Prop where
  nullPointer : lacks → r = .error .nullPointer
  reads : ¬lacks → Reads r form full StmtPresent

variable {key : Tree}

theorem readsStmt_defineNode : ∀ sexpList : List Tree,
    ReadsStmt (parseDefineNode (key :: sexpList)) (sexpList = [])
      (∀ sexp ∈ sexpList, IsAtom sexp) True
  | [] => ⟨fun _ => rfl, fun h => (h rfl).elim⟩
  | nameSexp :: sexpList => by
    refine ⟨nofun, fun _ => ?_⟩
    have h := (reads_sexpString nameSexp).bind fun name _ =>
      (reads_nameLoop sexpList).bind fun nameList _ =>
        Reads.ok (x := Parse.Stmt.defineNode name nameList) (P := StmtPresent) Iff.rfl
    exact h.congr (by simp) Iff.rfl

theorem readsStmt_defineRule : ∀ sexpList : List Tree,
    ReadsStmt (parseDefineRule (key :: sexpList)) (sexpList = []) (ExpsForm sexpList)
      (ExpsFull sexpList)
  | [] => ⟨fun _ => rfl, fun h => (h rfl).elim⟩
  | patternSexp :: sexpList => by
    refine ⟨nofun, fun _ => ?_⟩
    have h := (reads_parseExp patternSexp).bind fun patternExp hp =>
      (reads_parseExpList sexpList).bind fun expList he =>
        Reads.ok (x := Parse.Stmt.defineRule patternExp expList) (P := StmtPresent)
          (and_congr hp he)
    exact h.congr (by simp [ExpsForm]) Iff.rfl

theorem readsStmt_defineRuleStar : ∀ sexpList : List Tree,
    ReadsStmt (parseDefineRuleStar (key :: sexpList)) (sexpList = []) (RuleStarForm sexpList)
      (RuleStarFull sexpList)
  | [] => ⟨fun _ => rfl, fun h => (h rfl).elim⟩
  | .atom _ _ :: sexpList => ⟨nofun, fun _ => .assertion⟩
  | .list patternSexpList :: sexpList => by
    refine ⟨nofun, fun _ => ?_⟩
    have h := (reads_parseExpList patternSexpList).bind fun patternExpList hp =>
      (reads_parseExpList sexpList).bind fun expList he =>
        Reads.ok (x := Parse.Stmt.defineRuleStar patternExpList expList) (P := StmtPresent)
          (and_congr hp he)
    exact h.congr (by simp [RuleStarForm]) Iff.rfl

/-- Without its expression the reader comes back to the first element, and an assertion fails
that is meant for another one behind it. -/
theorem reads_defineValue {kind : TokenKind} {name : Text} : ∀ sexpList : List Tree,
    Reads (parseDefineValue (key :: .atom kind name :: sexpList))
      (DefineForm (.atom kind name :: sexpList)) (ExpsFull sexpList) StmtPresent
  | [] => .assertion
  | [expSexp] => by
    have h := (reads_parseExp expSexp).bind fun exp he =>
      Reads.ok (x := Parse.Stmt.define name exp) (P := StmtPresent) he
    exact h.congr (by simp [DefineForm]) (by simp [ExpsFull])
  | _ :: _ :: _ => .assertion

theorem reads_defineFunction {nameSexp : Tree} {nameSexpList sexpList : List Tree} :
    Reads (parseDefineFunction (key :: .list (nameSexp :: nameSexpList) :: sexpList))
      (DefineForm (.list (nameSexp :: nameSexpList) :: sexpList)) (ExpsFull sexpList)
      StmtPresent := by
  have h := (reads_sexpString nameSexp).bind fun name _ =>
    (reads_nameLoop nameSexpList).bind fun argNameList _ =>
      (reads_parseExpList sexpList).bind fun expList he =>
        Reads.ok (x := Parse.Stmt.defineFunction name argNameList expList) (P := StmtPresent) he
  exact h.congr (by simp [DefineForm]) Iff.rfl

theorem readsStmt_define : ∀ sexpList : List Tree,
    ReadsStmt (parseDefine (key :: sexpList))
      (sexpList = [] ∨ sexpList.head? = some (.list [])) (DefineForm sexpList)
      (DefineFull sexpList)
  | [] => ⟨fun _ => rfl, fun h => (h (.inl rfl)).elim⟩
  | .atom _ _ :: sexpList => ⟨by simp, fun _ => reads_defineValue sexpList⟩
  | .list [] :: _ => ⟨fun _ => rfl, fun h => (h (.inr rfl)).elim⟩
  | .list (_ :: _) :: _ => ⟨by simp, fun _ => reads_defineFunction⟩

theorem reads_importLoop (nameList : List Text) : ∀ sexpList : List Tree,
    Reads (importLoop nameList sexpList) (∀ sexp ∈ sexpList, IsAtom sexp) (sexpList ≠ [])
      StmtPresent
  | [] => (Reads.ok (by simp [StmtPresent])).congr (by simp) Iff.rfl
  | [sexp] => by
    have hpath (string : Text) : Reads
        (.ok (Parse.Stmt.stmtImport nameList (some (.new string)))) True ([sexp] ≠ [])
          StmtPresent := .ok (by simp [StmtPresent])
    exact ((reads_sexpString sexp).bind fun string _ => hpath string).congr (by simp) Iff.rfl
  | sexp :: sexp' :: sexpList => by
    have h := (reads_sexpString sexp).bind fun name _ =>
      reads_importLoop (nameList ++ [name]) (sexp' :: sexpList)
    exact h.congr (by simp) (by simp)

theorem getD_of_sexpStartsWith {word : Text} (h : sexpStartsWith sexp word = true) :
    ∃ key, (Parse.sexpSexpList sexp).getD [] = key :: tailOf sexp := by
  unfold sexpStartsWith at h
  split at h
  · exact ⟨_, rfl⟩
  · cases h

theorem readsStmt_parseStmt (sexp : Tree) :
    ReadsStmt (parseStmt sexp) (Lacks sexp) (StmtForm sexp) (StmtFull sexp) := by
  unfold parseStmt Lacks StmtForm StmtFull
  split
  · obtain ⟨key, hkey⟩ := getD_of_sexpStartsWith ‹_›
    simp only [hkey]
    exact readsStmt_defineNode _
  · split
    · obtain ⟨key, hkey⟩ := getD_of_sexpStartsWith ‹_›
      simp only [hkey]
      exact readsStmt_defineRule _
    · split
      · obtain ⟨key, hkey⟩ := getD_of_sexpStartsWith ‹_›
        simp only [hkey]
        exact readsStmt_defineRuleStar _
      · split
        · obtain ⟨key, hkey⟩ := getD_of_sexpStartsWith ‹_›
          simp only [hkey]
          exact readsStmt_define _
        · refine ⟨False.elim, fun _ => ?_⟩
          split
          · obtain ⟨key, hkey⟩ := getD_of_sexpStartsWith ‹_›
            simp only [hkey]
            exact reads_importLoop [] _
          · have h := (reads_parseExp sexp).bind fun exp he =>
              Reads.ok (x := Parse.Stmt.runExp exp) (P := StmtPresent) he
            exact h.congr (by simp) Iff.rfl

theorem toOption_bind : (r >>= f).toOption = r.toOption.bind fun x => (f x).toOption := by
  cases r <;> rfl

theorem toOption_sexpString : (sexpString (some sexp)).toOption = Parse.sexpString sexp := by
  cases sexp <;> rfl

theorem toOption_nameLoop (sexpList : List Tree) :
    (nameLoop sexpList).toOption = sexpList.mapM Parse.sexpString := by
  induction sexpList with
  | nil => rfl
  | cons sexp sexpList ih =>
    rw [nameLoop, toOption_bind, toOption_sexpString, List.mapM_cons]
    simp only [toOption_bind, ih]
    rfl

mutual

theorem toOption_parseExp : ∀ sexp : Tree, (parseExp sexp).toOption = Parse.parseExp sexp
  | .atom kind string => by cases kind <;> rfl
  | .list [] => rfl
  | .list (sexp :: sexpList) => by
    rw [parseExp, Parse.parseExp]
    split
    · exact toOption_parseAssign [] sexpList
    · simp only [toOption_bind, toOption_parseExp sexp, toOption_parseExpList sexpList]
      rfl

theorem toOption_parseExpList :
    ∀ sexpList : List Tree, (parseExpList sexpList).toOption = Parse.parseExpList sexpList
  | [] => rfl
  | sexp :: sexpList => by
    rw [parseExpList, Parse.parseExpList]
    simp only [toOption_bind, toOption_parseExp sexp, toOption_parseExpList sexpList]
    rfl

theorem toOption_parseAssign (nameList : List Text) : ∀ sexpList : List Tree,
    (parseAssign nameList sexpList).toOption = Parse.parseAssign nameList sexpList
  | [] => rfl
  | [sexp] => by
    rw [parseAssign, Parse.parseAssign, toOption_bind, toOption_parseExp sexp]
    cases Parse.parseExp sexp <;> rfl
  | sexp :: sexp' :: sexpList => by
    rw [parseAssign, Parse.parseAssign, toOption_bind, toOption_sexpString]
    simp only [toOption_parseAssign _ (sexp' :: sexpList)]
    rfl

end

theorem toOption_defineNode : ∀ sexpList : List Tree,
    (parseDefineNode (key :: sexpList)).toOption = Parse.parseDefineNode sexpList
  | [] => rfl
  | nameSexp :: sexpList => by
    have h : parseDefineNode (key :: nameSexp :: sexpList) = sexpString (some nameSexp) >>=
      fun name => nameLoop sexpList >>= fun nameList => .ok (.defineNode name nameList) := rfl
    rw [h, Parse.parseDefineNode]
    simp only [toOption_bind, toOption_sexpString, toOption_nameLoop]
    rfl

theorem toOption_defineRule : ∀ sexpList : List Tree,
    (parseDefineRule (key :: sexpList)).toOption = Parse.parseDefineRule sexpList
  | [] => rfl
  | patternSexp :: sexpList => by
    have h : parseDefineRule (key :: patternSexp :: sexpList) = parseExp patternSexp >>=
      fun patternExp => parseExpList sexpList >>= fun expList =>
        .ok (.defineRule patternExp expList) := rfl
    rw [h, Parse.parseDefineRule]
    simp only [toOption_bind, toOption_parseExp, toOption_parseExpList]
    rfl

theorem toOption_defineRuleStar : ∀ sexpList : List Tree,
    (parseDefineRuleStar (key :: sexpList)).toOption = Parse.parseDefineRuleStar sexpList
  | [] => rfl
  | .atom _ _ :: _ => rfl
  | .list patternSexpList :: sexpList => by
    have h : parseDefineRuleStar (key :: .list patternSexpList :: sexpList) =
      parseExpList patternSexpList >>= fun patternExpList => parseExpList sexpList >>=
        fun expList => .ok (.defineRuleStar patternExpList expList) := rfl
    rw [h, Parse.parseDefineRuleStar]
    simp only [toOption_bind, toOption_parseExpList]
    rfl

theorem toOption_defineFunction {nameSexp : Tree} {nameSexpList sexpList : List Tree} :
    (parseDefineFunction (key :: .list (nameSexp :: nameSexpList) :: sexpList)).toOption =
      Parse.parseDefineFunction (.list (nameSexp :: nameSexpList) :: sexpList) := by
  have h : parseDefineFunction (key :: .list (nameSexp :: nameSexpList) :: sexpList) =
    sexpString (some nameSexp) >>= fun name => nameLoop nameSexpList >>= fun argNameList =>
      parseExpList sexpList >>= fun expList => .ok (.defineFunction name argNameList expList) :=
    rfl
  rw [h, Parse.parseDefineFunction]
  simp only [toOption_bind, toOption_sexpString, toOption_nameLoop, toOption_parseExpList]
  rfl

theorem toOption_define : ∀ sexpList : List Tree,
    (parseDefine (key :: sexpList)).toOption = Parse.parseDefine sexpList
  | [] => rfl
  | [.atom _ _] => rfl
  | [.atom kind name, expSexp] => by
    have h : parseDefine [key, .atom kind name, expSexp] =
      parseExp expSexp >>= fun exp => .ok (.define name exp) := rfl
    rw [h, toOption_bind, toOption_parseExp]
    rfl
  | .atom _ _ :: _ :: _ :: _ => rfl
  | .list [] :: _ => rfl
  | .list (_ :: _) :: _ => toOption_defineFunction

theorem toOption_importLoop (nameList : List Text) : ∀ sexpList : List Tree,
    (importLoop nameList sexpList).toOption = Parse.parseImport nameList sexpList
  | [] => rfl
  | [sexp] => by
    rw [importLoop, Parse.parseImport, toOption_bind, toOption_sexpString]
    cases Parse.sexpString sexp <;> rfl
  | sexp :: sexp' :: sexpList => by
    rw [importLoop, Parse.parseImport, toOption_bind, toOption_sexpString]
    simp only [toOption_importLoop _ (sexp' :: sexpList)]
    rfl

/-- The parser that does not tell its failures apart has the same results. -/
theorem toOption_parseStmt (sexp : Tree) : (parseStmt sexp).toOption = Parse.parseStmt sexp := by
  unfold parseStmt Parse.parseStmt
  split
  · obtain ⟨key, hkey⟩ := getD_of_sexpStartsWith ‹_›
    simp only [hkey]
    exact toOption_defineNode _
  · split
    · obtain ⟨key, hkey⟩ := getD_of_sexpStartsWith ‹_›
      simp only [hkey]
      exact toOption_defineRule _
    · split
      · obtain ⟨key, hkey⟩ := getD_of_sexpStartsWith ‹_›
        simp only [hkey]
        exact toOption_defineRuleStar _
      · split
        · obtain ⟨key, hkey⟩ := getD_of_sexpStartsWith ‹_›
          simp only [hkey]
          exact toOption_define _
        · split
          · obtain ⟨key, hkey⟩ := getD_of_sexpStartsWith ‹_›
            simp only [hkey]
            exact toOption_importLoop [] _
          · rw [toOption_bind, toOption_parseExp]
            cases Parse.parseExp sexp <;> rfl

/-- The parser fails by an assertion, or it returns a statement without gaps. -/
structure ParsesForms (sexp : Tree) : Prop where
  ne_nullPointer : parseStmt sexp ≠ .error .nullPointer
  present : ∀ stmt, parseStmt sexp = .ok stmt → StmtPresent stmt

/-- The first form of a definition, the expression of an assignment and the path of an import
are used without a check that they are there. -/
theorem parsesForms_iff (sexp : Tree) :
    ParsesForms sexp ↔ ¬Lacks sexp ∧ (StmtForm sexp → StmtFull sexp) := by
  obtain ⟨hlacks, hreads⟩ := readsStmt_parseStmt sexp
  constructor
  · rintro ⟨hnull, hpresent⟩
    have hnot : ¬Lacks sexp := fun h => hnull (hlacks h)
    refine ⟨hnot, fun hform => ?_⟩
    obtain ⟨stmt, hstmt⟩ := (hreads hnot).ok_iff.mpr hform
    exact ((hreads hnot).present stmt hstmt).mp (hpresent stmt hstmt)
  · rintro ⟨hnot, hfull⟩
    refine ⟨(hreads hnot).ne_nullPointer, fun stmt hstmt => ?_⟩
    have hform := (hreads hnot).ok_iff.mp ⟨stmt, hstmt⟩
    exact ((hreads hnot).present stmt hstmt).mpr (hfull hform)

end

/-- `(define-node)` -/
theorem not_parsesForms : ¬ParsesForms (.list [.atom .generic defineNodeWord]) := by
  intro h
  exact h.ne_nullPointer rfl

end InetLisp.Forms
