import InetLisp.Lang.Parse
import InetLisp.Lib.Tagged

/-! # What a printed expression is parsed into

An assignment is printed without its expression, and the last of its names is read for
the expression. Everything else is read as it was.
-/

namespace InetLisp.Parse

open Lexer Lib

/-- A name that the lexer makes one token of. -/
def nameTree (name : Text) : Tree := .atom .generic name

/-- The S-expression that an assignment is printed as. -/
def assignTree (nameList : List Text) : Tree := .list (nameTree equals :: nameList.map nameTree)

mutual

/-- The S-expression that an expression is printed as. -/
def Exp.tree : Exp → Tree
  | .var name => nameTree name
  | .ap target argList => .list (target.tree :: expTrees argList)
  | .assign nameList _ => assignTree nameList
  | .assignNull nameList => assignTree nameList
  | .int target => .atom .int (xintPrint target)
  | .float _ => .list []

def expTrees : List Exp → List Tree
  | [] => []
  | exp :: expList => exp.tree :: expTrees expList

end

mutual

/-- Names are ordinary identifiers, integers have 61 bits, and there is no float. -/
def Exp.Ordinary : Exp → Prop
  | .var name => Lexed .generic name
  | .ap target argList => target.Ordinary ∧ OrdinaryList argList
  | .assign nameList exp => (∀ name ∈ nameList, Lexed .generic name) ∧ exp.Ordinary
  | .assignNull nameList => ∀ name ∈ nameList, Lexed .generic name
  | .int target => -2 ^ 60 ≤ target.toInt ∧ target.toInt < 2 ^ 60
  | .float _ => False

def OrdinaryList : List Exp → Prop
  | [] => True
  | exp :: expList => exp.Ordinary ∧ OrdinaryList expList

end

mutual

/-- What the parser makes: the target of an application is not a word for an assignment, and
only an assignment of no names has no expression. -/
def Exp.Parsed : Exp → Prop
  | .var _ => True
  | .ap target argList => (∀ name, target = .var name → name ≠ equals ∧ name ≠ assignWord) ∧
      target.Parsed ∧ ParsedList argList
  | .assign _ exp => exp.Parsed
  | .assignNull nameList => nameList = []
  | .int _ => True
  | .float _ => True

def ParsedList : List Exp → Prop
  | [] => True
  | exp :: expList => exp.Parsed ∧ ParsedList expList

end

/-- The assignment that is read for one that was printed. -/
def rereadAssign (nameList : List Text) : Exp :=
  match nameList.getLast? with
  | none => .assignNull []
  | some name => .assign nameList.dropLast (.var name)

mutual

/-- What a printed expression is parsed into. -/
def Exp.reread : Exp → Exp
  | .var name => .var name
  | .ap target argList => .ap target.reread (rereadList argList)
  | .assign nameList _ => rereadAssign nameList
  | .assignNull nameList => rereadAssign nameList
  | .int target => .int target
  | .float target => .float target

def rereadList : List Exp → List Exp
  | [] => []
  | exp :: expList => exp.reread :: rereadList expList

end

mutual

/-- There is no assignment with an expression. -/
def Exp.NoAssign : Exp → Prop
  | .var _ => True
  | .ap target argList => target.NoAssign ∧ NoAssignList argList
  | .assign _ _ => False
  | .assignNull _ => True
  | .int _ => True
  | .float _ => True

def NoAssignList : List Exp → Prop
  | [] => True
  | exp :: expList => exp.NoAssign ∧ NoAssignList expList

end

section

variable {exp : Exp} {expList : List Exp} {name string : Text} {nameList : List Text} {sexp : Tree}
  {sexpList : List Tree} {kind : TokenKind}

theorem parseAssign_eq_some (h : parseAssign nameList sexpList = some exp) :
    (∃ names, exp = .assignNull names) ∨ ∃ names e, exp = .assign names e := by
  induction sexpList generalizing nameList with
  | nil => exact .inl ⟨nameList, (Option.some.inj h).symm⟩
  | cons sexp sexpList ih =>
    cases sexpList with
    | nil =>
      obtain ⟨e, -, rfl⟩ := Option.map_eq_some_iff.mp h
      exact .inr ⟨nameList, e, rfl⟩
    | cons sexp' sexpList =>
      obtain ⟨name, -, h⟩ := Option.bind_eq_some_iff.mp h
      exact ih h

theorem eq_atom_of_parseExp (h : parseExp sexp = some (.var name)) :
    ∃ kind, sexp = .atom kind name := by
  match sexp with
  | .atom kind string =>
    cases kind <;> simp [parseExp] at h <;> exact ⟨_, by rw [h]⟩
  | .list [] => simp [parseExp] at h
  | .list (sexp :: sexpList) =>
    rw [parseExp] at h
    split at h
    · rcases parseAssign_eq_some h with ⟨_, he⟩ | ⟨_, _, he⟩ <;> cases he
    · obtain ⟨target, -, h⟩ := Option.bind_eq_some_iff.mp h
      obtain ⟨argList, -, h⟩ := Option.bind_eq_some_iff.mp h
      cases h

theorem eq_list_of_parseExp {target : Exp} (h : parseExp sexp = some (.ap target expList)) :
    ∃ targetSexp argSexpList, sexp = .list (targetSexp :: argSexpList) ∧
      parseExp targetSexp = some target := by
  match sexp with
  | .atom kind string => cases kind <;> simp [parseExp] at h
  | .list [] => simp [parseExp] at h
  | .list (targetSexp :: argSexpList) =>
    rw [parseExp] at h
    split at h
    · rcases parseAssign_eq_some h with ⟨_, he⟩ | ⟨_, _, he⟩ <;> cases he
    · obtain ⟨target', ht, h⟩ := Option.bind_eq_some_iff.mp h
      obtain ⟨argList, -, h⟩ := Option.bind_eq_some_iff.mp h
      obtain ⟨rfl, rfl⟩ := Exp.ap.inj (Option.some.inj h)
      exact ⟨targetSexp, argSexpList, rfl, ht⟩

mutual

theorem Exp.Parsed.of_parseExp : ∀ {sexp : Tree} {exp : Exp}, parseExp sexp = some exp → exp.Parsed
  | .atom kind string, exp, h => by
    cases kind <;> simp [parseExp] at h <;> subst h <;> trivial
  | .list [], exp, h => by simp [parseExp] at h
  | .list (sexp :: sexpList), exp, h => by
    rw [parseExp] at h
    split at h
    · exact .of_parseAssign h fun _ => rfl
    · rename_i hs
      obtain ⟨target, ht, h⟩ := Option.bind_eq_some_iff.mp h
      obtain ⟨argList, hl, h⟩ := Option.bind_eq_some_iff.mp h
      obtain rfl := Option.some.inj h
      refine ⟨?_, .of_parseExp ht, .of_parseExpList hl⟩
      rintro name rfl
      obtain ⟨kind, rfl⟩ := eq_atom_of_parseExp ht
      simpa [sexpStartsWith] using hs

theorem ParsedList.of_parseExpList : ∀ {sexpList : List Tree} {expList : List Exp},
    parseExpList sexpList = some expList → ParsedList expList
  | [], expList, h => by
    obtain rfl := Option.some.inj h
    trivial
  | sexp :: sexpList, expList, h => by
    obtain ⟨exp, he, h⟩ := Option.bind_eq_some_iff.mp h
    obtain ⟨exps, hl, h⟩ := Option.bind_eq_some_iff.mp h
    obtain rfl := Option.some.inj h
    exact ⟨.of_parseExp he, .of_parseExpList hl⟩

theorem Exp.Parsed.of_parseAssign : ∀ {sexpList : List Tree} {nameList : List Text} {exp : Exp},
    parseAssign nameList sexpList = some exp → (sexpList = [] → nameList = []) → exp.Parsed
  | [], nameList, exp, h, hn => by
    obtain rfl := Option.some.inj h
    exact hn rfl
  | [sexp], nameList, exp, h, _ => by
    obtain ⟨e, he, rfl⟩ := Option.map_eq_some_iff.mp h
    have hp : e.Parsed := .of_parseExp he
    exact hp
  | sexp :: sexp' :: sexpList, nameList, exp, h, _ => by
    obtain ⟨name, hn, h⟩ := Option.bind_eq_some_iff.mp h
    exact .of_parseAssign h nofun

end

theorem printable_of_lexed (h : Lexed kind string) (hs : kind ≠ .string) (hd : kind ≠ .delimiter) :
    Printable kind string := by
  have hend : ∀ c ∈ string, !isEnd c := by
    cases h with
    | delimiter => exact (hd rfl).elim
    | string => exact (hs rfl).elim
    | generic _ he => exact he
  refine ⟨h, hd, ?_, ?_, fun hk => (hs hk).elim⟩
  · rintro rfl
    exact absurd (hend '(' List.mem_cons_self) (by decide)
  · rintro rfl
    exact absurd (hend ')' List.mem_cons_self) (by decide)

theorem printable_name (h : Lexed .generic name) : (nameTree name).Printable :=
  printable_of_lexed h nofun nofun

theorem printable_names (h : ∀ name ∈ nameList, Lexed .generic name) :
    PrintableTrees (nameList.map nameTree) := by
  induction nameList with
  | nil => trivial
  | cons name nameList ih =>
    exact ⟨printable_name (h name List.mem_cons_self),
      ih fun n hn => h n (List.mem_cons_of_mem name hn)⟩

theorem lexed_word (hk : kindOf string = .generic)
    (h : string ≠ [] ∧ string.all (!isEnd ·) ∧ string.head?.all (· ∉ [';', '"']) ∧
      '\x00' ∉ string ∧ string.length ≤ 1024) : Lexed .generic string := by
  obtain ⟨hne, hend, hhead, hz, hl⟩ := h
  have hhead' : ∀ c ∈ string.head?, c ∉ [';', '"'] := by
    intro c hc
    rw [Option.mem_def.mp hc] at hhead
    exact of_decide_eq_true hhead
  exact hk ▸ .generic hne (List.all_eq_true.mp hend) hhead' hz hl

theorem lexed_equals : Lexed .generic equals := lexed_word rfl (by decide)

theorem printable_assign (h : ∀ name ∈ nameList, Lexed .generic name) :
    (assignTree nameList).Printable := ⟨printable_name lexed_equals, printable_names h⟩

theorem sshiftRight_xint {target : BitVec 64} (h : -2 ^ 60 ≤ target.toInt)
    (h' : target.toInt < 2 ^ 60) :
    ((target <<< 3 ||| 2#64).sshiftRight 3).toInt = target.toInt := by
  rw [Tagged.toInt_sshiftRight_tag (by decide) (by decide)]
  exact Int.bmod_eq_of_le (by omega) (by omega)

theorem xintPrint_eq {target : BitVec 64} (h : -2 ^ 60 ≤ target.toInt ∧ target.toInt < 2 ^ 60) :
    xintPrint target = intText target.toInt := by
  rw [xintPrint, sshiftRight_xint h.1 h.2]

theorem lexed_xintPrint {target : BitVec 64}
    (h : -2 ^ 60 ≤ target.toInt ∧ target.toInt < 2 ^ 60) : Lexed .int (xintPrint target) := by
  rw [xintPrint_eq h]
  apply lexed_intText
  have hlt : target.toInt.natAbs < 2 ^ 61 := by omega
  exact hlt.trans (by decide)

mutual

theorem Exp.Ordinary.printable : ∀ {exp : Exp}, exp.Ordinary → exp.tree.Printable
  | .var _, h => printable_name h
  | .ap _ _, h => ⟨h.1.printable, h.2.printable⟩
  | .assign _ _, h => printable_assign h.1
  | .assignNull _, h => printable_assign h
  | .int _, h => printable_of_lexed (lexed_xintPrint h) nofun nofun

theorem OrdinaryList.printable :
    ∀ {expList : List Exp}, OrdinaryList expList → PrintableTrees (expTrees expList)
  | [], _ => trivial
  | _ :: _, h => ⟨h.1.printable, h.2.printable⟩

end

theorem nameListPrint_eq : nameListPrint nameList = printTrees (nameList.map nameTree) := by
  induction nameList with
  | nil => rfl
  | cons name nameList ih =>
    cases nameList with
    | nil => simp [nameListPrint, printTrees, nameTree, Tree.print]
    | cons name' nameList =>
      rw [nameListPrint, List.intercalate_cons_cons]
      rw [nameListPrint] at ih
      rw [ih]
      simp [printTrees, nameTree, Tree.print]

theorem assignPrint_eq : assignPrint nameList = (assignTree nameList).print := by
  cases nameList with
  | nil => rfl
  | cons name nameList =>
    rw [assignPrint, nameListPrint_eq]
    simp [assignTree, Tree.print, printTrees, nameTree, equals]

mutual

theorem expPrint_eq : ∀ {exp : Exp}, exp.Ordinary → expPrint exp = exp.tree.print
  | .var _, _ => rfl
  | .ap target [], h => by
    rw [expPrint, expPrint_eq h.1]
    rfl
  | .ap target (arg :: argList), h => by
    rw [expPrint, expPrint_eq h.1, expListPrint_eq h.2]
    simp [Exp.tree, Tree.print, expTrees, printTrees]
  | .assign _ _, _ => assignPrint_eq
  | .assignNull _, _ => assignPrint_eq
  | .int _, _ => rfl

theorem expListPrint_eq : ∀ {expList : List Exp}, OrdinaryList expList →
    expListPrint expList = printTrees (expTrees expList)
  | [], _ => rfl
  | [exp], h => expPrint_eq h.1
  | exp :: exp' :: expList, h => by
    rw [expListPrint, expPrint_eq h.1, expListPrint_eq h.2]
    rfl

end

theorem kindOf_of_lexed_int (h : Lexed .int string) : kindOf string = .int := by
  generalize hk : TokenKind.int = k at h
  cases h with
  | delimiter => cases hk
  | string => cases hk
  | generic => rfl

/-- Only a variable of this name starts an S-expression with the word. -/
theorem startsWith_target {target : Exp} (h : target.Ordinary) (hk : kindOf string = .generic)
    (hv : ∀ name, target = .var name → name ≠ string) :
    sexpStartsWith (.list (target.tree :: sexpList)) string = false := by
  cases target with
  | var name => simpa [Exp.tree, nameTree, sexpStartsWith] using hv name rfl
  | ap target argList => rfl
  | assign nameList exp => rfl
  | assignNull nameList => rfl
  | int target =>
    have hint := kindOf_of_lexed_int (lexed_xintPrint h)
    have hne : xintPrint target ≠ string := by
      rintro rfl
      rw [hk] at hint
      cases hint
    simpa [Exp.tree, sexpStartsWith] using hne
  | float target => exact h.elim

theorem parseAssign_names (front : List Text) : parseAssign front (nameList.map nameTree) =
    some (match nameList.getLast? with
      | none => .assignNull front
      | some name => .assign (front ++ nameList.dropLast) (.var name)) := by
  induction nameList generalizing front with
  | nil => rfl
  | cons name nameList ih =>
    cases nameList with
    | nil => simp [parseAssign, nameTree, parseExp]
    | cons name' nameList =>
      have ih := ih (front ++ [name])
      rw [List.map_cons] at ih
      rw [List.map_cons, List.map_cons, parseAssign]
      simp only [nameTree, sexpString, Option.bind_eq_bind, Option.bind_some]
      simp only [nameTree] at ih
      rw [ih]
      simp [List.getLast?_cons]

theorem parseExp_assignTree : parseExp (assignTree nameList) = some (rereadAssign nameList) := by
  rw [assignTree, nameTree, parseExp, if_pos (by simp [sexpStartsWith]), parseAssign_names]
  unfold rereadAssign
  cases nameList.getLast? <;> rfl

mutual

theorem parseExp_tree : ∀ {exp : Exp}, exp.Ordinary → exp.Parsed →
    parseExp exp.tree = some exp.reread
  | .var _, _, _ => rfl
  | .ap target argList, h, hp => by
    have he : sexpStartsWith (.list (target.tree :: expTrees argList)) equals = false :=
      startsWith_target h.1 rfl fun name hn => (hp.1 name hn).1
    have ha : sexpStartsWith (.list (target.tree :: expTrees argList)) assignWord = false :=
      startsWith_target h.1 rfl fun name hn => (hp.1 name hn).2
    rw [Exp.tree, parseExp, he, ha, parseExp_tree h.1 hp.2.1, parseExpList_trees h.2 hp.2.2]
    rfl
  | .assign _ _, _, _ => parseExp_assignTree
  | .assignNull _, _, _ => parseExp_assignTree
  | .int target, h, _ => by
    have hb : -2 ^ 60 ≤ target.toInt ∧ target.toInt < 2 ^ 60 := h
    rw [Exp.tree, parseExp, xintPrint_eq h, stringParseXint_intText (by omega) (by omega),
      BitVec.ofInt_toInt]
    rfl

theorem parseExpList_trees : ∀ {expList : List Exp}, OrdinaryList expList → ParsedList expList →
    parseExpList (expTrees expList) = some (rereadList expList)
  | [], _, _ => rfl
  | exp :: expList, h, hp => by
    rw [expTrees, parseExpList, parseExp_tree h.1 hp.1, parseExpList_trees h.2 hp.2]
    rfl

end

theorem rereadAssign_ne : rereadAssign nameList ≠ .assign nameList exp := by
  unfold rereadAssign
  rcases List.eq_nil_or_concat nameList with rfl | ⟨l, name, rfl⟩
  · exact nofun
  · rw [List.concat_eq_append, List.getLast?_concat, List.dropLast_concat]
    intro h
    have hlen := congrArg List.length (Exp.assign.inj h).1
    simp at hlen

mutual

theorem Exp.reread_eq_iff : ∀ {exp : Exp}, exp.Parsed → (exp.reread = exp ↔ exp.NoAssign)
  | .var _, _ => ⟨fun _ => trivial, fun _ => rfl⟩
  | .ap target argList, h => by
    rw [Exp.reread, Exp.ap.injEq, Exp.reread_eq_iff h.2.1, rereadList_eq_iff h.2.2]
    rfl
  | .assign _ _, _ => ⟨fun h => (rereadAssign_ne h).elim, False.elim⟩
  | .assignNull nameList, h => by
    obtain rfl : nameList = [] := h
    exact ⟨fun _ => trivial, fun _ => rfl⟩
  | .int _, _ => ⟨fun _ => trivial, fun _ => rfl⟩
  | .float _, _ => ⟨fun _ => trivial, fun _ => rfl⟩

theorem rereadList_eq_iff : ∀ {expList : List Exp}, ParsedList expList →
    (rereadList expList = expList ↔ NoAssignList expList)
  | [], _ => ⟨fun _ => trivial, fun _ => rfl⟩
  | exp :: expList, h => by
    rw [rereadList, List.cons.injEq, Exp.reread_eq_iff h.1, rereadList_eq_iff h.2]
    rfl

end

end

end InetLisp.Parse
