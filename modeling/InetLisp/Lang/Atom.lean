import InetLisp.Lang.Parse
import InetLisp.Packages.FloatLiteral
import InetLisp.Value.Xint

/-! # Atoms

The lexer decides by the spelling of an atom which kind its token has, and the parser
makes an integer, a float or a name of it by its kind. An integer is pushed as a tagged
word when its opcode is executed.
-/

namespace InetLisp

namespace Parse

mutual

/-- The expression that is compiled; a call of the compiler reads every part. -/
def Exp.toExp : Exp → Option InetLisp.Exp
  | .var name => some (.var (String.ofList name))
  | .ap target argList => do
    let target ← target.toExp
    let argList ← expsOf argList
    return .ap target argList
  | .assign nameList exp => do
    let exp ← exp.toExp
    return .assign (nameList.map String.ofList) exp
  | .assignNull _ => none
  | .int target => some (.int target)
  | .float target => some (.float target)

def expsOf : List Exp → Option (List InetLisp.Exp)
  | [] => some []
  | exp :: expList => do
    let exp ← exp.toExp
    let expList ← expsOf expList
    return exp :: expList

end

end Parse

namespace Atom

open Lexer
open Parse (parseExp)

/-- What is compiled for an atom, among the names that are local and those of the module. -/
def compileAtom (find : String → Option Value) (locals : List String) (kind : TokenKind)
    (s : Text) : Option Compiled :=
  ((parseExp (.atom kind s)).bind Parse.Exp.toExp).map (compileExp find locals)

def IsInt (s : Text) : Prop := ∃ z, IntLiteral.Literal s z

def IsFloat (s : Text) : Prop := FloatLiteral.Literal s ∧ ¬IsInt s

/-- A local name is read from its variable, and another one from the module. -/
structure Refers (kind : TokenKind) (s : Text) : Prop where
  parse : parseExp (.atom kind s) = some (.var s)
  getVariable : ∀ find locals index, localIndex locals (String.ofList s) = some index →
    compileAtom find locals kind s = some (.ok ([.getVariable index], locals))
  literal : ∀ find locals value, localIndex locals (String.ofList s) = none →
    find (String.ofList s) = some value →
      compileAtom find locals kind s = some (.ok ([.literal value], locals))

/-- An atom is read as its spelling says, and a string is no name. -/
structure Classified (kind : TokenKind) (s : Text) : Prop where
  int : (∃ target, parseExp (.atom kind s) = some (.int target)) ↔ kind ≠ .string ∧ IsInt s
  float : (∃ target, parseExp (.atom kind s) = some (.float target)) ↔ kind ≠ .string ∧ IsFloat s
  var : (∃ name, parseExp (.atom kind s) = some (.var name)) ↔
    kind ≠ .string ∧ ¬IsInt s ∧ ¬IsFloat s
  refers : kind ≠ .string → ¬IsInt s → ¬IsFloat s → Refers kind s

/-- No string, no integer in base two, nothing between the prefix of an integer and its digits,
and none of the other forms that `strtod` takes unless it is an integer. -/
structure Plain (kind : TokenKind) (s : Text) : Prop where
  not_string : kind ≠ .string
  not_binary : ¬IntLiteral.Binary s
  not_padded : ¬IntLiteral.Padded s
  not_special : FloatLiteral.Special s → IsInt s

def Holds (value : Value) (z : ℤ) : Prop := ∃ bits, toInt64 value = some bits ∧ bits.toInt = z

/-- The compiler rejects the atom, or what it pushes is the number. -/
def Keeps (find : String → Option Value) (locals : List String) (kind : TokenKind) (s : Text)
    (z : ℤ) : Prop :=
  ∀ result, compileAtom find locals kind s = some result → match result with
    | .error _ => True
    | .ok (ops, _) => ∃ value, ops = [.literal value] ∧ Holds value z

section

variable {kind : TokenKind} {s : Text} {z : ℤ} {find : String → Option Value}
  {locals : List String}

theorem parseExp_int : parseExp (.atom .int s) = some (.int (stringParseXint s)) := by
  rw [parseExp]

theorem parseExp_float : parseExp (.atom .float s) = some (.float (stringParseDouble s)) := by
  rw [parseExp]

theorem parseExp_generic : parseExp (.atom .generic s) = some (.var s) := by
  simp [parseExp]

theorem parseExp_string : parseExp (.atom .string s) = some (.var s) := by
  simp [parseExp]

theorem refers_of_parse (h : parseExp (.atom kind s) = some (.var s)) : Refers kind s := by
  refine ⟨h, ?_, ?_⟩
  · intro find locals index hlocal
    rw [compileAtom, h]
    simp [Parse.Exp.toExp, compileExp, compileVar, hlocal]
  · intro find locals value hlocal hfind
    rw [compileAtom, h]
    simp [Parse.Exp.toExp, compileExp, compileVar, hlocal, hfind]

theorem kindOf_cases (s : Text) :
    (kindOf s = .int ∧ stringIsXint s = true) ∨
      (kindOf s = .float ∧ ¬stringIsXint s = true ∧ stringIsDouble s = true) ∨
        (kindOf s = .generic ∧ ¬stringIsXint s = true ∧ ¬stringIsDouble s = true) := by
  unfold kindOf
  split
  · exact .inl ⟨rfl, ‹_›⟩
  · split
    · exact .inr (.inl ⟨rfl, ‹_›, ‹_›⟩)
    · exact .inr (.inr ⟨rfl, ‹_›, ‹_›⟩)

theorem isInt_of_stringIsXint (hp : ¬IntLiteral.Padded s) (h : stringIsXint s = true) :
    IsInt s := by
  rcases IntLiteral.stringIsXint_iff_literal.mp h with ⟨hz, -⟩ | hpad
  · exact hz
  · exact (hp hpad).elim

structure Unquoted (s : Text) : Prop where
  not_isspace : ∀ c ∈ s, ¬isspace c
  not_mem_open : '(' ∉ s

theorem Unquoted.stringIsDouble_iff (hu : Unquoted s) :
    stringIsDouble s = true ↔ FloatLiteral.Literal s ∨ FloatLiteral.Special s :=
  FloatLiteral.stringIsDouble_iff hu.not_isspace hu.not_mem_open

theorem Classified.plain (hu : Unquoted s) (h : Classified (kindOf s) s) : Plain (kindOf s) s := by
  have hstring : kindOf s ≠ .string := (kindOf_ne s).1
  have hxint (hx : stringIsXint s = true) : kindOf s = .int := by rw [kindOf, if_pos hx]
  have hpadded : ¬IntLiteral.Padded s := by
    intro hp
    have hkind := hxint (IntLiteral.stringIsXint_iff_literal.mpr (.inr hp))
    obtain ⟨-, z, hz⟩ := h.int.mp ⟨_, by rw [hkind]; exact parseExp_int⟩
    exact hp.not_literal hz
  refine ⟨hstring, ?_, hpadded, ?_⟩
  · intro hb
    obtain ⟨target, htarget⟩ := h.int.mpr ⟨hstring, hb.literal⟩
    rcases kindOf_cases s with ⟨-, hx⟩ | ⟨hkind, -⟩ | ⟨hkind, -⟩
    · rcases IntLiteral.stringIsXint_iff_literal.mp hx with ⟨-, hnot⟩ | hp
      · exact hnot hb
      · exact hpadded hp
    · rw [hkind, parseExp_float] at htarget
      cases htarget
    · rw [hkind, parseExp_generic] at htarget
      cases htarget
  · intro hs
    by_contra hint
    have hnot : ¬stringIsXint s = true := fun hx => hint (isInt_of_stringIsXint hpadded hx)
    have hdouble := hu.stringIsDouble_iff.mpr (.inr hs)
    have hkind : kindOf s = .float := by rw [kindOf, if_neg hnot, if_pos hdouble]
    obtain ⟨-, hfloat, -⟩ := h.float.mp ⟨_, by rw [hkind]; exact parseExp_float⟩
    exact hs.not_literal hfloat

theorem Plain.classified (hu : Unquoted s) (h : Plain (kindOf s) s) :
    Classified (kindOf s) s := by
  have hint : stringIsXint s = true ↔ IsInt s :=
    ⟨isInt_of_stringIsXint h.not_padded,
      fun hz => IntLiteral.stringIsXint_iff_literal.mpr (.inl ⟨hz, h.not_binary⟩)⟩
  have hfloat (hn : ¬IsInt s) : stringIsDouble s = true ↔ FloatLiteral.Literal s := by
    rw [hu.stringIsDouble_iff]
    exact or_iff_left fun hs => hn (h.not_special hs)
  rcases kindOf_cases s with ⟨hkind, hx⟩ | ⟨hkind, hx, hd⟩ | ⟨hkind, hx, hd⟩
  · have hyes := hint.mp hx
    rw [hkind]
    constructor
    · simp [parseExp_int, hyes]
    · simp [parseExp_int, IsFloat, hyes]
    · simp [parseExp_int, hyes]
    · exact fun _ hn => (hn hyes).elim
  · have hno : ¬IsInt s := fun hz => hx (hint.mpr hz)
    have hyes : IsFloat s := ⟨(hfloat hno).mp hd, hno⟩
    rw [hkind]
    constructor
    · simp [parseExp_float, hno]
    · simp [parseExp_float, hyes]
    · simp [parseExp_float, hyes]
    · exact fun _ _ hn => (hn hyes).elim
  · have hno : ¬IsInt s := fun hz => hx (hint.mpr hz)
    have hno' : ¬IsFloat s := fun hf => hd ((hfloat hno).mpr hf.1)
    rw [hkind]
    constructor
    · simp [parseExp_generic, hno]
    · simp [parseExp_generic, hno']
    · simp [parseExp_generic, hno, hno']
    · exact fun _ _ _ => refers_of_parse parseExp_generic

theorem not_classified_string : ¬Classified .string s := by
  intro h
  exact (h.var.mp ⟨s, parseExp_string⟩).1 rfl

theorem unquoted_of_not_isEnd (hs : ∀ c ∈ s, !isEnd c) : Unquoted s := by
  constructor
  · intro c hc hspace
    have hend := hs c hc
    simp [isEnd, hspace] at hend
  · intro hc
    exact absurd (hs '(' hc) (by decide)

/-- The recognisers take more than numerals, and the parser makes names of strings. -/
theorem classified_iff (source : CString) {sexpList : List Sexp}
    (h : sexpParseList source.text = some (.ok sexpList)) :
    ∀ sexp ∈ sexpList, sexp.tree.All fun kind s => Classified kind s ↔ Plain kind s := by
  intro sexp hs
  have hall : sexp.tree.All fun kind s => Lexed kind s ∧ s ≠ ['('] ∧ s ≠ [')'] :=
    all_of_sexpParseList h hs fun tokenList hrun token ht => lexed_of_lexerRun hrun token ht
  refine hall.mono fun kind s ⟨hl, ho, hc⟩ => ?_
  cases hl with
  | delimiter hd =>
    rcases List.mem_pair.mp hd with rfl | rfl
    · exact (ho rfl).elim
    · exact (hc rfl).elim
  | string =>
    exact ⟨fun hclass => (not_classified_string hclass).elim,
      fun hplain => (hplain.not_string rfl).elim⟩
  | generic hn hgeneric =>
    have hu := unquoted_of_not_isEnd hgeneric
    exact ⟨fun hclass => hclass.plain hu, fun hplain => hplain.classified hu⟩

end

def infText : CString := ⟨['i', 'n', 'f'], by decide⟩

def infSexp : Sexp := .atom ⟨['i', 'n', 'f'], .float, 0, 3, 1, 4⟩

theorem sexpParseList_inf : sexpParseList infText.text = some (.ok [infSexp]) := rfl

/-- `(f 12 inf)` -/
def callText : CString := ⟨['(', 'f', ' ', '1', '2', ' ', 'i', 'n', 'f', ')'], by decide⟩

def callTokens : List Token :=
  [⟨['('], .delimiter, 0, 1, 1, 2⟩, ⟨['f'], .generic, 1, 2, 1, 3⟩, ⟨['1', '2'], .int, 3, 5, 1, 6⟩,
    ⟨['i', 'n', 'f'], .float, 6, 9, 1, 10⟩, ⟨[')'], .delimiter, 9, 10, 1, 11⟩]

def callSexp : Sexp :=
  .list ⟨['('], .delimiter, 0, 1, 1, 2⟩ (some ⟨[')'], .delimiter, 9, 10, 1, 11⟩)
    [.atom ⟨['f'], .generic, 1, 2, 1, 3⟩, .atom ⟨['1', '2'], .int, 3, 5, 1, 6⟩,
      .atom ⟨['i', 'n', 'f'], .float, 6, 9, 1, 10⟩]

theorem sexpParseList_call : sexpParseList callText.text = some (.ok [callSexp]) := by
  have hlexer : lexerRun sexpConfig callText.text = some (.ok callTokens) := rfl
  rw [sexpParseList, hlexer]
  rfl

theorem plain_call : Plain .generic ['f'] ∧ Plain .int ['1', '2'] := by
  have hbinary {s : Text} (h : (IntLiteral.radix (sign s).2).1 ≠ 2) :
      ¬IntLiteral.Binary s := fun hb => h (IntLiteral.binary_iff.mp hb).1
  have hu : Unquoted ['f'] := unquoted_of_not_isEnd (List.forall_mem_singleton.mpr rfl)
  have hdigits : IntLiteral.IsDigits 10 ['1', '2'] :=
    ⟨List.cons_ne_nil _ _, List.forall_mem_cons.mpr ⟨rfl, List.forall_mem_singleton.mpr rfl⟩⟩
  have hint : IntLiteral.Literal ['1', '2'] 12 := .intro .none .decimal hdigits
  constructor
  · refine ⟨by decide, hbinary (by decide), fun hp => ?_, fun hs => ?_⟩
    · exact absurd (IntLiteral.stringIsXint_iff_literal.mpr (.inr hp)) (by decide)
    · exact absurd (hu.stringIsDouble_iff.mpr (.inr hs)) (by decide)
  · exact ⟨by decide, hbinary (by decide), fun hp => hp.not_literal hint, fun _ => ⟨12, hint⟩⟩

/-- A name, an integer, and a name that is read as a float. -/
theorem classified_iff_call : Classified .generic ['f'] ∧ Classified .int ['1', '2'] ∧
    ¬Classified .float ['i', 'n', 'f'] := by
  obtain ⟨hname, hint, hinf, -⟩ :=
    classified_iff callText sexpParseList_call callSexp List.mem_cons_self
  refine ⟨hname.mpr plain_call.1, hint.mpr plain_call.2, fun hclass => ?_⟩
  obtain ⟨z, hz⟩ := (hinf.mp hclass).not_special (.word .none (by decide))
  have hbinary : ¬IntLiteral.Binary ['i', 'n', 'f'] := (hinf.mp hclass).not_binary
  exact absurd (IntLiteral.stringIsXint_iff_literal.mpr (.inl ⟨⟨z, hz⟩, hbinary⟩)) (by decide)

/-- The name `inf` is read as a float. -/
theorem not_classified : ¬∀ (source : CString) (sexpList : List Sexp),
    sexpParseList source.text = some (.ok sexpList) →
      ∀ sexp ∈ sexpList, sexp.tree.All Classified := by
  intro h
  have hclass : Classified .float ['i', 'n', 'f'] :=
    h infText [infSexp] sexpParseList_inf infSexp List.mem_cons_self
  have hspecial : FloatLiteral.Special ['i', 'n', 'f'] := .word .none (by decide)
  exact hspecial.not_literal (hclass.float.mp ⟨_, parseExp_float⟩).2.1

section

variable {kind : TokenKind} {s : Text} {z : ℤ} {find : String → Option Value}
  {locals : List String}

/-- The number has 61 bits; in base two the atom is a name, which is not local and stands for
nothing but the number. -/
def Fits (find : String → Option Value) (locals : List String) (s : Text) (z : ℤ) : Prop :=
  (¬IntLiteral.Binary s → -2 ^ 60 ≤ z ∧ z < 2 ^ 60) ∧
    (IntLiteral.Binary s → localIndex locals (String.ofList s) = none ∧
      ∀ value, find (String.ofList s) = some value → Holds value z)

theorem compileAtom_int : compileAtom find locals .int s =
    some (.ok ([.literal (xint (stringParseXint s))], locals)) := by
  rw [compileAtom, parseExp_int]
  simp [Parse.Exp.toExp, compileExp]

theorem compileAtom_generic : compileAtom find locals .generic s =
    some (compileVar find locals (String.ofList s)) := by
  rw [compileAtom, parseExp_generic]
  simp [Parse.Exp.toExp, compileExp]

theorem holds_xint_iff (bits : BitVec 64) : Holds (xint bits) z ↔ residue bits.toInt = z := by
  rw [← toInt_toInt64_xint]
  constructor
  · rintro ⟨bits', h, rfl⟩
    rw [toInt64_xint, Option.some_inj] at h
    rw [h]
  · intro h
    exact ⟨_, toInt64_xint bits, h⟩

theorem residue_bounds (n : ℤ) : -2 ^ 60 ≤ residue n ∧ residue n < 2 ^ 60 := by
  rw [← residue_eq_self_iff]
  exact Int.bmod_bmod

theorem keeps_int_iff (hz : IntLiteral.Literal s z) :
    Keeps find locals .int s z ↔ -2 ^ 60 ≤ z ∧ z < 2 ^ 60 := by
  have hkeeps : Keeps find locals .int s z ↔ residue (stringParseXint s).toInt = z := by
    rw [← holds_xint_iff, Keeps, compileAtom_int]
    constructor
    · intro h
      obtain ⟨value, hops, hvalue⟩ := h _ rfl
      obtain rfl := Opcode.literal.inj (List.cons.inj hops).1
      exact hvalue
    · rintro h result ⟨⟩
      exact ⟨_, rfl, h⟩
  rw [hkeeps]
  constructor
  · rintro rfl
    exact residue_bounds _
  · rintro ⟨hle, hlt⟩
    have hparse : (stringParseXint s).toInt = z := by
      rw [IntLiteral.stringParseXint_of_lt hz (by omega) (by omega), BitVec.toInt_ofInt,
        Int.bmod_eq_of_le (by omega) (by omega)]
    rw [hparse, residue_eq_self_iff]
    exact ⟨hle, hlt⟩

theorem keeps_generic_iff : Keeps find locals .generic s z ↔
    localIndex locals (String.ofList s) = none ∧
      ∀ value, find (String.ofList s) = some value → Holds value z := by
  rw [Keeps, compileAtom_generic, compileVar]
  constructor
  · intro h
    cases hlocal : localIndex locals (String.ofList s) with
    | some index =>
      rw [hlocal] at h
      obtain ⟨value, hops, -⟩ := h _ rfl
      cases hops
    | none =>
      rw [hlocal] at h
      refine ⟨rfl, fun value hfind => ?_⟩
      rw [hfind] at h
      obtain ⟨value', hops, hvalue⟩ := h _ rfl
      obtain rfl := Opcode.literal.inj (List.cons.inj hops).1
      exact hvalue
  · rintro ⟨hlocal, hvalue⟩ result hresult
    rw [hlocal] at hresult
    cases hfind : find (String.ofList s) with
    | none =>
      rw [hfind] at hresult
      obtain rfl := Option.some.inj hresult
      trivial
    | some value =>
      rw [hfind] at hresult
      obtain rfl := Option.some.inj hresult
      exact ⟨value, rfl, hvalue value hfind⟩

theorem keeps_kindOf_iff (hu : Unquoted s) (hz : IntLiteral.Literal s z) :
    Keeps find locals (kindOf s) s z ↔ Fits find locals s z := by
  by_cases hb : IntLiteral.Binary s
  · have hnot : ¬stringIsXint s = true := by
      intro hx
      rcases IntLiteral.stringIsXint_iff_literal.mp hx with ⟨-, hn⟩ | hp
      · exact hn hb
      · exact hp.not_literal hz
    have hdouble : ¬stringIsDouble s = true := by
      rw [hu.stringIsDouble_iff]
      rintro (hl | hs)
      · exact (FloatLiteral.not_double_of_binary hb).1 hl
      · exact (FloatLiteral.not_double_of_binary hb).2 hs
    rw [kindOf, if_neg hnot, if_neg hdouble, keeps_generic_iff]
    exact ⟨fun h => ⟨fun hn => (hn hb).elim, fun _ => h⟩, fun h => h.2 hb⟩
  · have hx : stringIsXint s = true := IntLiteral.stringIsXint_iff_literal.mpr (.inl ⟨⟨z, hz⟩, hb⟩)
    rw [kindOf, if_pos hx, keeps_int_iff hz]
    exact ⟨fun h => ⟨fun _ => h, fun hbin => (hb hbin).elim⟩, fun h => h.1 hb⟩

theorem not_literal_delimiter {c : Char} (hc : c ∈ ['(', ')']) : ¬IntLiteral.Literal [c] z := by
  intro h
  have hd := (IntLiteral.literal_iff.mp h).1.isSome
  rcases List.mem_pair.mp hc with rfl | rfl
  · exact absurd (hd '(' (by decide)) (by decide)
  · exact absurd (hd ')' (by decide)) (by decide)

/-- Nothing checks that an integer literal fits in the 61 bits of a tagged word. -/
theorem keeps_iff (source : CString) {tokenList : List Token} {token : Token}
    (h : lexerRun sexpConfig source.text = some (.ok tokenList)) (ht : token ∈ tokenList)
    (hk : token.kind ≠ .string) (hz : IntLiteral.Literal token.string z)
    (find : String → Option Value) (locals : List String) :
    Keeps find locals token.kind token.string z ↔ Fits find locals token.string z := by
  have hl := lexed_of_lexerRun h token ht
  generalize token.kind = kind at *
  generalize token.string = s at *
  cases hl with
  | delimiter hc => exact (not_literal_delimiter hc hz).elim
  | string => exact (hk rfl).elim
  | generic _ hs => exact keeps_kindOf_iff (unquoted_of_not_isEnd hs) hz

end

def sevenText : CString := ⟨['7'], by decide⟩

def sevenToken : Token := ⟨['7'], .int, 0, 1, 1, 2⟩

theorem lexerRun_seven : lexerRun sexpConfig sevenText.text = some (.ok [sevenToken]) := rfl

theorem literal_seven : IntLiteral.Literal ['7'] 7 :=
  .intro .none .decimal ⟨nofun, List.all_eq_true.mp rfl⟩

theorem keeps_iff_seven :
    Keeps (fun _ => none) [] .int ['7'] 7 ↔ Fits (fun _ => none) [] ['7'] 7 :=
  keeps_iff sevenText lexerRun_seven List.mem_cons_self nofun literal_seven _ _

/-- The first number that has no place in a tagged word. -/
def tooLarge : Text :=
  ['1', '1', '5', '2', '9', '2', '1', '5', '0', '4', '6', '0', '6', '8', '4', '6', '9', '7', '6']

def tooLargeText : CString := ⟨tooLarge, by decide⟩

theorem literal_tooLarge : IntLiteral.Literal tooLarge (2 ^ 60) :=
  .intro .none .decimal ⟨nofun, List.all_eq_true.mp rfl⟩

theorem not_keeps : ¬∀ (source : CString) (tokenList : List Token) (token : Token) (z : ℤ)
    (find : String → Option Value) (locals : List String),
    lexerRun sexpConfig source.text = some (.ok tokenList) → token ∈ tokenList →
      token.kind ≠ .string → IntLiteral.Literal token.string z →
        Keeps find locals token.kind token.string z := by
  intro h
  have hkeeps : Keeps (fun _ => none) [] .int tooLarge (2 ^ 60) :=
    h tooLargeText [⟨tooLarge, .int, 0, 19, 1, 20⟩] ⟨tooLarge, .int, 0, 19, 1, 20⟩ _ _ _ rfl
      List.mem_cons_self nofun literal_tooLarge
  exact absurd ((keeps_int_iff literal_tooLarge).mp hkeeps).2 (by decide)

end Atom

end InetLisp
