import InetLisp.Lib.Loop
import InetLisp.Packages.Utf8
import Mathlib.Data.List.Forall2

/-! # Iterating over the characters of a string

The iterator goes on by the length that a first byte announces, and it stops at a NUL. What
it reads depends on the bytes before the terminating NUL, as long as it does not step over
that one.
-/

namespace InetLisp.Utf8

open Lib

variable {α : Type}

/-- `utf8_iter_t` -/
structure Iter where
  cursor : ℕ
  string : List Byte

namespace Iter

def new (string : List Byte) : Iter := ⟨0, string⟩

def current (self : Iter) : Except Error CodePoint := do
  let byte ← load self.string self.cursor
  if byte = 0 then return 0 else decode self.string self.cursor

def first (self : Iter) : Except Error (Iter × CodePoint) := do
  let self := { self with cursor := 0 }
  let codePoint ← self.current
  return (self, codePoint)

def next (self : Iter) : Except Error (Iter × CodePoint) := do
  let byte ← load self.string self.cursor
  let byteLength ← charLength byte
  let self := { self with cursor := self.cursor + byteLength }
  let codePoint ← self.current
  return (self, codePoint)

end Iter

/-- A loop over the code points of a string, which ends at the code point zero -/
structure Scan (α : Type) where
  iter : Iter
  codePoint : CodePoint
  acc : α

namespace Scan

def more (s : Scan α) : Bool := s.codePoint ≠ 0

def step (f : α → CodePoint → Except Error α) (s : Scan α) : Except Error (Scan α) := do
  let acc ← f s.acc s.codePoint
  let (iter, codePoint) ← s.iter.next
  return ⟨iter, codePoint, acc⟩

end Scan

/-- The loop in so many rounds at most -/
def scan (f : α → CodePoint → Except Error α) (fuel : ℕ) (string : List Byte) (acc : α) :
    Option (Except Error α) :=
  match (Iter.new string).first with
  | .error e => some (.error e)
  | .ok (iter, codePoint) =>
    (loop Scan.more (Scan.step f) fuel ⟨iter, codePoint, acc⟩).map (·.map Scan.acc)

def stringLength (fuel : ℕ) (string : List Byte) : Option (Except Error ℕ) :=
  scan (fun length _ => .ok (length + 1)) fuel string 0

/-- The code points that the iterator gives, and how it ends. It ends without an error at the
end of the string, at a character without payload, and at such a character that lacks its last
byte. -/
inductive Reads : List Byte → List CodePoint → Except Error Unit → Prop where
  | nil : Reads [] [] (.ok ())
  | invalid {a : Byte} {tail : List Byte} {e : Error} (h : charLength a = .error e) :
      Reads (a :: tail) [] (.error e)
  | char {bytes rest : List Byte} {codePoint : CodePoint} {codePoints : List CodePoint}
      {r : Except Error Unit} (h : Carries bytes codePoint.toNat) (hne : codePoint ≠ 0)
      (hr : Reads rest codePoints r) : Reads (bytes ++ rest) (codePoint :: codePoints) r
  | zero {bytes : List Byte} (h : Carries bytes 0) (rest : List Byte) :
      Reads (bytes ++ rest) [] (.ok ())
  | cutZero {bytes : List Byte} (h : Carries (bytes ++ [0]) 0) : Reads bytes [] (.ok ())
  | cut {bytes : List Byte} {codePoint : CodePoint} (h : Carries (bytes ++ [0]) codePoint.toNat)
      (hne : codePoint ≠ 0) : Reads bytes [codePoint] (.error .outOfBounds)
  | cutShort {a : Byte} {tail : List Byte} {n : ℕ} (h : charLength a = .ok n)
      (hn : (a :: tail).length + 1 < n) : Reads (a :: tail) [] (.error .outOfBounds)

variable {pre rest bytes : List Byte} {a : Byte} {codePoint : CodePoint}
  {codePoints : List CodePoint} {r : Except Error Unit} {n v : ℕ}

theorem current_of_nil (pre : List Byte) : (⟨pre.length, pre⟩ : Iter).current = .ok 0 := by
  have hload : load pre pre.length = .ok 0 := by
    have hlies := Lies.snoc pre []
    rw [List.append_nil] at hlies
    exact hlies.load 0 (by simp)
  simp only [Iter.current, hload, bind, Except.bind, pure, Except.pure, if_true]

theorem Carries.current (h : Carries bytes codePoint.toNat) {string : List Byte} {cursor : ℕ}
    (hl : Lies string cursor bytes) : (⟨cursor, string⟩ : Iter).current = .ok codePoint := by
  have hdecode := h.decode hl
  obtain ⟨a, tail, rfl, hlen⟩ := h.exists_cons
  have hload : load string cursor = .ok a := hl.load 0 (by simp)
  simp only [Iter.current, hload, hdecode, bind, Except.bind, pure, Except.pure]
  split
  · rename_i hz
    subst hz
    cases tail with
    | nil =>
      have hzero : codePoint = 0 := BitVec.toNat_inj.mp h.2
      rw [hzero]
    | cons b tail =>
      have hone : charLength 0 = .ok 1 := rfl
      rw [hone] at hlen
      simp at hlen
  · rfl

theorem next_eq {string : List Byte} {cursor : ℕ} (hl : load string cursor = .ok a)
    (hn : charLength a = .ok n) : (⟨cursor, string⟩ : Iter).next =
      (⟨cursor + n, string⟩ : Iter).current.map
        fun codePoint => (⟨cursor + n, string⟩, codePoint) := by
  simp only [Iter.next, hl, hn, bind, Except.bind, pure, Except.pure]
  rfl

theorem load_first (pre : List Byte) (a : Byte) (tail : List Byte) :
    load (pre ++ a :: tail) pre.length = .ok a := by
  have hlies := Lies.append pre [a] tail
  exact hlies.load 0 (by simp)

theorem current_of_length_lt {string : List Byte} {cursor : ℕ} (h : string.length < cursor) :
    (⟨cursor, string⟩ : Iter).current = .error .outOfBounds := by
  simp only [Iter.current, load_of_length_lt h, bind, Except.bind]

theorem current_of_invalid {e : Error} (h : charLength a = .error e) (pre tail : List Byte) :
    (⟨pre.length, pre ++ a :: tail⟩ : Iter).current = .error e := by
  have hne : a ≠ 0 := by
    rintro rfl
    cases h
  simp only [Iter.current, decode, load_first, h, bind, Except.bind, if_neg hne]

/-- A character that lacks two bytes or more is read beyond the terminating NUL. -/
theorem current_of_short {tail : List Byte} (h : charLength a = .ok n)
    (hn : (a :: tail).length + 1 < n) (pre : List Byte) :
    (⟨pre.length, pre ++ a :: tail⟩ : Iter).current = .error .outOfBounds := by
  have hne : a ≠ 0 := by
    rintro rfl
    cases h
    simp at hn
  have hlies := Lies.snoc pre (a :: tail)
  have hend {k : ℕ} (hk : (a :: tail).length < k) :
      load (pre ++ a :: tail) (pre.length + k) = .error .outOfBounds :=
    load_of_length_lt (by rw [List.length_append]; omega)
  have hle : n ≤ 4 := by
    rw [charLength_eq] at h
    split_ifs at h <;> cases h <;> decide
  simp only [Iter.current, decode, load_first, h, bind, Except.bind, if_neg hne]
  rw [List.length_cons] at hn
  obtain rfl | rfl : n = 3 ∨ n = 4 := by omega
  · have h₁ := hlies.load 1 (by simp)
    simp only [h₁, hend (k := 2) (by rw [List.length_cons]; omega)]
  · have h₁ := hlies.load 1 (by simp)
    cases tail with
    | nil => simp only [h₁, hend (k := 2) (by simp)]
    | cons b tail =>
      have h₂ := hlies.load 2 (by simp)
      rw [List.length_cons] at hn
      simp only [h₁, h₂, hend (k := 3) (by rw [List.length_cons, List.length_cons]; omega)]

/-- The body of a loop, folded over the code points that the iterator gives -/
def result (f : α → CodePoint → Except Error α) (acc : α) (codePoints : List CodePoint)
    (r : Except Error Unit) : Except Error α := do
  let acc ← codePoints.foldlM f acc
  r
  return acc

variable {f : α → CodePoint → Except Error α} {acc : α}

theorem step_of_error {iter : Iter} {e : Error} (h : f acc codePoint = .error e) :
    Scan.step f ⟨iter, codePoint, acc⟩ = .error e := by
  simp only [Scan.step, h, bind, Except.bind]

theorem step_of_ok {string : List Byte} {cursor : ℕ} {acc' : α} (h : f acc codePoint = .ok acc')
    (hl : load string cursor = .ok a) (hn : charLength a = .ok n) :
    Scan.step f ⟨⟨cursor, string⟩, codePoint, acc⟩ =
      (⟨cursor + n, string⟩ : Iter).current.map fun codePoint =>
        ⟨⟨cursor + n, string⟩, codePoint, acc'⟩ := by
  simp only [Scan.step, h, next_eq hl hn, bind, Except.bind, pure, Except.pure]
  cases (⟨cursor + n, string⟩ : Iter).current <;> rfl

theorem more_of_ne (hne : codePoint ≠ 0) (iter : Iter) (acc : α) :
    Scan.more ⟨iter, codePoint, acc⟩ = true := by
  simpa [Scan.more] using hne

theorem result_cons_of_error {e : Error} (h : f acc codePoint = .error e) :
    result f acc (codePoint :: codePoints) r = .error e := by
  simp only [result, List.foldlM_cons, h, bind, Except.bind]

theorem result_cons_of_ok {acc' : α} (h : f acc codePoint = .ok acc') :
    result f acc (codePoint :: codePoints) r = result f acc' codePoints r := by
  simp only [result, List.foldlM_cons, h, bind, Except.bind]

/-- The loop ends as the reading does, from every place in a string. -/
theorem Reads.ends (h : Reads rest codePoints r) (pre : List Byte) (acc : α) :
    (∃ e, (⟨pre.length, pre ++ rest⟩ : Iter).current = .error e ∧ codePoints = [] ∧
      r = .error e) ∨
    ∃ codePoint r', (⟨pre.length, pre ++ rest⟩ : Iter).current = .ok codePoint ∧
      Ends Scan.more (Scan.step f) ⟨⟨pre.length, pre ++ rest⟩, codePoint, acc⟩ r' ∧
      r'.map Scan.acc = result f acc codePoints r := by
  induction h generalizing pre acc with
  | nil =>
    rw [List.append_nil]
    exact .inr ⟨0, _, current_of_nil pre, .of_not_more rfl, rfl⟩
  | invalid h => exact .inl ⟨_, current_of_invalid h pre _, rfl, rfl⟩
  | @char bytes rest codePoint codePoints r h hne hr ih =>
    have hcurrent := h.current (Lies.append pre bytes rest)
    refine .inr ⟨codePoint, ?_⟩
    cases hf : f acc codePoint with
    | error e =>
      refine ⟨.error e, hcurrent, .of_error (more_of_ne hne _ _) (step_of_error hf), ?_⟩
      exact (result_cons_of_error hf).symm
    | ok acc' =>
      obtain ⟨a, tail, rfl, hlen⟩ := h.exists_cons
      have hload : load (pre ++ (a :: tail ++ rest)) pre.length = .ok a :=
        load_first pre a (tail ++ rest)
      have hstep := step_of_ok hf hload hlen
      rw [← List.append_assoc, ← List.length_append] at hstep
      rw [← List.append_assoc] at hcurrent ⊢
      have hresult : result f acc (codePoint :: codePoints) r = result f acc' codePoints r :=
        result_cons_of_ok hf
      rcases ih (pre ++ a :: tail) acc' with ⟨e, he, rfl, rfl⟩ | ⟨next, r', he, hends, hr'⟩
      · rw [he] at hstep
        exact ⟨.error e, hcurrent, .of_error (more_of_ne hne _ _) hstep, hresult.symm⟩
      · rw [he] at hstep
        exact ⟨r', hcurrent, hends.of_next ⟨more_of_ne hne _ _, hstep⟩, hr'.trans hresult.symm⟩
  | @zero bytes h rest =>
    have hcurrent : (⟨pre.length, pre ++ (bytes ++ rest)⟩ : Iter).current = .ok 0 :=
      Carries.current h (Lies.append pre bytes rest)
    exact .inr ⟨0, _, hcurrent, .of_not_more rfl, rfl⟩
  | @cutZero bytes h =>
    have hcurrent : (⟨pre.length, pre ++ bytes⟩ : Iter).current = .ok 0 :=
      Carries.current h (Lies.snoc pre bytes)
    exact .inr ⟨0, _, hcurrent, .of_not_more rfl, rfl⟩
  | @cut bytes codePoint h hne =>
    have hcurrent := h.current (Lies.snoc pre bytes)
    refine .inr ⟨codePoint, ?_⟩
    cases hf : f acc codePoint with
    | error e =>
      refine ⟨.error e, hcurrent, .of_error (more_of_ne hne _ _) (step_of_error hf), ?_⟩
      exact (result_cons_of_error hf).symm
    | ok acc' =>
      obtain ⟨a, tail, he, hlen⟩ := h.exists_cons
      have hload : load (pre ++ bytes) pre.length = .ok a := by
        have hlies := Lies.snoc pre bytes
        rw [he] at hlies
        exact hlies.load 0 (by simp)
      have hstep := step_of_ok hf hload hlen
      rw [current_of_length_lt (by simp)] at hstep
      refine ⟨.error .outOfBounds, hcurrent, .of_error (more_of_ne hne _ _) hstep, ?_⟩
      rw [result_cons_of_ok hf]
      rfl
  | cutShort h hn => exact .inl ⟨_, current_of_short h hn pre, rfl, rfl⟩

theorem Reads.scan {string : List Byte} (h : Reads string codePoints r)
    (f : α → CodePoint → Except Error α) (acc : α) :
    ∃ fuel, scan f fuel string acc = some (result f acc codePoints r) := by
  rcases h.ends (f := f) [] acc with ⟨e, he, rfl, rfl⟩ | ⟨codePoint, r', he, ⟨fuel, hends⟩, hr'⟩
  · refine ⟨0, ?_⟩
    have hfirst : (Iter.new string).first = .error e := by
      simp only [Iter.first, Iter.new, bind, Except.bind]
      rw [show (⟨0, string⟩ : Iter).current = .error e from he]
    simp only [Utf8.scan, hfirst]
    rfl
  · refine ⟨fuel, ?_⟩
    have hfirst : (Iter.new string).first = .ok (⟨0, string⟩, codePoint) := by
      simp only [Iter.first, Iter.new, bind, Except.bind]
      rw [show (⟨0, string⟩ : Iter).current = .ok codePoint from he]
      rfl
    simp only [Utf8.scan, hfirst]
    rw [← hr']
    exact congrArg (Option.map (Except.map Scan.acc)) hends

theorem scan_unique {string : List Byte} {m : ℕ} {x y : Except Error α}
    (h : scan f n string acc = some x) (h' : scan f m string acc = some y) : x = y := by
  unfold Utf8.scan at h h'
  split at h
  · cases h
    rename_i e he
    rw [he] at h'
    cases h'
    rfl
  · rename_i iter codePoint he
    rw [he] at h'
    obtain ⟨x', hx, rfl⟩ := Option.map_eq_some_iff.mp h
    obtain ⟨y', hy, rfl⟩ := Option.map_eq_some_iff.mp h'
    rw [Ends.unique ⟨n, hx⟩ ⟨m, hy⟩]

end InetLisp.Utf8
