import InetLisp.Packages.Location
import InetLisp.Packages.String

/-! # The strings of paths

A path keeps its string beside its segments. The string is written into a buffer, whose size
is computed from the segments before, and a path is copied by reading its string again.
-/

namespace InetLisp.PathString

open InetLisp.Path

/-- The memory of a string; `none` is a NUL. -/
abbrev Buffer := List (Option Char)

inductive Error where
  /-- A write beyond the end of a buffer. -/
  | outOfBounds
  deriving DecidableEq, Repr

def write (buffer : Buffer) (offset : ℕ) (cells : Buffer) : Except Error Buffer :=
  if offset + cells.length ≤ buffer.length then
    .ok (buffer.take offset ++ cells ++ buffer.drop (offset + cells.length))
  else .error .outOfBounds

/-- `strcat` appends behind the first NUL after the offset. -/
def strcat (buffer : Buffer) (offset : ℕ) (string : Text) : Except Error Buffer :=
  write buffer (offset + ((buffer.drop offset).takeWhile Option.isSome).length)
    (string.map some ++ [none])

/-- The loop of `path_update_string` that fills the buffer -/
def fill : Buffer → ℕ → List Text → Except Error Buffer
  | buffer, _, [] => .ok buffer
  | buffer, offset, segment :: rest => do
    let buffer ← strcat buffer offset segment
    let offset := offset + segment.length
    if rest = [] then write buffer offset [none]
    else
      let buffer ← write buffer offset [some '/']
      fill buffer (offset + 1) rest

def contents (buffer : Buffer) : Text := (buffer.takeWhile Option.isSome).filterMap id

/-- `path_update_string`; the lowest segment of the stack comes first. -/
def updateString (isAbsolute : Bool) (segments : List Text) : Except Error Text := do
  if isAbsolute then
    let buffer ← write (List.replicate (size segments + 1 + 1) none) 0 [some '/']
    let buffer ← fill buffer 1 segments
    return contents buffer
  else
    let buffer ← fill (List.replicate (size segments + 1) none) 0 segments
    return contents buffer

/-- `next_segment` gives what is left of the string, and a segment. -/
def nextSegment (string : Text) : Option (Text × Text) :=
  if string = [] then none
  else match string.idxOf? '/' with
    | none => some ([], string)
    | some index => some (string.drop (index + 1), string.take index)

theorem length_lt_of_nextSegment {string rest segment : Text}
    (h : nextSegment string = some (rest, segment)) : rest.length < string.length := by
  unfold nextSegment at h
  split at h
  · cases h
  · rename_i hne
    have hpos := List.length_pos_iff.mpr hne
    split at h
    · cases h
      exact hpos
    · cases h
      rw [List.length_drop]
      omega

/-- The loop of `path_join` -/
def executeAll (segmentStack : List Text) (string : Text) : List Text :=
  match _h : nextSegment string with
  | none => segmentStack
  | some (rest, segment) => executeAll (execute segmentStack segment) rest
termination_by string.length
decreasing_by exact length_lt_of_nextSegment _h

/-- `path_t`; the string is `NULL` until it is updated. -/
structure RawPath where
  segmentStack : List Text
  string : Option Text
  isAbsolute : Bool
  deriving DecidableEq, Repr

namespace RawPath

/-- `path_join` -/
def join (self : RawPath) (string : Text) : Except Error RawPath := do
  let segmentStack := executeAll self.segmentStack string
  let updated ← updateString self.isAbsolute segmentStack.reverse
  return { self with segmentStack, string := some updated }

/-- `path_new` -/
def new (string : Text) : Except Error RawPath :=
  join ⟨[], none, stringStartsWith string ['/']⟩ string

/-- `path_resolve` -/
def resolve (self : RawPath) (string : Text) : Except Error RawPath :=
  if stringStartsWith string ['/'] then
    join { self with isAbsolute := true, segmentStack := [] } string
  else self.join string

def pathString (self : RawPath) : Except Error Text :=
  match self.string with
  | some string => .ok string
  | none => updateString self.isAbsolute self.segmentStack.reverse

/-- `path_copy` -/
def copy (self : RawPath) : Except Error RawPath := do
  let string ← self.pathString
  new string

end RawPath

variable {buffer : Buffer} {offset : ℕ} {l : List Text} {string segment : Text}

theorem write_append (pre cells : Buffer) {k : ℕ} (hk : cells.length ≤ k) :
    write (pre ++ List.replicate k none) pre.length cells =
      .ok (pre ++ cells ++ List.replicate (k - cells.length) none) := by
  have hle : pre.length + cells.length ≤ (pre ++ List.replicate k none).length := by
    simpa using hk
  rw [write, if_pos hle, List.take_left, List.drop_append, List.drop_replicate]
  simp

theorem strcat_append (pre : Buffer) (string : Text) {k : ℕ} (hk : string.length < k) :
    strcat (pre ++ List.replicate k none) pre.length string =
      .ok (pre ++ string.map some ++ List.replicate (k - string.length) none) := by
  obtain ⟨k, rfl⟩ := Nat.exists_eq_add_of_lt hk
  have hstop : ((pre ++ List.replicate (string.length + k + 1) none).drop pre.length).takeWhile
      Option.isSome = [] := by
    rw [List.drop_left, List.replicate_succ]
    rfl
  have hwrite := write_append pre (string.map some ++ [none]) (k := string.length + k + 1)
    (by simp)
  have hsub : string.length + k + 1 - (string.map some ++ [none]).length = k := by simp
  have hsucc : string.length + k + 1 - string.length = k + 1 := by omega
  rw [hsub, List.append_assoc pre, List.append_assoc _ [none], List.singleton_append,
    ← List.replicate_succ, ← List.append_assoc] at hwrite
  rw [strcat, hstop, hsucc]
  exact hwrite

theorem fill_append (pre : Buffer) {k : ℕ} (hk : size l ≤ k) :
    fill (pre ++ List.replicate k none) pre.length l =
      .ok (pre ++ (['/'].intercalate l).map some ++
        List.replicate (k - (['/'].intercalate l).length) none) := by
  induction l generalizing pre k with
  | nil => simp [fill]
  | cons segment rest ih =>
    rw [size] at hk
    have hcat := strcat_append pre segment (k := k) (by omega)
    have hlen : (pre ++ segment.map some).length = pre.length + segment.length := by simp
    simp only [fill, hcat, bind, Except.bind]
    by_cases hr : rest = []
    · subst hr
      have hwrite := write_append (pre ++ segment.map some) [none] (k := k - segment.length)
        (by rw [List.length_singleton]; omega)
      rw [hlen] at hwrite
      rw [if_pos rfl, hwrite]
      have hsucc : k - segment.length = k - segment.length - 1 + 1 := by omega
      rw [List.intercalate_singleton, List.append_assoc _ [none], List.length_singleton,
        List.singleton_append, ← List.replicate_succ, ← hsucc]
    · have hwrite := write_append (pre ++ segment.map some) [some '/'] (k := k - segment.length)
        (by rw [List.length_singleton]; omega)
      rw [hlen] at hwrite
      rw [if_neg hr, hwrite]
      have hih := ih (pre ++ segment.map some ++ [some '/']) (k := k - segment.length - 1)
        (by omega)
      rw [List.length_append, hlen, List.length_singleton] at hih
      simp only [List.length_singleton, hih]
      obtain ⟨s, m, rfl⟩ := List.exists_cons_of_ne_nil hr
      rw [List.intercalate_cons_cons]
      simp [Nat.sub_sub, Nat.add_assoc, Nat.add_comm 1]

theorem contents_append (string : Text) (k : ℕ) :
    contents (string.map some ++ List.replicate k none) = string := by
  have hall : ∀ c ∈ string.map some, Option.isSome c = true := by
    intro c hc
    obtain ⟨d, -, rfl⟩ := List.mem_map.mp hc
    rfl
  rw [contents, List.takeWhile_append_of_pos hall, List.takeWhile_replicate]
  simp

/-- The buffer is large enough, and it holds the text of the path. -/
theorem updateString_eq (isAbsolute : Bool) (l : List Text) : updateString isAbsolute l =
    .ok ((if isAbsolute then ['/'] else []) ++ ['/'].intercalate l) := by
  cases isAbsolute with
  | false =>
    have hfill := fill_append [] (k := size l + 1) (Nat.le_succ (size l))
    rw [List.nil_append, List.nil_append, List.length_nil] at hfill
    simp only [updateString, hfill, bind, Except.bind, pure, Except.pure, contents_append]
    rfl
  | true =>
    have hslash := write_append [] [some '/'] (k := size l + 1 + 1) (by simp)
    have hfill := fill_append [some '/'] (k := size l + 1) (Nat.le_succ (size l))
    rw [List.nil_append, List.nil_append, List.length_nil] at hslash
    rw [List.length_singleton] at hfill
    have hmap : [some '/'] ++ (['/'].intercalate l).map some =
        ('/' :: ['/'].intercalate l).map some := rfl
    rw [hmap] at hfill
    simp only [updateString, hslash, List.length_singleton, Nat.add_sub_cancel, hfill, bind,
      Except.bind, pure, Except.pure, contents_append]
    rfl

/-- The segments that are taken off one by one are those between slashes; an empty one at the
end is missing, which makes no difference. -/
theorem executeAll_eq (segmentStack : List Text) (string : Text) :
    executeAll segmentStack string = (segments string).foldl execute segmentStack := by
  induction segmentStack, string using executeAll.induct with
  | case1 segmentStack string h =>
    have hnil : string = [] := by
      unfold nextSegment at h
      split at h
      · assumption
      · split at h <;> cases h
    subst hnil
    rw [executeAll, h]
    rfl
  | case2 segmentStack string rest segment h ih =>
    rw [executeAll, h]
    simp only [ih]
    unfold nextSegment at h
    split at h
    · cases h
    · split at h
      · rename_i hindex
        cases h
        rw [List.idxOf?_eq_none_iff] at hindex
        rw [segments, segments, List.splitOn_eq_singleton hindex]
        rfl
      · rename_i index hindex
        cases h
        obtain ⟨hlt, hslash, hbefore⟩ := List.idxOf?_eq_some_iff.mp hindex
        have hnot : '/' ∉ string.take index := by
          intro hm
          obtain ⟨j, hj, he⟩ := List.mem_take_iff_getElem.mp hm
          exact hbefore j (by omega) he
        have hsplit : string = string.take index ++ '/' :: string.drop (index + 1) := by
          rw [← hslash, ← List.drop_eq_getElem_cons hlt, List.take_append_drop]
        conv_rhs => rw [hsplit, segments, List.splitOn_append_cons_self_of_not_mem hnot]
        rfl

/-- A path whose string is up to date -/
def ofPath (p : Path) : RawPath := ⟨p.segmentStack, some p.string, p.isAbsolute⟩

theorem join_eq (p : Path) (old : Option Text) (string : Text) :
    RawPath.join ⟨p.segmentStack, old, p.isAbsolute⟩ string = .ok (ofPath (p.join string)) := by
  simp only [RawPath.join, executeAll_eq, updateString_eq, bind, Except.bind, pure, Except.pure]
  rfl

theorem stringStartsWith_slash (string : Text) :
    stringStartsWith string ['/'] = decide (string.head? = some '/') := by
  cases string with
  | nil => rfl
  | cons c string =>
    by_cases h : '/' = c
    · subst h
      simp [stringStartsWith]
    · rw [stringStartsWith, List.isPrefixOf, beq_false_of_ne h]
      simp [Ne.symm h]

theorem new_eq (string : Text) : RawPath.new string = .ok (ofPath (Path.new string)) := by
  rw [RawPath.new, stringStartsWith_slash]
  exact join_eq ⟨string.head? = some '/', [], .nil⟩ none string

theorem resolve_eq (p : Path) (string : Text) :
    (ofPath p).resolve string = .ok (ofPath (p.resolve string)) := by
  rw [RawPath.resolve, Path.resolve, stringStartsWith_slash]
  by_cases h : string.head? = some '/'
  · rw [decide_eq_true h, if_pos rfl, if_pos h]
    exact join_eq ⟨true, [], .nil⟩ (some p.string) string
  · rw [decide_eq_false h, if_neg Bool.false_ne_true, if_neg h]
    exact join_eq p (some p.string) string

theorem copy_eq (p : Path) : (ofPath p).copy = .ok (ofPath p) := by
  have h := new_eq p.string
  rwa [new_string] at h

inductive Op where
  | join (string : Text)
  | resolve (string : Text)
  deriving DecidableEq, Repr

def Op.run (self : RawPath) : Op → Except Error RawPath
  | .join string => self.join string
  | .resolve string => self.resolve string

/-- A path is built from a string and changed by joins and resolves. -/
def build (string : Text) (ops : List Op) : Except Error RawPath := do
  let self ← RawPath.new string
  ops.foldlM Op.run self

/-- The segments are in normal form, and reading the string again gives the same path. -/
structure Survives (raw : RawPath) : Prop where
  segment : ∀ s ∈ raw.segmentStack, s ≠ [] ∧ s ≠ dot
  leads : ∃ names k, raw.segmentStack = names ++ List.replicate k up ∧ up ∉ names
  copy : ∃ copied, raw.copy = .ok copied ∧ copied.segmentStack = raw.segmentStack ∧
    copied.isAbsolute = raw.isAbsolute ∧ copied.pathString = raw.pathString

theorem survives_ofPath (p : Path) : Survives (ofPath p) := by
  refine ⟨fun s hs => ?_, ⟨(location p.string).names, climbs p.string, ?_, ?_⟩, ?_⟩
  · obtain ⟨he, hd, -⟩ := p.canonical.segment s hs
    exact ⟨he, hd⟩
  · rw [← segmentStack_new, new_string]
    rfl
  · exact up_not_mem_location p.string
  · exact ⟨ofPath p, copy_eq p, rfl, rfl, rfl⟩

theorem run_ofPath (p : Path) (op : Op) : ∃ q, op.run (ofPath p) = .ok (ofPath q) := by
  cases op with
  | join string => exact ⟨_, join_eq p (some p.string) string⟩
  | resolve string => exact ⟨_, resolve_eq p string⟩

theorem foldlM_ofPath (p : Path) (ops : List Op) :
    ∃ q, ops.foldlM Op.run (ofPath p) = .ok (ofPath q) := by
  induction ops generalizing p with
  | nil => exact ⟨p, rfl⟩
  | cons op ops ih =>
    obtain ⟨q, hq⟩ := run_ofPath p op
    obtain ⟨r, hr⟩ := ih q
    refine ⟨r, ?_⟩
    rw [List.foldlM_cons, hq]
    exact hr

/-- No step writes beyond the buffer, and the path survives its string. -/
theorem build_survives (string : Text) (ops : List Op) :
    ∃ self, build string ops = .ok self ∧ Survives self := by
  obtain ⟨q, hq⟩ := foldlM_ofPath (Path.new string) ops
  refine ⟨ofPath q, ?_, survives_ofPath q⟩
  rw [build, new_eq]
  exact hq

end InetLisp.PathString
