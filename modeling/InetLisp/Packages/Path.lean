import Mathlib.Data.List.Chain

/-! # Paths

A path is kept as a stack of segments, innermost first. No segment is empty, none is
a dot, and a segment that leads up stands only on such segments: the text of a path
determines the path.
-/

namespace InetLisp

abbrev Text := List Char

namespace Path

def dot : Text := ['.']

def up : Text := ['.', '.']

/-- What the stack of segments of a path looks like. -/
structure Canonical (segmentStack : List Text) : Prop where
  segment : ∀ s ∈ segmentStack, s ≠ [] ∧ s ≠ dot ∧ '/' ∉ s
  chain : segmentStack.IsChain fun top below => top = up → below = up

theorem Canonical.nil : Canonical [] := ⟨nofun, .nil⟩

def execute (segmentStack : List Text) (segment : Text) : List Text :=
  if segment = [] then segmentStack
  else if segment = dot then segmentStack
  else if segment = up then
    match segmentStack with
    | [] => [segment]
    | top :: rest => if top = up then segment :: top :: rest else rest
  else segment :: segmentStack

theorem execute_cases (l : List Text) (s : Text) :
    execute l s = l ∧ (s = [] ∨ s = dot) ∨
    (execute l s = l.tail ∧ s = up ∧ ∃ top ∈ l.head?, top ≠ up) ∨
    execute l s = s :: l ∧ s ≠ [] ∧ s ≠ dot ∧ (s = up → ∀ top ∈ l.head?, top = up) := by
  by_cases he : s = []
  · exact .inl ⟨if_pos he, .inl he⟩
  · by_cases hd : s = dot
    · exact .inl ⟨by rw [execute.eq_def, if_neg he, if_pos hd], .inr hd⟩
    · rw [execute.eq_def, if_neg he, if_neg hd]
      by_cases hu : s = up
      · rw [if_pos hu]
        cases l with
        | nil => exact .inr (.inr ⟨rfl, he, hd, fun _ => nofun⟩)
        | cons top rest =>
          by_cases ht : top = up
          · refine .inr (.inr ⟨if_pos ht, he, hd, ?_⟩)
            rintro _ _ ⟨⟩
            exact ht
          · exact .inr (.inl ⟨if_neg ht, hu, top, rfl, ht⟩)
      · rw [if_neg hu]
        exact .inr (.inr ⟨rfl, he, hd, fun h => (hu h).elim⟩)

theorem Canonical.tail {l : List Text} (h : Canonical l) : Canonical l.tail :=
  ⟨fun s hs => h.segment s (List.mem_of_mem_tail hs), h.chain.tail⟩

theorem canonical_cons_iff {s : Text} {l : List Text} : Canonical (s :: l) ↔
    (s ≠ [] ∧ s ≠ dot ∧ '/' ∉ s) ∧ (s = up → ∀ top ∈ l.head?, top = up) ∧ Canonical l := by
  constructor
  · intro h
    refine ⟨h.segment s List.mem_cons_self, fun hs top ht => ?_, h.tail⟩
    exact (List.isChain_cons.mp h.chain).1 top ht hs
  · rintro ⟨hs, hu, h⟩
    refine ⟨?_, List.isChain_cons.mpr ⟨fun top ht he => hu he top ht, h.chain⟩⟩
    rintro t (_ | ⟨_, ht⟩)
    · exact hs
    · exact h.segment t ht

theorem Canonical.execute {l : List Text} (h : Canonical l) {s : Text} (hs : '/' ∉ s) :
    Canonical (execute l s) := by
  rcases execute_cases l s with ⟨he, -⟩ | ⟨he, -⟩ | ⟨he, hne, hd, hu⟩
  · rwa [he]
  · rw [he]
    exact h.tail
  · rw [he]
    exact canonical_cons_iff.mpr ⟨⟨hne, hd, hs⟩, hu, h⟩

/-- The segments that `next_segment` takes off a text. -/
def segments (string : Text) : List Text := string.splitOn '/'

theorem slash_not_mem {string s : Text} (h : s ∈ segments string) : '/' ∉ s := by
  induction string generalizing s with
  | nil =>
    cases List.mem_singleton.mp h
    exact List.not_mem_nil
  | cons c string ih =>
    rw [segments, List.splitOn_cons_eq_if_modifyHead] at h
    split at h
    · rcases List.mem_cons.mp h with rfl | h
      · exact List.not_mem_nil
      · exact ih h
    · rename_i hc
      obtain ⟨t, l, hl⟩ := List.exists_cons_of_ne_nil (List.splitOn_ne_nil '/' string)
      unfold segments at ih
      rw [hl] at h ih
      rw [List.modifyHead_cons] at h
      rcases List.mem_cons.mp h with rfl | h
      · rintro (_ | ⟨_, hm⟩)
        · exact hc rfl
        · exact ih List.mem_cons_self hm
      · exact ih (List.mem_cons_of_mem t h)

theorem Canonical.foldl {l : List Text} (h : Canonical l) {m : List Text}
    (hm : ∀ s ∈ m, '/' ∉ s) : Canonical (m.foldl Path.execute l) := by
  induction m generalizing l with
  | nil => exact h
  | cons s m ih =>
    exact ih (h.execute (hm s List.mem_cons_self)) fun t ht => hm t (List.mem_cons_of_mem s ht)

end Path

structure Path where
  isAbsolute : Bool
  segmentStack : List Text
  canonical : Path.Canonical segmentStack
deriving DecidableEq

namespace Path

def join (self : Path) (string : Text) : Path where
  isAbsolute := self.isAbsolute
  segmentStack := (segments string).foldl execute self.segmentStack
  canonical := self.canonical.foldl fun _ => slash_not_mem

def new (string : Text) : Path :=
  join ⟨string.head? = some '/', [], .nil⟩ string

def string (self : Path) : Text :=
  (if self.isAbsolute then ['/'] else []) ++ ['/'].intercalate self.segmentStack.reverse

def copy (self : Path) : Path := new self.string

def resolve (self : Path) (string : Text) : Path :=
  if string.head? = some '/' then join ⟨true, [], .nil⟩ string else self.join string

def pathEqual (x y : Path) : Bool := x.string = y.string

/-- The segments of a path build the path. -/
theorem Canonical.foldl_reverse {l : List Text} (h : Canonical l) :
    l.reverse.foldl Path.execute [] = l := by
  induction l with
  | nil => rfl
  | cons s l ih =>
    obtain ⟨⟨hne, hd, -⟩, hu, hl⟩ := canonical_cons_iff.mp h
    rw [List.reverse_cons, List.foldl_append, ih hl, List.foldl_cons, List.foldl_nil]
    rcases execute_cases l s with ⟨-, rfl | rfl⟩ | ⟨-, hs, top, ht, htop⟩ | ⟨he, -⟩
    · exact (hne rfl).elim
    · exact (hd rfl).elim
    · exact (htop (hu hs top ht)).elim
    · exact he

theorem foldl_segments_intercalate {l : List Text} (hl : ∀ s ∈ l, '/' ∉ s) (m : List Text) :
    (segments (['/'].intercalate l)).foldl execute m = l.foldl execute m := by
  by_cases hn : l = []
  · subst hn
    rfl
  · rw [segments, List.splitOn_intercalate '/' hl hn]

/-- The text of a path determines the path. -/
theorem new_string (p : Path) : new p.string = p := by
  obtain ⟨absolute, l, h⟩ := p
  have hslash : ∀ s ∈ l.reverse, '/' ∉ s := fun s hs =>
    (h.segment s (List.mem_reverse.mp hs)).2.2
  have hbuild := foldl_segments_intercalate hslash []
  rw [h.foldl_reverse] at hbuild
  cases absolute with
  | true =>
    have : segments (['/'] ++ ['/'].intercalate l.reverse) =
        [] :: segments (['/'].intercalate l.reverse) := rfl
    simp only [new, join, string, if_pos, this, List.foldl_cons]
    congr 1
  | false =>
    simp only [new, join, string, Bool.false_eq_true, if_false, List.nil_append]
    congr 1
    have hhead : ∀ s ∈ l.reverse, s ≠ [] := fun s hs => (h.segment s (List.mem_reverse.mp hs)).1
    cases hr : l.reverse with
    | nil => rfl
    | cons s m =>
      rw [hr] at hslash hhead
      obtain ⟨c, t, rfl⟩ := List.exists_cons_of_ne_nil (hhead s List.mem_cons_self)
      have hc : c ≠ '/' := by
        rintro rfl
        exact hslash _ List.mem_cons_self List.mem_cons_self
      cases m with
      | nil => simpa using hc
      | cons u m => simpa using hc

theorem copy_eq (p : Path) : p.copy = p := p.new_string

theorem string_injective : Function.Injective string := by
  intro p q h
  rw [← p.new_string, ← q.new_string, h]

/-- The length of segments with a slash after each. -/
def size : List Text → ℕ
  | [] => 0
  | s :: l => s.length + 1 + size l

theorem size_append (l m : List Text) : size (l ++ m) = size l + size m := by
  induction l with
  | nil => rw [List.nil_append, size, Nat.zero_add]
  | cons s l ih =>
    rw [List.cons_append, size, size, ih]
    omega

theorem size_reverse (l : List Text) : size l.reverse = size l := by
  induction l with
  | nil => rfl
  | cons s l ih =>
    rw [List.reverse_cons, size_append, ih, size, size, size]
    omega

theorem length_intercalate {l : List Text} (h : l ≠ []) :
    (['/'].intercalate l).length + 1 = size l := by
  induction l with
  | nil => exact (h rfl).elim
  | cons s l ih =>
    cases l with
    | nil => simp [size]
    | cons t l =>
      have ih := ih (List.cons_ne_nil t l)
      rw [List.intercalate_cons_cons, size, ← ih]
      simp only [List.length_append, List.length_singleton]
      omega

theorem size_execute_le (l : List Text) (s : Text) :
    size (execute l s) ≤ size l + (s.length + 1) := by
  rcases execute_cases l s with ⟨he, -⟩ | ⟨he, -⟩ | ⟨he, -⟩
  · rw [he]
    omega
  · rw [he]
    cases l with
    | nil => exact Nat.zero_le _
    | cons t l =>
      rw [List.tail_cons, size]
      omega
  · rw [he, size]
    omega

theorem size_foldl_le (l m : List Text) : size (m.foldl execute l) ≤ size l + size m := by
  induction m generalizing l with
  | nil => exact Nat.le_add_right _ _
  | cons s m ih =>
    have hs := size_execute_le l s
    have hm := ih (execute l s)
    rw [List.foldl_cons, size]
    omega

theorem size_segments (string : Text) : size (segments string) = string.length + 1 := by
  rw [segments, ← length_intercalate (List.splitOn_ne_nil '/' string), List.intercalate_splitOn]

theorem length_string (p : Path) :
    p.string.length ≤ (if p.isAbsolute then 1 else 0) + (size p.segmentStack - 1) := by
  unfold string
  rw [List.length_append]
  have hl : (['/'].intercalate p.segmentStack.reverse).length ≤ size p.segmentStack - 1 := by
    by_cases hn : p.segmentStack.reverse = []
    · rw [hn]
      exact Nat.zero_le _
    · have hlen := length_intercalate hn
      rw [size_reverse] at hlen
      omega
  split
  · rw [List.length_singleton]
    omega
  · rw [List.length_nil]
    omega

theorem length_string_new_le (string : Text) : (new string).string.length ≤ string.length := by
  have hl := length_string (new string)
  cases string with
  | nil => simpa [new, join, segments, execute, size] using hl
  | cons c t =>
    have hs : size ((segments (c :: t)).foldl execute []) ≤ (c :: t).length + 1 := by
      have hle := size_foldl_le [] (segments (c :: t))
      rwa [size_segments, size, Nat.zero_add] at hle
    by_cases hc : c = '/'
    · subst hc
      have hsegs : segments ('/' :: t) = [] :: segments t := by
        rw [segments, List.splitOn_cons_eq_if_modifyHead, if_pos (beq_self_eq_true _)]
        rfl
      have ht : size ((segments t).foldl execute []) ≤ t.length + 1 := by
        have hle := size_foldl_le [] (segments t)
        rwa [size_segments, size, Nat.zero_add] at hle
      have habs : (new ('/' :: t)).isAbsolute = true := by simp [new, join]
      have hstack : (new ('/' :: t)).segmentStack = (segments t).foldl execute [] := by
        simp [new, join, hsegs, execute]
      rw [habs, hstack, if_pos rfl] at hl
      rw [List.length_cons]
      omega
    · have habs : (new (c :: t)).isAbsolute = false := by simp [new, join, hc]
      have hstack : (new (c :: t)).segmentStack = (segments (c :: t)).foldl execute [] := rfl
      rw [habs, hstack] at hl
      simp only [Bool.false_eq_true, if_false] at hl
      omega

theorem mem_execute {l : List Text} {s t : Text} (h : t ∈ execute l s) : t ∈ l ∨ t = s := by
  rcases execute_cases l s with ⟨he, -⟩ | ⟨he, -⟩ | ⟨he, -⟩
  · exact .inl (he ▸ h)
  · exact .inl (List.mem_of_mem_tail (he ▸ h))
  · rw [he] at h
    exact (List.mem_cons.mp h).symm

theorem mem_foldl {l m : List Text} {t : Text} (h : t ∈ m.foldl execute l) : t ∈ l ∨ t ∈ m := by
  induction m generalizing l with
  | nil => exact .inl h
  | cons s m ih =>
    rcases ih h with h | h
    · rcases mem_execute h with h | rfl
      · exact .inl h
      · exact .inr List.mem_cons_self
    · exact .inr (List.mem_cons_of_mem s h)

theorem mem_of_mem_segments {string s : Text} {c : Char} (hs : s ∈ segments string) (hc : c ∈ s) :
    c ∈ string := by
  have hi : List.intercalate ['/'] (string.splitOn '/') = string := List.intercalate_splitOn '/'
  rw [← hi]
  rw [segments] at hs
  generalize string.splitOn '/' = l at hs
  induction l with
  | nil => cases hs
  | cons t l ih =>
    cases l with
    | nil =>
      obtain rfl := List.mem_singleton.mp hs
      simpa using hc
    | cons u l =>
      rw [List.intercalate_cons_cons]
      rcases List.mem_cons.mp hs with rfl | hs
      · exact List.mem_append_left _ (List.mem_append_left _ hc)
      · exact List.mem_append_right _ (ih hs)

theorem mem_intercalate {l : List Text} {c : Char} (h : c ∈ ['/'].intercalate l) :
    c = '/' ∨ ∃ s ∈ l, c ∈ s := by
  induction l with
  | nil => cases h
  | cons t l ih =>
    cases l with
    | nil => exact .inr ⟨t, List.mem_cons_self, by simpa using h⟩
    | cons u l =>
      rw [List.intercalate_cons_cons, List.mem_append, List.mem_append] at h
      rcases h with (h | h) | h
      · exact .inr ⟨t, List.mem_cons_self, h⟩
      · exact .inl (List.mem_singleton.mp h)
      · rcases ih h with h | ⟨s, hs, hc⟩
        · exact .inl h
        · exact .inr ⟨s, List.mem_cons_of_mem t hs, hc⟩

theorem mem_string_new {string : Text} {c : Char} (h : c ∈ (new string).string) :
    c = '/' ∨ c ∈ string := by
  rcases List.mem_append.mp h with h | h
  · split at h
    · exact .inl (List.mem_singleton.mp h)
    · cases h
  · rcases mem_intercalate h with h | ⟨s, hs, hc⟩
    · exact .inl h
    · rcases mem_foldl (List.mem_reverse.mp hs) with hs | hs
      · cases hs
      · exact .inr (mem_of_mem_segments hs hc)

end Path

end InetLisp
