import InetLisp.Packages.Location

/-! # Relative paths

From one path to another: up from what they do not have in common, and down again. Where the
first path itself leads up further than the other, there is no way back.
-/

namespace InetLisp.Path

variable {l m : List Text} {origin target relativePath : Path}

/-- `find_relative_index`; the lowest segment comes first. -/
def findRelativeIndex : List Text → List Text → ℕ
  | [], _ => 0
  | _ :: _, [] => 0
  | originSegment :: origin, targetSegment :: target =>
    if originSegment = targetSegment then findRelativeIndex origin target + 1 else 0

/-- The segments of `path_relative` -/
def relativeSegments (origin target : List Text) : List Text :=
  List.replicate (origin.length - findRelativeIndex origin target) up ++
    target.drop (findRelativeIndex origin target)

theorem Canonical.append_up (h : Canonical l) (k : ℕ) :
    Canonical (l ++ List.replicate k up) := by
  have hup : up ≠ [] ∧ up ≠ dot ∧ '/' ∉ up := by decide
  refine ⟨fun s hs => ?_, List.isChain_append.mpr ⟨h.chain, ?_, fun s _ t ht _ => ?_⟩⟩
  · rcases List.mem_append.mp hs with hs | hs
    · exact h.segment s hs
    · rw [List.eq_of_mem_replicate hs]
      exact hup
  · exact List.isChain_replicate_of_rel k fun _ => rfl
  · exact List.eq_of_mem_replicate (List.mem_of_mem_head? ht)

theorem Canonical.drop (h : Canonical l) (k : ℕ) : Canonical (l.drop k) :=
  ⟨fun s hs => h.segment s (List.mem_of_mem_drop hs), h.chain.drop k⟩

theorem Canonical.take (h : Canonical l) (k : ℕ) : Canonical (l.take k) :=
  ⟨fun s hs => h.segment s (List.mem_of_mem_take hs), h.chain.take k⟩

theorem Canonical.relativeSegments (h : Canonical l) (origin : List Text) :
    Canonical (relativeSegments origin l.reverse).reverse := by
  rw [Path.relativeSegments, List.reverse_append, List.reverse_replicate, List.drop_reverse,
    List.reverse_reverse]
  exact (h.take _).append_up _

def relative (origin target : Path) : Option Path :=
  if origin.isAbsolute = target.isAbsolute then
    some ⟨false, (relativeSegments origin.segmentStack.reverse target.segmentStack.reverse).reverse,
      target.canonical.relativeSegments _⟩
  else none

theorem take_findRelativeIndex (l m : List Text) :
    l.take (findRelativeIndex l m) = m.take (findRelativeIndex l m) := by
  fun_induction findRelativeIndex l m with
  | case1 | case2 | case4 => rfl
  | case3 s l m ih => rw [List.take_succ_cons, List.take_succ_cons, ih]

theorem findRelativeIndex_append (l m k : List Text) :
    findRelativeIndex (k ++ l) (k ++ m) = k.length + findRelativeIndex l m := by
  induction k with
  | nil => rw [List.nil_append, List.nil_append, List.length_nil, Nat.zero_add]
  | cons s k ih =>
    rw [List.cons_append, List.cons_append, findRelativeIndex, if_pos rfl, ih, List.length_cons]
    omega

theorem foldl_enter_up (k : ℕ) :
    (List.replicate k up).foldl Location.enter (.start false) = ⟨false, k, []⟩ := by
  induction k with
  | zero => rfl
  | succ k ih =>
    rw [List.replicate_succ', foldl_concat, ih, Location.enter_up]
    rfl

theorem foldl_execute_up (hm : up ∉ m) (k n : ℕ) :
    (List.replicate n up).foldl execute (m ++ List.replicate k up) =
      m.drop n ++ List.replicate (k + (n - m.length)) up := by
  rw [foldl_execute hm, foldl_enter_up]
  rfl

theorem Canonical.foldl_drop (h : Canonical l) (k : ℕ) :
    (l.reverse.drop k).foldl Path.execute (l.reverse.take k).reverse = l := by
  have htake : (l.reverse.take k).foldl Path.execute [] = (l.reverse.take k).reverse := by
    rw [List.take_reverse, List.reverse_reverse]
    exact (h.drop _).foldl_reverse
  rw [← htake, ← List.foldl_append, List.take_append_drop, h.foldl_reverse]

theorem segmentStack_join_relative (h : relative origin target = some relativePath) :
    (origin.copy.join relativePath.string).segmentStack =
      (relativeSegments origin.segmentStack.reverse target.segmentStack.reverse).foldl execute
        origin.segmentStack := by
  unfold relative at h
  split at h
  · cases h
    have hslash : ∀ s ∈ relativeSegments origin.segmentStack.reverse target.segmentStack.reverse,
        '/' ∉ s := fun s hs =>
      ((target.canonical.relativeSegments _).segment s (List.mem_reverse.mpr hs)).2.2
    rw [copy_eq, string, if_neg Bool.false_ne_true, List.nil_append, List.reverse_reverse]
    exact foldl_segments_intercalate hslash _
  · cases h

theorem count_up (p : Path) : p.segmentStack.count up = climbs p.string := by
  rw [segmentStack_eq, List.count_append, List.count_replicate_self,
    List.count_eq_zero_of_not_mem (up_not_mem_location _), Nat.zero_add]

/-- The steps up that both begin with are in front of the index. -/
theorem le_findRelativeIndex {j k : ℕ} (h : j ≤ k) (l m : List Text) :
    j ≤ findRelativeIndex (List.replicate j up ++ l) (List.replicate k up ++ m) := by
  obtain ⟨n, rfl⟩ := Nat.exists_eq_add_of_le h
  rw [← List.replicate_append_replicate, List.append_assoc, findRelativeIndex_append,
    List.length_replicate]
  exact Nat.le_add_right j _

theorem findRelativeIndex_eq {j k : ℕ} (h : k < j) (l : List Text) (hm : up ∉ m) :
    findRelativeIndex (List.replicate j up ++ l) (List.replicate k up ++ m) = k := by
  obtain ⟨n, rfl⟩ := Nat.exists_eq_add_of_lt h
  rw [Nat.add_assoc, ← List.replicate_append_replicate, List.append_assoc,
    findRelativeIndex_append, List.length_replicate, List.replicate_succ, List.cons_append]
  cases m with
  | nil => rfl
  | cons s m =>
    have hs : up ≠ s := fun he => hm (he ▸ List.mem_cons_self)
    rw [findRelativeIndex, if_neg hs, Nat.add_zero]

section Join

variable {n n' : List Text} {j k : ℕ}

/-- The steps up take off what is not in common, and the other segments are put on. -/
theorem foldl_relativeSegments (hn : up ∉ n) (h : Canonical (n' ++ List.replicate k up))
    (hjk : j ≤ k) :
    (relativeSegments (n ++ List.replicate j up).reverse
      (n' ++ List.replicate k up).reverse).foldl execute (n ++ List.replicate j up) =
        n' ++ List.replicate k up := by
  have hj : j ≤ findRelativeIndex (n ++ List.replicate j up).reverse
      (n' ++ List.replicate k up).reverse := by
    rw [List.reverse_append, List.reverse_append, List.reverse_replicate, List.reverse_replicate]
    exact le_findRelativeIndex hjk _ _
  have htake := take_findRelativeIndex (n ++ List.replicate j up).reverse
    (n' ++ List.replicate k up).reverse
  rw [relativeSegments, List.foldl_append, List.length_reverse, foldl_execute_up hn]
  generalize findRelativeIndex _ _ = i at hj htake ⊢
  rw [List.length_append, List.length_replicate]
  have hle : n.length + j - i ≤ n.length := by omega
  have hzero : j + (n.length + j - i - n.length) = j := by omega
  have hleft : n.drop (n.length + j - i) ++ List.replicate j up =
      ((n ++ List.replicate j up).reverse.take i).reverse := by
    rw [List.take_reverse, List.reverse_reverse, List.length_append, List.length_replicate,
      List.drop_append_of_le_length hle]
  rw [hzero, hleft, htake]
  exact h.foldl_drop i

/-- Too many steps up are kept. -/
theorem lt_count_foldl_relativeSegments (hn : up ∉ n) (hn' : up ∉ n') (hkj : k < j) :
    k < ((relativeSegments (n ++ List.replicate j up).reverse
      (n' ++ List.replicate k up).reverse).foldl execute (n ++ List.replicate j up)).count up := by
  have hi : findRelativeIndex (n ++ List.replicate j up).reverse
      (n' ++ List.replicate k up).reverse = k := by
    rw [List.reverse_append, List.reverse_append, List.reverse_replicate, List.reverse_replicate]
    exact findRelativeIndex_eq hkj _ fun hm => hn' (List.mem_reverse.mp hm)
  have hnil : n.drop (n.length + j - k) = [] := List.drop_eq_nil_of_le (by omega)
  rw [relativeSegments, List.foldl_append, hi, List.length_reverse, foldl_execute_up hn,
    List.length_append, List.length_replicate, hnil, foldl_execute List.not_mem_nil,
    List.count_append, List.count_replicate_self]
  omega

end Join

/-- The relative path leads back, exactly where the first path does not lead up further than the
other one. -/
theorem relative_leads_back_iff (h : relative origin target = some relativePath) :
    pathEqual (origin.copy.join relativePath.string) target = true ↔
      origin.segmentStack.count up ≤ target.segmentStack.count up := by
  have habs : (origin.copy.join relativePath.string).isAbsolute = target.isAbsolute := by
    unfold relative at h
    split at h
    · rename_i hi
      rwa [copy_eq]
    · cases h
  have hequal : origin.copy.join relativePath.string = target ↔
      (origin.copy.join relativePath.string).segmentStack = target.segmentStack :=
    ⟨congrArg _, eq_of_fields habs⟩
  rw [pathEqual_iff, hequal, segmentStack_join_relative h, count_up, count_up]
  have hup := up_not_mem_location origin.string
  have hup' := up_not_mem_location target.string
  have hcanonical := target.canonical
  rw [segmentStack_eq origin, segmentStack_eq target]
  rw [segmentStack_eq target] at hcanonical
  constructor
  · intro he
    by_contra hlt
    have hcount := lt_count_foldl_relativeSegments hup hup' (Nat.lt_of_not_le hlt)
    rw [he, List.count_append, List.count_replicate_self, List.count_eq_zero_of_not_mem hup',
      Nat.zero_add] at hcount
    exact absurd hcount (Nat.lt_irrefl _)
  · exact foldl_relativeSegments hup hcanonical

theorem relative_leads_back_parent : ∃ relativePath,
    relative (new ['a']) (new ['.', '.', '/', 'b']) = some relativePath ∧
      pathEqual ((new ['a']).copy.join relativePath.string) (new ['.', '.', '/', 'b']) = true :=
  ⟨_, rfl, (@relative_leads_back_iff (new ['a']) _ _ rfl).mpr (by decide)⟩

/-- From a directory beside this one to one inside of it -/
theorem not_relative_leads_back : ∃ relativePath,
    relative (new ['.', '.', '/', 'a']) (new ['b']) = some relativePath ∧
      ¬ pathEqual ((new ['.', '.', '/', 'a']).copy.join relativePath.string) (new ['b']) = true :=
  ⟨_, rfl, by decide⟩

end InetLisp.Path
