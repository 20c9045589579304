import InetLisp.Packages.Path
import Mathlib.Data.List.Induction

/-! # Where paths lead

A string leads from the root, or from any directory, so many directories up and then
along names. The stack of a path keeps the names, and below them the steps up, also those
that lead up from the root.
-/

namespace InetLisp.Path

/-- The names stand innermost first. -/
@[ext]
structure Location where
  isAbsolute : Bool
  ups : ℕ
  names : List Text
deriving DecidableEq

namespace Location

def start (isAbsolute : Bool) : Location := ⟨isAbsolute, 0, []⟩

/-- How a segment is usually read -/
def enter (self : Location) (segment : Text) : Location :=
  if segment = [] then self
  else if segment = dot then self
  else if segment = up then
    match self.names with
    | _ :: names => { self with names }
    | [] => if self.isAbsolute then self else { self with ups := self.ups + 1 }
  else { self with names := segment :: self.names }

end Location

open Location

/-- Where a string leads -/
def location (string : Text) : Location :=
  (segments string).foldl enter (start (string.head? = some '/'))

/-- The steps up that nothing in front of them takes back -/
def climbs (string : Text) : ℕ := ((segments string).foldl enter (start false)).ups

/-- The directory that a segment leads to; the names of a directory stand innermost first. -/
def go (directory : List Text) (segment : Text) : List Text :=
  if segment = [] then directory
  else if segment = dot then directory
  else if segment = up then directory.tail
  else segment :: directory

def walk (directory : List Text) (string : Text) : List Text :=
  (segments string).foldl go (if string.head? = some '/' then [] else directory)

variable {l m : List Text} {s t : Text} {p q : Path}

theorem foldl_concat {α : Type*} (f : α → Text → α) (a : α) (l : List Text) (s : Text) :
    (l ++ [s]).foldl f a = f (l.foldl f a) s := by
  rw [List.foldl_append, List.foldl_cons, List.foldl_nil]

theorem segment_cases (s : Text) :
    (s = [] ∨ s = dot) ∨ s = up ∨ s ≠ [] ∧ s ≠ dot ∧ s ≠ up := by
  by_cases he : s = []
  · exact .inl (.inl he)
  · by_cases hd : s = dot
    · exact .inl (.inr hd)
    · by_cases hu : s = up
      · exact .inr (.inl hu)
      · exact .inr (.inr ⟨he, hd, hu⟩)

section Segments

variable {a : Location}

theorem execute_skip (h : s = [] ∨ s = dot) : execute l s = l := by
  rcases h with rfl | rfl <;> rfl

theorem execute_up_cons {top : Text} (h : top ≠ up) : execute (top :: l) up = l := if_neg h

theorem execute_up_replicate (k : ℕ) :
    execute (List.replicate k up) up = List.replicate (k + 1) up := by
  cases k <;> rfl

theorem execute_name (h : s ≠ [] ∧ s ≠ dot ∧ s ≠ up) : execute l s = s :: l := by
  rw [execute.eq_def, if_neg h.1, if_neg h.2.1, if_neg h.2.2]

theorem Location.enter_skip (h : s = [] ∨ s = dot) : a.enter s = a := by
  rcases h with rfl | rfl <;> rfl

theorem Location.enter_up (a : Location) : a.enter up =
    { a with ups := if a.names = [] ∧ a.isAbsolute = false then a.ups + 1 else a.ups,
             names := a.names.tail } := by
  obtain ⟨_ | _, ups, _ | ⟨top, names⟩⟩ := a <;> rfl

theorem Location.enter_name (h : s ≠ [] ∧ s ≠ dot ∧ s ≠ up) :
    a.enter s = { a with names := s :: a.names } := by
  rw [enter, if_neg h.1, if_neg h.2.1, if_neg h.2.2]

theorem go_skip (h : s = [] ∨ s = dot) : go l s = l := by
  rcases h with rfl | rfl <;> rfl

theorem go_name (h : s ≠ [] ∧ s ≠ dot ∧ s ≠ up) : go l s = s :: l := by
  rw [go, if_neg h.1, if_neg h.2.1, if_neg h.2.2]

end Segments

theorem foldl_enter_isAbsolute (a : Location) (l : List Text) :
    (l.foldl enter a).isAbsolute = a.isAbsolute := by
  induction l generalizing a with
  | nil => rfl
  | cons s l ih =>
    rw [List.foldl_cons, ih]
    rcases segment_cases s with h | rfl | h
    · rw [enter_skip h]
    · rw [enter_up]
    · rw [enter_name h]

/-- At the root the steps up are not kept, and the names are the same. -/
theorem foldl_enter (l : List Text) :
    l.foldl enter (start true) = ⟨true, 0, (l.foldl enter (start false)).names⟩ := by
  induction l using List.reverseRecOn with
  | nil => rfl
  | append_singleton l s ih =>
    rw [foldl_concat, foldl_concat, ih]
    rcases segment_cases s with h | rfl | h
    · rw [enter_skip h, enter_skip h]
    · simp [enter_up]
    · rw [enter_name h, enter_name h]

theorem up_not_mem_names (l : List Text) : up ∉ (l.foldl enter (start false)).names := by
  induction l using List.reverseRecOn with
  | nil => exact List.not_mem_nil
  | append_singleton l s ih =>
    rw [foldl_concat]
    rcases segment_cases s with h | rfl | h
    · rwa [enter_skip h]
    · rw [enter_up]
      exact fun hm => ih (List.mem_of_mem_tail hm)
    · rw [enter_name h]
      rintro (_ | ⟨_, hm⟩)
      · exact h.2.2 rfl
      · exact ih hm

theorem foldl_execute (hm : up ∉ m) (k : ℕ) (l : List Text) :
    l.foldl execute (m ++ List.replicate k up) =
      (l.foldl enter (start false)).names ++ m.drop (l.foldl enter (start false)).ups ++
        List.replicate (k + ((l.foldl enter (start false)).ups - m.length)) up := by
  induction l using List.reverseRecOn with
  | nil => simp [start]
  | append_singleton l s ih =>
    have habs := foldl_enter_isAbsolute (start false) l
    have hnot := up_not_mem_names l
    rw [foldl_concat, foldl_concat, ih]
    clear ih
    generalize l.foldl enter (start false) = a at habs hnot ⊢
    obtain ⟨isAbsolute, ups, names⟩ := a
    obtain rfl : isAbsolute = false := habs
    rcases segment_cases s with h | rfl | h
    · rw [execute_skip h, enter_skip h]
    · rw [enter_up]
      cases names with
      | cons top names =>
        have htop : top ≠ up := fun he => hnot (he ▸ List.mem_cons_self)
        exact execute_up_cons htop
      | nil =>
        simp only [List.nil_append, List.tail_nil, and_self, if_true]
        rcases Nat.lt_or_ge ups m.length with hlt | hge
        · have hup : m[ups] ≠ up := fun he => hm (he ▸ List.getElem_mem hlt)
          have hups : ups + 1 - m.length = ups - m.length := by omega
          rw [List.drop_eq_getElem_cons hlt, List.cons_append, execute_up_cons hup, hups]
        · have hups : k + (ups + 1 - m.length) = k + (ups - m.length) + 1 := by omega
          rw [List.drop_eq_nil_of_le hge, List.drop_eq_nil_of_le (Nat.le_succ_of_le hge), hups]
          exact execute_up_replicate _
    · rw [execute_name h, enter_name h]
      rfl

theorem foldl_go (directory : List Text) (l : List Text) :
    l.foldl go directory = (l.foldl enter (start false)).names ++
      directory.drop (l.foldl enter (start false)).ups := by
  induction l using List.reverseRecOn with
  | nil => rfl
  | append_singleton l s ih =>
    have habs := foldl_enter_isAbsolute (start false) l
    rw [foldl_concat, foldl_concat, ih]
    clear ih
    generalize l.foldl enter (start false) = a at habs ⊢
    obtain ⟨isAbsolute, ups, names⟩ := a
    obtain rfl : isAbsolute = false := habs
    rcases segment_cases s with h | rfl | h
    · rw [go_skip h, enter_skip h]
    · rw [enter_up]
      cases names with
      | cons top names => rfl
      | nil => simp [go, up, dot]
    · rw [go_name h, enter_name h]
      rfl

theorem append_replicate_inj {j k : ℕ} (hl : up ∉ l) (hm : up ∉ m)
    (h : l ++ List.replicate j up = m ++ List.replicate k up) : l = m ∧ j = k := by
  have hcount := congrArg (List.count up) h
  rw [List.count_append, List.count_append, List.count_eq_zero_of_not_mem hl,
    List.count_eq_zero_of_not_mem hm, List.count_replicate_self, List.count_replicate_self,
    Nat.zero_add, Nat.zero_add] at hcount
  subst hcount
  exact ⟨List.append_cancel_right h, rfl⟩

theorem location_isAbsolute (s : Text) : (location s).isAbsolute = decide (s.head? = some '/') :=
  foldl_enter_isAbsolute _ _

theorem location_names (s : Text) :
    (location s).names = ((segments s).foldl enter (start false)).names := by
  unfold location
  cases decide (s.head? = some '/') with
  | true => rw [foldl_enter]
  | false => rfl

theorem location_ups (s : Text) :
    (location s).ups = if s.head? = some '/' then 0 else climbs s := by
  unfold location climbs
  split
  · rename_i h
    rw [decide_eq_true h, foldl_enter]
  · rename_i h
    rw [decide_eq_false h]

theorem up_not_mem_location (s : Text) : up ∉ (location s).names := by
  rw [location_names]
  exact up_not_mem_names _

theorem segmentStack_new (s : Text) :
    (new s).segmentStack = (location s).names ++ List.replicate (climbs s) up := by
  have h := foldl_execute (m := []) List.not_mem_nil 0 (segments s)
  rw [List.nil_append, List.replicate_zero, List.drop_nil, List.append_nil, List.length_nil,
    Nat.sub_zero, Nat.zero_add, ← location_names] at h
  exact h

theorem new_isAbsolute (s : Text) : (new s).isAbsolute = decide (s.head? = some '/') := rfl

theorem eq_of_fields (hi : p.isAbsolute = q.isAbsolute) (hs : p.segmentStack = q.segmentStack) :
    p = q := by
  obtain ⟨isAbsolute, segmentStack, h⟩ := p
  obtain ⟨isAbsolute', segmentStack', h'⟩ := q
  obtain rfl : isAbsolute = isAbsolute' := hi
  obtain rfl : segmentStack = segmentStack' := hs
  rfl

theorem pathEqual_iff : pathEqual p q = true ↔ p = q := by
  rw [pathEqual, decide_eq_true_iff, string_injective.eq_iff]

/-- Paths are equal where the strings lead to the same location, with as many steps up that
are not taken back. -/
theorem new_eq_iff : new s = new t ↔ location s = location t ∧ climbs s = climbs t := by
  constructor
  · intro h
    have habs : decide (s.head? = some '/') = decide (t.head? = some '/') :=
      congrArg Path.isAbsolute h
    have hstack := congrArg Path.segmentStack h
    rw [segmentStack_new, segmentStack_new] at hstack
    obtain ⟨hn, hc⟩ := append_replicate_inj (up_not_mem_location s) (up_not_mem_location t) hstack
    refine ⟨?_, hc⟩
    have hi : (location s).isAbsolute = (location t).isAbsolute := by
      rw [location_isAbsolute, location_isAbsolute, habs]
    have hups : (location s).ups = (location t).ups := by
      rw [location_ups, location_ups, hc]
      exact if_congr (decide_eq_decide.mp habs) rfl rfl
    exact Location.ext hi hups hn
  · rintro ⟨hl, hc⟩
    have hi := location_isAbsolute s
    rw [hl, location_isAbsolute] at hi
    apply eq_of_fields
    · rw [new_isAbsolute, new_isAbsolute, hi]
    · rw [segmentStack_new, segmentStack_new, hl, hc]

theorem foldl_go_segments (directory : List Text) (s : Text) :
    (segments s).foldl go directory = (location s).names ++ directory.drop (climbs s) := by
  rw [foldl_go, location_names, climbs]

theorem walk_absolute (h : s.head? = some '/') (directory : List Text) :
    walk directory s = (location s).names := by
  rw [walk, if_pos h, foldl_go_segments, List.drop_nil, List.append_nil]

theorem walk_relative (h : s.head? ≠ some '/') (directory : List Text) :
    walk directory s = (segments s).foldl go directory := by
  rw [walk, if_neg h]

/-- Strings of one kind denote the same location where they lead to the same directory, from
every directory. -/
theorem location_eq_iff (h : s.head? = some '/' ↔ t.head? = some '/') :
    location s = location t ↔ ∀ directory, walk directory s = walk directory t := by
  have habs : (location s).isAbsolute = (location t).isAbsolute := by
    rw [location_isAbsolute, location_isAbsolute, decide_eq_decide]
    exact h
  have hups : (location s).ups = (location t).ups ↔ s.head? ≠ some '/' → climbs s = climbs t := by
    rw [location_ups, location_ups]
    by_cases hs : s.head? = some '/'
    · rw [if_pos hs, if_pos (h.mp hs)]
      exact ⟨fun _ hs' => (hs' hs).elim, fun _ => rfl⟩
    · rw [if_neg hs, if_neg fun ht => hs (h.mpr ht)]
      exact ⟨fun hc _ => hc, fun hc => hc hs⟩
  by_cases hs : s.head? = some '/'
  · simp only [walk_absolute hs, walk_absolute (h.mp hs), forall_const]
    exact ⟨congrArg _, fun hn => Location.ext habs (hups.mpr fun hs' => (hs' hs).elim) hn⟩
  · have ht : t.head? ≠ some '/' := fun ht => hs (h.mpr ht)
    simp only [walk_relative hs, walk_relative ht, foldl_go_segments]
    constructor
    · intro hl directory
      rw [hl, hups.mp (congrArg _ hl) hs]
    · intro hw
      have hn := hw []
      rw [List.drop_nil, List.drop_nil, List.append_nil, List.append_nil] at hn
      refine Location.ext habs (hups.mpr fun _ => ?_) hn
      -- a directory deep enough for both shows how far they lead up
      have hdeep := hw (List.replicate (climbs s + climbs t) up)
      rw [hn] at hdeep
      have hlen := congrArg List.length (List.append_cancel_left hdeep)
      rw [List.length_drop, List.length_drop, List.length_replicate] at hlen
      omega

theorem segmentStack_eq (p : Path) : p.segmentStack =
    (location p.string).names ++ List.replicate (climbs p.string) up := by
  rw [← segmentStack_new, new_string]

theorem string_head (h : p.isAbsolute = true) : p.string.head? = some '/' := by
  rw [string, if_pos h]
  rfl

/-- What is joined to an absolute path leads on from its place. -/
theorem walk_join (h : p.isAbsolute = true) (string : Text) :
    walk [] (p.join string).string = (segments string).foldl go (walk [] p.string) := by
  have hnot := up_not_mem_location p.string
  have hstack : (p.join string).segmentStack =
      (segments string).foldl execute p.segmentStack := rfl
  rw [segmentStack_eq, segmentStack_eq p, foldl_execute hnot, ← location_names] at hstack
  have hnot' : up ∉ (location string).names ++ (location p.string).names.drop
      ((segments string).foldl enter (start false)).ups := by
    rw [List.mem_append]
    rintro (hm | hm)
    · exact up_not_mem_location _ hm
    · exact hnot (List.mem_of_mem_drop hm)
  obtain ⟨hn, -⟩ := append_replicate_inj (up_not_mem_location _) hnot' hstack
  rw [walk_absolute (string_head (p := p.join string) h), walk_absolute (string_head h), hn,
    foldl_go_segments, climbs]

theorem foldl_go_new (directory : List Text) (string : Text) :
    (segments (new string).string).foldl go directory = (segments string).foldl go directory := by
  obtain ⟨hl, hc⟩ := new_eq_iff.mp (new_string (new string))
  rw [foldl_go_segments, foldl_go_segments, hl, hc]

theorem segments_up : segments up = [up] := by decide

end InetLisp.Path
