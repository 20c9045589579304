import InetLisp.Lang.Load
import InetLisp.Packages.Location

/-! # Modules and the places of their files

The cache knows a module by the string of its path, and an import is joined to the
directory of the module that it stands in.
-/

namespace InetLisp.Load

open InetLisp.Path Lib Relation

variable {F A W V X : Type*} {E : Env F A W V X} {s t : State F A W V} {p q : Path}

/-- Strings for one place that lead up from the root, one more often than the other. -/
def ClimbsApart (s t : Text) : Prop :=
  s.head? = some '/' ∧ location s = location t ∧ climbs s ≠ climbs t

instance (s t : Text) : Decidable (ClimbsApart s t) := inferInstanceAs (Decidable (_ ∧ _ ∧ _))

/-- No place has two keys. -/
def OneKey (cache : List (Text × Mod V)) : Prop :=
  ∀ e₁ ∈ cache, ∀ e₂ ∈ cache, location e₁.1 = location e₂.1 → e₁.1 = e₂.1

theorem climbs_eq {s t : Text} (hs : s.head? ≠ some '/') (h : location s = location t) :
    climbs s = climbs t := by
  have ht : t.head? ≠ some '/' := by
    have hi := location_isAbsolute s
    rw [h, location_isAbsolute, decide_eq_decide] at hi
    exact fun ht => hs (hi.mp ht)
  have hups := location_ups s
  rwa [h, location_ups, if_neg ht, if_neg hs, eq_comm] at hups

theorem climbs_eq_iff {s t : Text} (h : location s = location t) :
    climbs s = climbs t ↔ ¬ ClimbsApart s t := by
  constructor
  · exact fun hc hca => hca.2.2 hc
  · intro hca
    by_contra hc
    by_cases hs : s.head? = some '/'
    · exact hca ⟨hs, h, hc⟩
    · exact hc (climbs_eq hs h)

theorem pathEqual_iff_location (s t : Text) :
    (pathEqual (new s) (new t) = true ↔ location s = location t) ↔ ¬ ClimbsApart s t := by
  rw [pathEqual_iff, new_eq_iff]
  constructor
  · intro h hca
    exact hca.2.2 (h.mpr hca.2.1).2
  · intro hca
    exact ⟨And.left, fun hl => ⟨hl, (climbs_eq_iff hl).mpr hca⟩⟩

/-- The keys of the cache are strings of paths. -/
def Keyed (s : State F A W V) : Prop := ∀ e ∈ s.cache, ∃ p : Path, e.1 = p.string

theorem loadMod_cache (h : loadMod E s p = .ok t) : t.cache = s.cache := by
  unfold loadMod at h
  split at h
  · cases h
    rfl
  · split at h
    · cases h
    · split at h
      · cases h
      · cases h
        rfl

theorem step_cache (h : step E s = .ok t) : t.cache = s.cache ∨
    ∃ frame ∈ s.stack, t.cache = (frame.mod.path.string, frame.mod) :: s.cache := by
  cases hp : s.callee with
  | some path =>
    obtain ⟨-, -, s', hs, -, hc, -⟩ := step_of_callee (E := E) hp
    have hcache := loadMod_cache (hs.symm.trans h)
    exact .inl (hcache.trans hc)
  | none =>
    cases stays_of_step hp h with
    | finish | drop | define | execute => exact .inl rfl
    | save => exact .inr ⟨_, List.mem_cons_self, rfl⟩

theorem Keyed.next (h : Keyed s) (hn : Next State.more (step E) s t) : Keyed t := by
  intro e he
  rcases step_cache hn.2 with hc | ⟨frame, -, hc⟩
  · exact h e (hc ▸ he)
  · rw [hc] at he
    rcases List.mem_cons.mp he with rfl | he
    · exact ⟨frame.mod.path, rfl⟩
    · exact h e he

theorem Keyed.reaches (h : Keyed s) (hr : Reaches E s t) : Keyed t := by
  induction hr with
  | refl => exact h
  | tail _ hn ih => exact ih.next hn

theorem Keyed.oneKey_iff (h : Keyed s) :
    OneKey s.cache ↔ ∀ e₁ ∈ s.cache, ∀ e₂ ∈ s.cache, ¬ ClimbsApart e₁.1 e₂.1 := by
  constructor
  · rintro hk e₁ h₁ e₂ h₂ ⟨-, hl, hc⟩
    exact hc (congrArg climbs (hk e₁ h₁ e₂ h₂ hl))
  · intro hca e₁ h₁ e₂ h₂ hl
    obtain ⟨p, hp⟩ := h e₁ h₁
    obtain ⟨q, hq⟩ := h e₂ h₂
    have he := new_eq_iff.mpr ⟨hl, (climbs_eq_iff hl).mpr (hca e₁ h₁ e₂ h₂)⟩
    rw [hp, hq, new_string, new_string] at he
    rw [hp, hq, he]

/-- Paths are equal exactly where their strings lead to the same place, and no place has two
keys in the cache, unless steps up from the root set them apart. -/
theorem equality_iff (E : Env F A W V X) (w : W) (arguments : List Path) :
    (∀ s t, (pathEqual (new s) (new t) = true ↔ location s = location t) ↔ ¬ ClimbsApart s t) ∧
    ∀ u, Reaches E (State.start w arguments) u →
      (OneKey u.cache ↔ ∀ e₁ ∈ u.cache, ∀ e₂ ∈ u.cache, ¬ ClimbsApart e₁.1 e₂.1) := by
  refine ⟨pathEqual_iff_location, fun u hu => ?_⟩
  have hstart : Keyed (State.start w arguments : State F A W V) := nofun
  exact (hstart.reaches hu).oneKey_iff

/-- A file system with one file, and paths that are read as usual. -/
def oneFile : Env Unit Unit Unit Unit Unit where
  fileOpen path := if location path = location ['/', 'a'] then some () else none
  parse _ := some []
  importPrelude _ := ((), [])
  execute _ valueHash _ := .ok ((), valueHash)

theorem equality_oneFile : ∃ u : State Unit Unit Unit Unit,
    Reaches oneFile (State.start () [new ['/', 'a'], new ['/', '.', '/', 'a', '/']]) u ∧
      u.cache.length = 1 ∧ OneKey u.cache := by
  let u : State Unit Unit Unit Unit :=
    ⟨(), [(['/', 'a'], ⟨new ['/', 'a'], []⟩)], [], none, [], [()]⟩
  have hu : Reaches oneFile (State.start () [new ['/', 'a'], new ['/', '.', '/', 'a', '/']]) u :=
    reaches_of_steps (k := 5) rfl
  have hone := ((equality_iff oneFile () _).2 u hu).mpr (by decide)
  exact ⟨u, hu, rfl, hone⟩

theorem not_equality :
    ¬ (pathEqual (new ['/', '.', '.']) (new ['/']) = true ↔
        location ['/', '.', '.'] = location ['/']) ∧
    ∃ u : State Unit Unit Unit Unit,
      Reaches oneFile (State.start () [new ['/', 'a'], new ['/', '.', '.', '/', 'a']]) u ∧
        ¬ OneKey u.cache := by
  let file : Mod Unit := ⟨new ['/', 'a'], []⟩
  let again : Mod Unit := ⟨new ['/', '.', '.', '/', 'a'], []⟩
  refine ⟨by decide, ⟨(), [(again.path.string, again), (file.path.string, file)], [], none, [],
    [(), ()]⟩, reaches_of_steps (k := 6) rfl, fun h => ?_⟩
  have hk := h _ List.mem_cons_self _ (List.mem_cons_of_mem _ List.mem_cons_self) (by decide)
  exact absurd hk (by decide)

/-- The import leads to the place of the string, taken from the directory of the module. -/
def Resolves (m : Path) (string : Text) (path : Path) : Prop :=
  path.isAbsolute = true ∧ walk [] path.string = walk (walk [] m.string).tail string

theorem walk_importPath {m : Path} (h : m.isAbsolute = true) (valueHash : List (Text × V))
    (string : Text) : walk [] (importPath ⟨m, valueHash⟩ (new string)).string =
      (segments string).foldl go (walk [] m.string).tail := by
  have hdir : (m.copy.join up).isAbsolute = true := by rwa [copy_eq]
  rw [importPath, walk_join hdir, foldl_go_new, copy_eq, walk_join h, segments_up]
  rfl

/-- `path_resolve` would lead there. -/
theorem resolves_resolve {m : Path} (h : m.isAbsolute = true) (string : Text) :
    Resolves m string ((m.copy.join up).resolve string) := by
  rw [copy_eq, resolve]
  by_cases hs : string.head? = some '/'
  · rw [if_pos hs]
    refine ⟨rfl, ?_⟩
    have hroot : walk [] (Path.string ⟨true, [], .nil⟩) = [] := by decide
    rw [walk_join rfl, hroot, foldl_go_segments, walk_absolute hs, List.drop_nil, List.append_nil]
  · rw [if_neg hs]
    have hdir : (m.join up).isAbsolute = true := h
    refine ⟨h, ?_⟩
    rw [walk_join hdir, walk_join h, segments_up, walk_relative hs]
    rfl

/-- A statement of a module that is loaded from an absolute path imports the file of the string,
unless the string is absolute and does not lead up from the directory of the module. -/
theorem import_resolves_iff {m : Path} (h : m.isAbsolute = true) (string : Text) (world : W)
    (cache : List (Text × Mod V)) (valueHash : List (Text × V)) (nameList names : List Text)
    (stmtList : List (Stmt A)) (stack : List (Frame A V)) (arguments : List Path)
    (opened : List F) :
    ∃ path, State.callee ⟨world, cache,
      ⟨⟨m, valueHash⟩, nameList, .stmtImport names (new string) :: stmtList⟩ :: stack, none,
      arguments, opened⟩ = some path ∧
      (Resolves m string path ↔
        (string.head? = some '/' → (walk [] m.string).tail.length ≤ climbs string)) := by
  refine ⟨importPath ⟨m, valueHash⟩ (new string), rfl, ?_⟩
  have habs : (importPath ⟨m, valueHash⟩ (new string)).isAbsolute = true := by
    rw [importPath, copy_eq]
    exact h
  rw [Resolves, walk_importPath h, and_iff_right habs]
  by_cases hs : string.head? = some '/'
  · rw [imp_iff_right hs, walk_absolute hs, foldl_go_segments, List.append_right_eq_self]
    exact List.drop_eq_nil_iff
  · rw [walk_relative hs]
    exact ⟨fun _ hs' => (hs hs').elim, fun _ => rfl⟩

theorem import_resolves_sibling : Resolves (new ['/', 'a', '/', 'b']) ['c']
    (importPath ⟨new ['/', 'a', '/', 'b'], ([] : List (Text × Unit))⟩ (new ['c'])) := by
  obtain ⟨path, hp, h⟩ := import_resolves_iff (F := Unit) (A := Unit) (V := Unit)
    (m := new ['/', 'a', '/', 'b']) rfl ['c'] () [] [] [] [] [] [] [] []
  cases hp
  exact h.mpr (by decide)

theorem not_import_resolves : ¬ Resolves (new ['/', 'a', '/', 'b']) ['/', 'c']
    (importPath ⟨new ['/', 'a', '/', 'b'], ([] : List (Text × Unit))⟩ (new ['/', 'c'])) := by
  rintro ⟨-, h⟩
  exact absurd h (by decide)

end InetLisp.Load
