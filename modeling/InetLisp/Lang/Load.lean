import InetLisp.Lib.Loop
import InetLisp.Packages.Path
import Mathlib.Algebra.BigOperators.Group.List.Basic
import Mathlib.Algebra.GroupWithZero.Nat
import Mathlib.Data.Fintype.Card
import Mathlib.Data.Prod.Lex
import Mathlib.Logic.Relation

/-! # Loading modules

A file is loaded once its statements are executed; an import loads another file in
the middle of it. A module enters the cache at the end of its file, so the calls that
are still under way are not in the cache.
-/

namespace InetLisp.Load

open Lib Relation

inductive Stmt (A : Type*)
  | stmtImport (nameList : List Text) (path : Path)
  | stmtOther (a : A)

structure Mod (V : Type*) where
  path : Path
  valueHash : List (Text × V)

inductive Error (X : Type*)
  | fileOpen (path : Text)
  | parse
  | unknownName (name : Text)
  | bound (name : Text)
  | cached (path : Text)
  | stmt (x : X)

/-- What loading depends on: the file that a path leads to, the statements of a file,
the start of a module, and the statements that are not imports. All of them return. -/
structure Env (F A W V X : Type*) where
  fileOpen : Text → Option F
  parse : F → Option (List (Stmt A))
  importPrelude : W → W × List (Text × V)
  execute : W → List (Text × V) → A → Except X (W × List (Text × V))

variable {F A W V X : Type*}

def modFind (self : Mod V) (name : Text) : Option V := self.valueHash.lookup name

def define (self : Mod V) (name : Text) (value : V) : Except (Error X) (Mod V) :=
  if (modFind self name).isSome then .error (.bound name)
  else .ok { self with valueHash := (name, value) :: self.valueHash }

/-- The loop over the names of an import. -/
def defineImported (imported : Mod V) : Mod V → List Text → Except (Error X) (Mod V)
  | self, [] => .ok self
  | self, name :: nameList => match modFind imported name with
      | none => .error (.unknownName name)
      | some value => do
          let self ← define self name value
          defineImported imported self nameList

/-- A call of `load_mod` under way: its module, the names of the import that it is
executing, and the statements to come. -/
structure Frame (A V : Type*) where
  mod : Mod V
  nameList : List Text
  stmtList : List (Stmt A)

/-- The calls under way stand innermost first, and so do the files whose statements
have been executed up to now, in full or in part. -/
structure State (F A W V : Type*) where
  world : W
  cache : List (Text × Mod V)
  stack : List (Frame A V)
  returned : Option (Mod V)
  arguments : List Path
  opened : List F

/-- `load_mod`, up to its loop -/
def loadMod (E : Env F A W V X) (s : State F A W V) (path : Path) :
    Except (Error X) (State F A W V) :=
  match s.cache.lookup path.string with
  | some mod => .ok { s with returned := some mod }
  | none => match E.fileOpen path.string with
      | none => .error (.fileOpen path.string)
      | some f => match E.parse f with
          | none => .error .parse
          | some stmtList => .ok { s with
              world := (E.importPrelude s.world).1
              stack := ⟨⟨path, (E.importPrelude s.world).2⟩, [], stmtList⟩ :: s.stack
              opened := f :: s.opened }

/-- The path that an import leads to. -/
def importPath (mod : Mod V) (path : Path) : Path := (mod.path.copy.join Path.up).join path.string

/-- The command calls `load_mod` for its arguments, and every import calls it again. -/
def step (E : Env F A W V X) (s : State F A W V) : Except (Error X) (State F A W V) :=
  match s.returned, s.stack with
  | some _, [] => .ok { s with returned := none }
  | some mod, frame :: stack => (defineImported mod frame.mod frame.nameList).map fun self =>
      { s with returned := none, stack := { frame with mod := self } :: stack }
  | none, [] => match s.arguments with
      | [] => .ok s
      | path :: arguments => loadMod E { s with arguments } path
  | none, frame :: stack => match frame.stmtList with
      | [] =>
          if (s.cache.lookup frame.mod.path.string).isSome then
            .error (.cached frame.mod.path.string)
          else .ok { s with
            cache := (frame.mod.path.string, frame.mod) :: s.cache
            stack
            returned := some frame.mod }
      | .stmtImport nameList path :: stmtList =>
          loadMod E { s with stack := { frame with nameList, stmtList } :: stack }
            (importPath frame.mod path)
      | .stmtOther a :: stmtList => match E.execute s.world frame.mod.valueHash a with
          | .error x => .error (.stmt x)
          | .ok (world, valueHash) => .ok { s with
              world
              stack := ⟨{ frame.mod with valueHash }, frame.nameList, stmtList⟩ :: stack }

namespace State

def more (s : State F A W V) : Bool :=
  s.returned.isSome || !s.stack.isEmpty || !s.arguments.isEmpty

def start (world : W) (arguments : List Path) : State F A W V :=
  ⟨world, [], [], none, arguments, []⟩

/-- The path with which the next step calls `load_mod`. -/
def callee (s : State F A W V) : Option Path :=
  match s.returned, s.stack with
  | some _, _ => none
  | none, [] => s.arguments.head?
  | none, frame :: _ => match frame.stmtList with
      | .stmtImport _ path :: _ => some (importPath frame.mod path)
      | _ => none

/-- The statement that the next step executes, and the values of its module. -/
def stmt (s : State F A W V) : Option (List (Text × V) × A) :=
  match s.returned, s.stack with
  | none, frame :: _ => match frame.stmtList with
      | .stmtOther a :: _ => some (frame.mod.valueHash, a)
      | _ => none
  | _, _ => none

/-- The paths being loaded and those loaded. -/
def paths (s : State F A W V) : List Text :=
  s.stack.map (·.mod.path.string) ++ s.cache.map Prod.fst

/-- What is left to do without opening a file. -/
def weight (s : State F A W V) : ℕ :=
  (s.stack.map fun frame => 2 * frame.stmtList.length + 2).sum + 2 * s.arguments.length +
    if s.returned.isSome then 1 else 0

end State

variable {E : Env F A W V X} {s t : State F A W V}

theorem define_path {self m : Mod V} {name : Text} {value : V}
    (h : define (X := X) self name value = .ok m) : m.path = self.path := by
  unfold define at h
  split at h
  · cases h
  · cases h
    rfl

theorem defineImported_path {imported self m : Mod V} {nameList : List Text}
    (h : defineImported (X := X) imported self nameList = .ok m) : m.path = self.path := by
  induction nameList generalizing self with
  | nil => cases h; rfl
  | cons name nameList ih =>
    unfold defineImported at h
    cases hv : modFind imported name with
    | none => rw [hv] at h; cases h
    | some value =>
      rw [hv] at h
      dsimp only at h
      cases hd : define (X := X) self name value with
      | error e => rw [hd] at h; cases h
      | ok self' =>
        rw [hd] at h
        exact (ih h).trans (define_path hd)

theorem loadMod_cases {path : Path} (h : loadMod E s path = .ok t) :
    (∃ f, s.cache.lookup path.string = none ∧ E.fileOpen path.string = some f ∧
      (E.parse f).isSome ∧ t.opened = f :: s.opened ∧ t.paths = path.string :: s.paths) ∨
    ∃ mod, t = { s with returned := some mod } := by
  unfold loadMod at h
  split at h
  · cases h
    exact .inr ⟨_, rfl⟩
  · rename_i hc
    split at h
    · cases h
    · rename_i f hf
      split at h
      · cases h
      · rename_i stmtList hp
        cases h
        refine .inl ⟨f, hc, hf, ?_, rfl, rfl⟩
        rw [hp]
        rfl

theorem loadMod_opens {path : Path} {f : F} (hc : s.cache.lookup path.string = none)
    (hf : E.fileOpen path.string = some f) (hp : (E.parse f).isSome) :
    ∃ t, loadMod E s path = .ok t ∧ t.opened = f :: s.opened := by
  obtain ⟨stmtList, hp⟩ := Option.isSome_iff_exists.mp hp
  unfold loadMod
  rw [hc]
  dsimp only
  rw [hf]
  dsimp only
  rw [hp]
  exact ⟨_, rfl, rfl⟩

theorem step_of_callee {path : Path} (h : s.callee = some path) :
    s.more = true ∧ s.stmt = none ∧ ∃ s', step E s = loadMod E s' path ∧ s'.world = s.world ∧
      s'.cache = s.cache ∧ s'.opened = s.opened ∧ s'.paths = s.paths ∧ s'.returned = none ∧
      s'.weight + 2 = s.weight := by
  obtain ⟨world, cache, stack, returned, arguments, opened⟩ := s
  cases returned with
  | some mod => cases h
  | none =>
    cases stack with
    | nil =>
      cases arguments with
      | nil => cases h
      | cons p arguments =>
        cases h
        refine ⟨rfl, rfl, ⟨world, cache, [], none, arguments, opened⟩, rfl, rfl, rfl, rfl, rfl,
          rfl, ?_⟩
        simp [State.weight]
        omega
    | cons frame stack =>
      obtain ⟨mod, nameList, stmtList⟩ := frame
      cases stmtList with
      | nil => cases h
      | cons stmt stmtList =>
        cases stmt with
        | stmtOther a => cases h
        | stmtImport names p =>
          cases h
          refine ⟨rfl, rfl,
            ⟨world, cache, ⟨mod, names, stmtList⟩ :: stack, none, arguments, opened⟩,
            rfl, rfl, rfl, rfl, rfl, rfl, ?_⟩
          simp [State.weight]
          omega

/-- The steps that do not call `load_mod` -/
inductive Stays (E : Env F A W V X) : State F A W V → State F A W V → Prop
  | finish (world : W) (cache : List (Text × Mod V)) (opened : List F) :
      Stays E ⟨world, cache, [], none, [], opened⟩ ⟨world, cache, [], none, [], opened⟩
  | drop (world : W) (cache : List (Text × Mod V)) (mod : Mod V) (arguments : List Path)
      (opened : List F) :
      Stays E ⟨world, cache, [], some mod, arguments, opened⟩
        ⟨world, cache, [], none, arguments, opened⟩
  | define (world : W) (cache : List (Text × Mod V)) (mod : Mod V) (frame : Frame A V)
      (stack : List (Frame A V)) (arguments : List Path) (opened : List F) {self : Mod V}
      (h : defineImported (X := X) mod frame.mod frame.nameList = .ok self) :
      Stays E ⟨world, cache, frame :: stack, some mod, arguments, opened⟩
        ⟨world, cache, { frame with mod := self } :: stack, none, arguments, opened⟩
  | save (world : W) (cache : List (Text × Mod V)) (mod : Mod V) (nameList : List Text)
      (stack : List (Frame A V)) (arguments : List Path) (opened : List F)
      (h : cache.lookup mod.path.string = none) :
      Stays E ⟨world, cache, ⟨mod, nameList, []⟩ :: stack, none, arguments, opened⟩
        ⟨world, (mod.path.string, mod) :: cache, stack, some mod, arguments, opened⟩
  | execute (world : W) (cache : List (Text × Mod V)) (mod : Mod V) (nameList : List Text) (a : A)
      (stmtList : List (Stmt A)) (stack : List (Frame A V)) (arguments : List Path)
      (opened : List F) {world' : W} {valueHash : List (Text × V)}
      (h : E.execute world mod.valueHash a = .ok (world', valueHash)) :
      Stays E ⟨world, cache, ⟨mod, nameList, .stmtOther a :: stmtList⟩ :: stack, none, arguments,
          opened⟩
        ⟨world', cache, ⟨{ mod with valueHash }, nameList, stmtList⟩ :: stack, none, arguments,
          opened⟩

theorem stays_of_step (hp : s.callee = none) (h : step E s = .ok t) : Stays E s t := by
  obtain ⟨world, cache, stack, returned, arguments, opened⟩ := s
  cases returned with
  | some mod =>
    cases stack with
    | nil =>
      cases h
      exact .drop ..
    | cons frame stack =>
      simp only [step] at h
      cases hd : defineImported (X := X) mod frame.mod frame.nameList with
      | error e => rw [hd] at h; cases h
      | ok self =>
        rw [hd] at h
        cases h
        exact .define _ _ _ _ _ _ _ hd
  | none =>
    cases stack with
    | nil =>
      cases arguments with
      | nil =>
        cases h
        exact .finish ..
      | cons path arguments => cases hp
    | cons frame stack =>
      obtain ⟨mod, nameList, stmtList⟩ := frame
      cases stmtList with
      | nil =>
        simp only [step] at h
        split at h
        · cases h
        · rename_i hc
          cases h
          exact .save _ _ _ _ _ _ _ (Option.not_isSome_iff_eq_none.mp hc)
      | cons stmt stmtList =>
        cases stmt with
        | stmtImport names path => cases hp
        | stmtOther a =>
          simp only [step] at h
          split at h
          · cases h
          · rename_i he
            cases h
            exact .execute _ _ _ _ _ _ _ _ _ he

/-- A step opens the file that it loads, or it comes nearer to the end. -/
theorem step_cases (hm : s.more = true) (h : step E s = .ok t) :
    (∃ path f, s.callee = some path ∧ s.cache.lookup path.string = none ∧
      E.fileOpen path.string = some f ∧ (E.parse f).isSome ∧ t.opened = f :: s.opened ∧
      t.paths = path.string :: s.paths) ∨
    t.opened = s.opened ∧ t.paths.Perm s.paths ∧ t.weight < s.weight := by
  cases hp : s.callee with
  | some path =>
    obtain ⟨-, -, s', hs, -, hc, ho, hps, hr, hw⟩ := step_of_callee (E := E) hp
    rw [hs] at h
    rcases loadMod_cases h with ⟨f, hf⟩ | ⟨mod, rfl⟩
    · rw [hc, ho, hps] at hf
      exact .inl ⟨path, f, rfl, hf⟩
    · refine .inr ⟨ho, .of_eq hps, ?_⟩
      simp only [State.weight, hr, Option.isSome_none, Option.isSome_some, if_true,
        Bool.false_eq_true, if_false] at hw ⊢
      omega
  | none =>
    right
    cases stays_of_step hp h with
    | finish => cases hm
    | drop => exact ⟨rfl, .refl _, by simp [State.weight]⟩
    | define _ _ _ _ _ _ _ hd =>
      refine ⟨rfl, .of_eq ?_, by simp [State.weight]⟩
      simp [State.paths, defineImported_path hd]
    | save =>
      refine ⟨rfl, ?_, by simp [State.weight]; omega⟩
      simp only [State.paths, List.map_cons, List.cons_append]
      exact List.perm_middle
    | execute => exact ⟨rfl, .refl _, by simp [State.weight]⟩

/-- The steps of a run. -/
def Reaches (E : Env F A W V X) : State F A W V → State F A W V → Prop :=
  ReflTransGen (Next State.more (step E))

def steps (E : Env F A W V X) : ℕ → State F A W V → Option (State F A W V)
  | 0, s => some s
  | k + 1, s => if s.more then match step E s with
      | .ok s => steps E k s
      | .error _ => none
    else none

theorem reaches_of_steps {k : ℕ} (h : steps E k s = some t) : Reaches E s t := by
  induction k generalizing s with
  | zero =>
    cases h
    exact .refl
  | succ k ih =>
    unfold steps at h
    split at h
    · rename_i hm
      split at h
      · rename_i s' hs
        exact .head ⟨hm, hs⟩ (ih h)
      · cases h
    · cases h

theorem loadMod_world {path : Path} (h : loadMod E s path = .ok t) :
    t.world = s.world ∨ t.world = (E.importPrelude s.world).1 := by
  unfold loadMod at h
  split at h
  · cases h
    exact .inl rfl
  · split at h
    · cases h
    · split at h
      · cases h
      · cases h
        exact .inr rfl

theorem step_world (h : step E s = .ok t) :
    (s.stmt = none ∧ (t.world = s.world ∨ t.world = (E.importPrelude s.world).1)) ∨
    ∃ valueHash a valueHash', s.stmt = some (valueHash, a) ∧
      E.execute s.world valueHash a = .ok (t.world, valueHash') := by
  cases hp : s.callee with
  | some path =>
    obtain ⟨-, hstmt, s', hs, hw, -⟩ := step_of_callee (E := E) hp
    have hworld := loadMod_world (hs.symm.trans h)
    rw [hw] at hworld
    exact .inl ⟨hstmt, hworld⟩
  | none =>
    cases stays_of_step hp h with
    | finish | drop | define | save => exact .inl ⟨rfl, .inl rfl⟩
    | execute _ _ mod _ a _ _ _ _ he => exact .inr ⟨mod.valueHash, a, _, rfl, he⟩

theorem exists_next {valueHash valueHash' : List (Text × V)} {a : A} {world : W}
    (hs : s.stmt = some (valueHash, a))
    (he : E.execute s.world valueHash a = .ok (world, valueHash')) :
    ∃ t, Next State.more (step E) s t ∧ t.world = world := by
  obtain ⟨world₀, cache, stack, returned, arguments, opened⟩ := s
  cases returned with
  | some mod => cases hs
  | none =>
    cases stack with
    | nil => cases hs
    | cons frame stack =>
      obtain ⟨mod, nameList, stmtList⟩ := frame
      match stmtList with
      | [] => cases hs
      | .stmtImport names path :: stmtList => cases hs
      | .stmtOther a' :: stmtList =>
        cases hs
        refine ⟨⟨world, cache, ⟨{ mod with valueHash := valueHash' }, nameList, stmtList⟩ :: stack,
          none, arguments, opened⟩, ⟨rfl, ?_⟩, rfl⟩
        dsimp only at he
        simp only [step, he]

/-- Files opened are those being loaded and those loaded. -/
structure Inv (E : Env F A W V X) (s : State F A W V) : Prop where
  opened : ∀ f, f ∈ s.opened ↔ ∃ path ∈ s.paths, E.fileOpen path = some f
  parsed : ∀ f ∈ s.opened, (E.parse f).isSome

theorem Inv.start (w : W) (arguments : List Path) : Inv E (State.start w arguments) :=
  ⟨fun f => by simp [State.start, State.paths], by simp [State.start]⟩

theorem Inv.next (h : Inv E s) (hn : Next State.more (step E) s t) : Inv E t := by
  rcases step_cases hn.1 hn.2 with ⟨path, f, -, -, hf, hp, ho, hps⟩ | ⟨ho, hps, -⟩
  · refine ⟨fun g => ?_, ?_⟩
    · rw [ho, hps, List.mem_cons, h.opened g]
      constructor
      · rintro (rfl | ⟨q, hq, hg⟩)
        · exact ⟨path.string, List.mem_cons_self, hf⟩
        · exact ⟨q, List.mem_cons_of_mem _ hq, hg⟩
      · rintro ⟨q, hq, hg⟩
        rcases List.mem_cons.mp hq with rfl | hq
        · exact .inl (Option.some.inj (hg.symm.trans hf))
        · exact .inr ⟨q, hq, hg⟩
    · rw [ho]
      rintro g (_ | ⟨_, hg⟩)
      · exact hp
      · exact h.parsed g hg
  · refine ⟨fun g => ?_, ho ▸ h.parsed⟩
    rw [ho, h.opened g]
    simp only [hps.mem_iff]

theorem Inv.reaches (h : Inv E s) (hr : Reaches E s t) : Inv E t := by
  induction hr with
  | refl => exact h
  | tail _ hn ih => exact ih.next hn

/-- The file that is about to be opened is not being loaded, and it has not been
loaded under another path. -/
def Fresh (E : Env F A W V X) (s : State F A W V) : Prop :=
  ∀ path f, s.callee = some path → s.cache.lookup path.string = none →
    E.fileOpen path.string = some f → ∀ q ∈ s.paths, E.fileOpen q ≠ some f

/-- Loading ends, with all modules or with an error, and no file is executed twice. -/
def LoadsOnce (E : Env F A W V X) (s : State F A W V) : Prop :=
  (∃ r, Ends State.more (step E) s r) ∧ ∀ t, Reaches E s t → t.opened.Nodup

theorem Inv.nodup_next (h : Inv E s) (hd : s.opened.Nodup) (hf : Fresh E s)
    (hn : Next State.more (step E) s t) : t.opened.Nodup := by
  rcases step_cases hn.1 hn.2 with ⟨path, f, hp, hc, ho, -, he, -⟩ | ⟨he, -, -⟩
  · rw [he]
    refine List.nodup_cons.mpr ⟨fun hm => ?_, hd⟩
    obtain ⟨q, hq, hg⟩ := (h.opened f).mp hm
    exact hf path f hp hc ho q hq hg
  · rwa [he]

/-- As long as no file is opened again, a step opens one of the files that are left or
comes nearer to the end. -/
theorem lt_of_next [Fintype F] (hd : t.opened.Nodup) (hn : Next State.more (step E) s t) :
    toLex (Fintype.card F - t.opened.length, t.weight) <
      toLex (Fintype.card F - s.opened.length, s.weight) := by
  rw [Prod.Lex.toLex_lt_toLex]
  rcases step_cases hn.1 hn.2 with ⟨path, f, -, -, -, -, ho, -⟩ | ⟨ho, -, hw⟩
  · left
    have hle := hd.length_le_card
    rw [ho, List.length_cons] at hle ⊢
    dsimp only
    omega
  · right
    exact ⟨by rw [ho], hw⟩

theorem fresh_of_nodup (h : Inv E s) (hd : ∀ t, Next State.more (step E) s t → t.opened.Nodup) :
    Fresh E s := by
  intro path f hp hc hf q hq hg
  have hm : f ∈ s.opened := (h.opened f).mpr ⟨q, hq, hg⟩
  obtain ⟨hmore, -, s', hs, -, hc', ho, -⟩ := step_of_callee (E := E) hp
  obtain ⟨t, ht, hot⟩ := loadMod_opens (hc'.symm ▸ hc) hf (h.parsed f hm)
  have hn := hd t ⟨hmore, hs.trans ht⟩
  rw [hot, ho] at hn
  exact (List.nodup_cons.mp hn).1 hm

/-- Loading a finite collection of files ends and executes each file at most once,
exactly when no import that is executed leads to a file that is still being loaded or
that was loaded under another path. -/
theorem loadsOnce_iff [Fintype F] (E : Env F A W V X) (w : W) (arguments : List Path) :
    LoadsOnce E (State.start w arguments) ↔
      ∀ t, Reaches E (State.start w arguments) t → Fresh E t := by
  have hI {t} := (Inv.start (E := E) w arguments).reaches (t := t)
  constructor
  · rintro ⟨-, hd⟩ t ht
    exact fresh_of_nodup (hI ht) fun u hu => hd u (ht.tail hu)
  · intro hf
    have hd : ∀ t, Reaches E (State.start w arguments) t → t.opened.Nodup := by
      intro t ht
      induction ht with
      | refl => exact List.nodup_nil
      | tail hr hn ih => exact (hI hr).nodup_next ih (hf _ hr) hn
    refine ⟨?_, hd⟩
    exact exists_ends (P := Reaches E (State.start w arguments))
      (fun s t hs hn => ⟨hs.tail hn, lt_of_next (hd t (hs.tail hn)) hn⟩) .refl

/-- Where a file has one path, only the files being loaded count. -/
theorem fresh_iff (hE : ∀ p q f, E.fileOpen p = some f → E.fileOpen q = some f → p = q) :
    Fresh E s ↔ ∀ path f, s.callee = some path → s.cache.lookup path.string = none →
      E.fileOpen path.string = some f → ∀ frame ∈ s.stack, frame.mod.path ≠ path := by
  constructor
  · rintro h path f hp hc hf frame hm rfl
    exact h _ f hp hc hf _ (List.mem_append_left _ (List.mem_map.mpr ⟨frame, hm, rfl⟩)) hf
  · intro h path f hp hc hf q hq hg
    obtain rfl := hE _ _ _ hg hf
    rcases List.mem_append.mp hq with hq | hq
    · obtain ⟨frame, hm, he⟩ := List.mem_map.mp hq
      exact h path f hp hc hf frame hm (Path.string_injective he)
    · obtain ⟨e, he, hk⟩ := List.mem_map.mp hq
      rw [List.lookup_eq_none_iff] at hc
      have := hc e he
      simp [hk] at this

/-- A file that imports itself. -/
def selfImport : Env Unit Unit Unit Unit Unit where
  fileOpen path := if path = ['/', 'a'] then some () else none
  parse _ := some [.stmtImport [] (Path.new ['a'])]
  importPrelude _ := ((), [])
  execute _ valueHash _ := .ok ((), valueHash)

theorem not_loadsOnce : ¬ ∀ (E : Env Unit Unit Unit Unit Unit) (w : Unit) (arguments : List Path),
    LoadsOnce E (State.start w arguments) := by
  intro h
  let file := Path.new ['/', 'a']
  let frame : Frame Unit Unit := ⟨⟨file, []⟩, [], [.stmtImport [] (Path.new ['a'])]⟩
  have h₁ : Next State.more (step selfImport) (State.start () [file])
      ⟨(), [], [frame], none, [], [()]⟩ := ⟨rfl, rfl⟩
  have h₂ : Next State.more (step selfImport) ⟨(), [], [frame], none, [], [()]⟩
      ⟨(), [], [frame, { frame with stmtList := [] }], none, [], [(), ()]⟩ := ⟨rfl, rfl⟩
  have hd := (h selfImport () [file]).2 _ (ReflTransGen.refl.tail h₁ |>.tail h₂)
  exact absurd hd (by decide)

end InetLisp.Load
