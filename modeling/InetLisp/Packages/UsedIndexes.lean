import InetLisp.Packages.Hash

/-! # The bucket counter of a hash table

`hash_delete_entry` takes one bucket off whenever the entry was the top of its chain, also
if others were below it. As long as this does not happen the counter is exact, and the
table grows in time.
-/

namespace InetLisp.Hash

open Lib

variable {K V : Type} {F : HashFns K} {h g : Hash K V} {k : K} {v : V} {b i : ℕ}
  {chain : List (Entry K V)} {e : Entry K V}

/-- The number of buckets that are not empty. -/
def bucketsInUse (h : Hash K V) : ℕ := Chains.inUse h.entries

/-- The counter is the number of buckets that are not empty. -/
def Exact (h : Hash K V) : Prop := h.usedIndexesSize.toNat = h.bucketsInUse

instance : Decidable h.Exact := inferInstanceAs (Decidable (_ = _))

/-- `hash_set` makes the table larger only when the entries are 75 percent of the prime, or
the buckets in use 50 percent. -/
def GrowsInTime (F : HashFns K) (h : Hash K V) : Prop :=
  ∀ k v g ok, h.set F k v = some (g, ok) → g.primeIndex ≠ h.primeIndex →
    h.limit * 75 / 100 ≤ h.length ∨ h.limit * 50 / 100 ≤ h.bucketsInUse

/-- No deletion takes the top off a chain of more than one entry. -/
def KeepsTop (F : HashFns K) (h : Hash K V) : Op K V → Prop
  | .delete k => ∀ b, h.getEntry F k = some (b, 0) → (h.entries.getD b []).length ≤ 1
  | _ => True

theorem limit_lt (h : Hash K V) : h.limit < 2 ^ 64 := by
  have hall : ∀ p ∈ hashPrimes, p < 2 ^ 64 := by decide
  rw [limit, List.getD_eq_getElem?_getD]
  cases hp : hashPrimes[h.primeIndex]? with
  | none => exact Nat.two_pow_pos 64
  | some p => exact hall p (List.mem_of_getElem? hp)

theorem Exact.init : (Hash.init : Hash K V).Exact := by
  rw [Exact, bucketsInUse, Hash.init, Chains.inUse_replicate]
  rfl

theorem Exact.push (he : h.Exact) (hs : h.entries.length = h.limit)
    (hc : h.entries[b]? = some chain) (e : Entry K V) (n : ℕ) :
    Exact { h with
      usedIndexesSize := if chain.isEmpty then h.usedIndexesSize + 1 else h.usedIndexesSize
      length := n
      entries := h.entries.set b (e :: chain) } := by
  have hset := Chains.inUse_set hc (e :: chain)
  have hle : Chains.inUse (h.entries.set b (e :: chain)) ≤ h.limit := by
    rw [← hs, ← List.length_set]
    exact Chains.inUse_le_length
  have hlt := h.limit_lt
  simp only [Exact, bucketsInUse] at he ⊢
  rw [if_neg (List.cons_ne_nil e chain)] at hset
  cases chain with
  | nil =>
    rw [if_pos rfl] at hset
    have hone : (1 : BitVec 64).toNat = 1 := rfl
    rw [List.isEmpty_nil, if_pos rfl, BitVec.toNat_add, hone]
    omega
  | cons top chain =>
    rw [if_neg (List.cons_ne_nil top chain)] at hset
    rw [List.isEmpty_cons, if_neg Bool.false_ne_true]
    omega

theorem Exact.rehashEntry (he : g.Exact) (hs : g.entries.length = g.limit)
    (hp : g.primeIndex < hashPrimes.length) (e : Entry K V) : (g.rehashEntry F e).Exact := by
  obtain ⟨chain, hc, hd⟩ := exists_chain (F := F) hp hs e.key
  have hg := he.push hs hc { e with index := g.keyIndex F e.key } g.length
  rwa [Hash.rehashEntry, hd]

theorem Exact.foldl (he : g.Exact) (hs : g.entries.length = g.limit)
    (hp : g.primeIndex < hashPrimes.length) (m : List (Entry K V)) :
    (m.foldl (Hash.rehashEntry F) g).Exact := by
  induction m generalizing g with
  | nil => exact he
  | cons e m ih => exact ih (he.rehashEntry hs hp e) (List.length_set.trans hs) hp

/-- The counter of a table that has grown is exact, whatever it was before. -/
theorem Exact.of_rehash {n : ℕ} (hr : h.rehash F n = some g) : g.Exact := by
  unfold Hash.rehash at hr
  split at hr
  · rename_i hn
    let new : Hash K V := { h with
      primeIndex := n
      usedIndexesSize := 0
      entries := List.replicate (hashPrimes.getD n 0) [] }
    have hnew : new.Exact := by
      rw [Exact, bucketsInUse, Chains.inUse_replicate]
      rfl
    have hg := hnew.foldl (F := F) List.length_replicate hn h.entries.flatten
    rw [List.foldl_flatten] at hg
    rwa [Option.some.inj hr] at hg
  · cases hr

theorem primeIndex_setEntryIfNotExists {ok : Bool}
    (hs : h.setEntryIfNotExists F k v = (g, ok)) : g.primeIndex = h.primeIndex := by
  unfold Hash.setEntryIfNotExists at hs
  dsimp only at hs
  split at hs
  · cases hs
    rfl
  · split at hs <;> cases hs <;> rfl

theorem Exact.setEntryIfNotExists (he : h.Exact) (hv : Valid F h) {ok : Bool}
    (hs : h.setEntryIfNotExists F k v = (g, ok)) : g.Exact := by
  obtain ⟨chain, hc, hd⟩ := exists_chain (F := F) hv.prime hv.size k
  have hpush := he.push hv.size hc (h.newEntry F k v) (h.length + 1)
  unfold Hash.setEntryIfNotExists at hs
  dsimp only at hs
  rw [hd] at hs
  cases chain with
  | nil =>
    cases hs
    exact hpush
  | cons top chain =>
    dsimp only at hs
    split at hs
    · cases hs
      exact he
    · cases hs
      exact hpush

theorem Exact.set (he : h.Exact) (hv : Valid F h) {ok : Bool}
    (hs : h.set F k v = some (g, ok)) : g.Exact := by
  unfold Hash.set at hs
  split at hs
  · obtain ⟨h', hr, hs⟩ := Option.bind_eq_some_iff.mp hs
    exact (Exact.of_rehash hr).setEntryIfNotExists (hv.rehash hr).1 (Option.some.inj hs)
  · exact he.setEntryIfNotExists hv (Option.some.inj hs)

theorem Exact.put (he : h.Exact) (hv : Valid F h) (hp : h.put F k v = some g) : g.Exact := by
  unfold Hash.put at hp
  cases hg : h.getEntry F k with
  | none =>
    rw [hg] at hp
    obtain ⟨⟨g', ok⟩, hs, hp⟩ := Option.bind_eq_some_iff.mp hp
    dsimp only at hp
    split at hp
    · cases hp
      exact he.set hv hs
    · cases hp
  | some place =>
    obtain ⟨chain, e, hc, hi, -⟩ := hv.of_getEntry hg
    have hd : h.entries.getD place.1 [] = chain := by rw [List.getD_eq_getElem?_getD, hc]; rfl
    have hentry : h.entryAt place = some e := by simp [entryAt, hc, hi]
    rw [hg] at hp
    simp only [hentry, hd, Option.map_some, Option.some.injEq] at hp
    subst hp
    have hset := Chains.inUse_set hc (chain.set place.2 { e with value := v })
    have hn : chain ≠ [] := by
      rintro rfl
      cases hi
    have hn' : chain.set place.2 { e with value := v } ≠ [] := by simpa using hn
    rw [if_neg hn, if_neg hn'] at hset
    simp only [Exact, bucketsInUse] at he ⊢
    omega

/-- Where a deletion leaves the counter exact. -/
theorem exact_deleteEntry_iff (he : h.Exact) (hv : Valid F h) (hc : h.entries[b]? = some chain)
    (hi : chain[i]? = some e) (hd : h.deleteEntry (b, i) = some g) :
    g.Exact ↔ (i = 0 → chain.length ≤ 1) := by
  have hidx : e.index = b := hv.index b chain hc e (List.mem_of_getElem? hi)
  have hlen : i < chain.length := (List.getElem?_eq_some_iff.mp hi).1
  have hn : chain ≠ [] := List.ne_nil_of_length_pos (Nat.zero_lt_of_lt hlen)
  have hset := Chains.inUse_set hc (chain.eraseIdx i)
  have hpos := Chains.inUse_pos hc hn
  have herase := List.length_eraseIdx_of_lt hlen
  have hlt := h.usedIndexesSize.isLt
  have hone : (1 : BitVec 64).toNat = 1 := rfl
  rw [if_neg hn] at hset
  simp only [Hash.deleteEntry, hc, hi, hidx, if_pos, Option.bind_eq_bind, Option.bind_some,
    Option.pure_def, Option.some.injEq] at hd
  subst hd
  simp only [Exact, bucketsInUse] at he ⊢
  by_cases h₀ : i = 0
  · rw [if_pos h₀, BitVec.toNat_sub, hone]
    split at hset
    · rename_i hnil
      rw [hnil, List.length_nil] at herase
      omega
    · rename_i hnil
      have hp := List.length_pos_iff.mpr hnil
      omega
  · rw [if_neg h₀]
    have hne : chain.eraseIdx i ≠ [] := List.ne_nil_of_length_pos (by omega)
    rw [if_neg hne] at hset
    omega

theorem exact_step_iff (he : h.Exact) (hv : Valid F h) {op : Op K V} {r : Result V}
    (hs : h.step F op = some (g, r)) : g.Exact ↔ KeepsTop F h op := by
  cases op with
  | set k v =>
    obtain ⟨⟨g', ok⟩, hs', hr⟩ := Option.map_eq_some_iff.mp hs
    cases hr
    exact iff_of_true (he.set hv hs') trivial
  | put k v =>
    obtain ⟨g', hp, hr⟩ := Option.map_eq_some_iff.mp hs
    cases hr
    exact iff_of_true (he.put hv hp) trivial
  | delete k =>
    obtain ⟨⟨g', ok⟩, hd, hr⟩ := Option.map_eq_some_iff.mp hs
    cases hr
    unfold Hash.delete at hd
    rw [KeepsTop]
    cases hg : h.getEntry F k with
    | none =>
      rw [hg] at hd
      cases hd
      exact iff_of_true he nofun
    | some place =>
      rw [hg] at hd
      obtain ⟨g', hdel, hr⟩ := Option.map_eq_some_iff.mp hd
      cases hr
      obtain ⟨chain, e, hc, hi, -⟩ := hv.of_getEntry hg
      have hchain : h.entries.getD place.1 [] = chain := by
        rw [List.getD_eq_getElem?_getD, hc]
        rfl
      rw [exact_deleteEntry_iff he hv hc hi hdel]
      constructor
      · rintro hl b hb
        obtain rfl := Option.some.inj hb
        rw [hchain]
        exact hl rfl
      · rintro hl h₀
        rw [← hchain]
        exact hl place.1 (by rw [← h₀])
  | purge =>
    simp only [Hash.step, hv.purge, Option.map_some, Option.some.injEq] at hs
    cases hs
    exact iff_of_true .init trivial
  | get k =>
    cases hs
    exact iff_of_true he trivial
  | has k =>
    cases hs
    exact iff_of_true he trivial
  | length =>
    cases hs
    exact iff_of_true he trivial

theorem Exact.growsInTime (he : h.Exact) (hl : h.limit * 75 < 2 ^ 64) : GrowsInTime F h := by
  intro k v g ok hs hne
  unfold Hash.set at hs
  split at hs
  · rename_i ho
    rw [isOverload, he, Nat.mod_eq_of_lt hl, Nat.mod_eq_of_lt (by omega), Bool.or_eq_true,
      decide_eq_true_eq, decide_eq_true_eq] at ho
    exact ho
  · exact (hne (primeIndex_setEntryIfNotExists (Option.some.inj hs))).elim

theorem run_snoc {l : List (Op K V)} {op : Op K V} {rs : List (Result V)} {r : Result V}
    {g' : Hash K V} (hr : h.run F l = some (g, rs)) (hs : g.step F op = some (g', r)) :
    h.run F (l ++ [op]) = some (g', rs ++ [r]) := by
  induction l generalizing h rs with
  | nil =>
    cases hr
    simp [run, hs]
  | cons op' l ih =>
    obtain ⟨⟨h', r'⟩, hstep, hb⟩ := Option.bind_eq_some_iff.mp hr
    obtain ⟨⟨g'', rs'⟩, hr', he⟩ := Option.bind_eq_some_iff.mp hb
    cases he
    rw [List.cons_append, run, hstep]
    simp [ih hr']

theorem exists_of_run_snoc {l : List (Op K V)} {op : Op K V} {rs : List (Result V)}
    (hr : h.run F (l ++ [op]) = some (g, rs)) :
    ∃ g' rs' r, h.run F l = some (g', rs') ∧ g'.step F op = some (g, r) := by
  induction l generalizing h rs with
  | nil =>
    obtain ⟨⟨h', r⟩, hstep, hb⟩ := Option.bind_eq_some_iff.mp hr
    cases hb
    exact ⟨h, [], r, rfl, hstep⟩
  | cons op' l ih =>
    obtain ⟨⟨h', r'⟩, hstep, hb⟩ := Option.bind_eq_some_iff.mp hr
    obtain ⟨⟨g', rs'⟩, hr', he⟩ := Option.bind_eq_some_iff.mp hb
    cases he
    obtain ⟨g'', rs'', r, hrun, hlast⟩ := ih hr'
    refine ⟨g'', r' :: rs'', r, ?_, hlast⟩
    rw [run, hstep]
    simp [hrun]

/-- A new table comes to this state by some of the operations. -/
def Reaches (F : HashFns K) (ops : List (Op K V)) (h : Hash K V) : Prop :=
  ∃ rs, (Hash.init : Hash K V).run F ops = some (h, rs)

/-- The counter is exact after every operation, and the table grows in time, if and only if
no operation takes the top off a chain of more than one entry. -/
theorem exact_iff_of_run {ops : List (Op K V)}
    (hl : ∀ l h, l <+: ops → Reaches F l h → h.limit * 75 < 2 ^ 64) :
    (∀ l h, l <+: ops → Reaches F l h → h.Exact ∧ GrowsInTime F h) ↔
      ∀ l op h, l ++ [op] <+: ops → Reaches F l h → KeepsTop F h op := by
  constructor
  · intro hall l op h hp hr
    obtain ⟨he, -⟩ := hall l h ((List.prefix_append l [op]).trans hp) hr
    obtain ⟨rs, hrun⟩ := hr
    have hv := (Valid.run .init hrun).1
    cases op with
    | delete k =>
      obtain ⟨g, ok, hd, -⟩ := hv.delete k
      have hs : h.step F (.delete k) = some (g, .bool ok) := by
        rw [Hash.step, hd]
        rfl
      exact (exact_step_iff he hv hs).mp (hall _ g hp ⟨_, run_snoc hrun hs⟩).1
    | _ => trivial
  · intro hkeeps l
    -- Every state after the first is reached from one where the counter is exact.
    have hexact : ∀ h, l <+: ops → Reaches F l h → h.Exact := by
      induction l using List.reverseRecOn with
      | nil =>
        rintro h - ⟨rs, hrun⟩
        cases hrun
        exact .init
      | append_singleton l op ih =>
        rintro g hp ⟨rs, hrun⟩
        obtain ⟨h, rs', r, hrun', hs⟩ := exists_of_run_snoc hrun
        have he := ih h ((List.prefix_append l [op]).trans hp) ⟨rs', hrun'⟩
        have hv := (Valid.run .init hrun').1
        exact (exact_step_iff he hv hs).mpr (hkeeps l op h hp ⟨rs', hrun'⟩)
    intro h hp hr
    exact ⟨hexact h hp hr, (hexact h hp hr).growsInTime (hl l h hp hr)⟩

/-- The entry at the bottom of a chain is deleted. -/
def bottomOps : List (Op ℕ ℕ) := [.set 1 10, .set 2 20, .delete 1]

theorem exact_iff_of_run_bottom :
    (∀ l h, l <+: bottomOps → Reaches collide l h → h.Exact ∧ GrowsInTime collide h) ↔
      ∀ l op h, l ++ [op] <+: bottomOps → Reaches collide l h → KeepsTop collide h op := by
  apply exact_iff_of_run
  rintro l h hp ⟨rs, hrun⟩
  have hall : ∀ l ∈ bottomOps.inits, ((Hash.init : Hash ℕ ℕ).run collide l).all
      fun r => r.1.limit * 75 < 2 ^ 64 := by decide
  simpa [hrun] using hall l ((List.mem_inits l bottomOps).mpr hp)

/-- The entry at the top of a chain of two is deleted, and its bucket is taken off. -/
theorem not_exact : ¬∀ (F : HashFns ℕ) (ops : List (Op ℕ ℕ)) (h : Hash ℕ ℕ),
    Reaches F ops h → h.Exact ∧ GrowsInTime F h := by
  intro hall
  have hrun : Reaches collide [.set 1 10, .set 2 20, .delete 2]
      { primeIndex := 0, usedIndexesSize := 0, length := 1
        entries := [⟨0, 1, 10⟩] :: List.replicate 12 [] } :=
    ⟨[.bool true, .bool true, .bool true], by decide⟩
  exact absurd (hall collide _ _ hrun).1 (by decide)

end InetLisp.Hash
