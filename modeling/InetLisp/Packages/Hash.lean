import InetLisp.Lib.Chains
import InetLisp.Lib.Lookup
import Mathlib.Data.Quot

/-! # The hash table

Entries lie in singly linked chains, one for each remainder of their hash. The
table grows when too many entries or too many chains are in use.
-/

namespace InetLisp

open Lib

/-- `hash_fn` and `key_equal_fn` of a table: equal keys have equal hashes. -/
structure HashFns (K : Type) where
  hashFn : K → ℕ
  keyEqual : K → K → Bool
  equivalence : Equivalence fun a b => keyEqual a b = true
  hash_eq : ∀ a b, keyEqual a b = true → hashFn a = hashFn b

namespace HashFns

variable {K : Type} (F : HashFns K)

/-- Keys up to `key_equal_fn`. -/
def setoid : Setoid K := ⟨fun a b => F.keyEqual a b = true, F.equivalence⟩

def Class : Type := Quotient F.setoid

def classOf (k : K) : F.Class := Quotient.mk F.setoid k

instance : DecidableEq F.Class :=
  @Quotient.decidableEq K F.setoid fun a b => inferInstanceAs (Decidable (F.keyEqual a b = true))

variable {F}

theorem classOf_eq {a b : K} : F.classOf a = F.classOf b ↔ F.keyEqual a b = true :=
  ⟨fun h => Quotient.exact (s := F.setoid) h, fun h => Quotient.sound (s := F.setoid) h⟩

end HashFns

/-- A chain is a list of entries, from its top; the index is the one cached in the entry. -/
structure Entry (K V : Type) where
  index : ℕ
  key : K
  value : V
  deriving DecidableEq, Repr

/-- What an entry says of the map. -/
def Entry.pair {K V : Type} (e : Entry K V) : K × V := (e.key, e.value)

structure Hash (K V : Type) where
  primeIndex : ℕ
  usedIndexesSize : BitVec 64
  length : ℕ
  entries : List (List (Entry K V))
  deriving DecidableEq, Repr

namespace Hash

def hashPrimes : List ℕ :=
  [13, 31, 61, 127, 251, 509, 1021, 2039, 4093, 8191, 16381, 32749, 65521, 131071, 262139,
    524287, 1048573, 2097143, 4194301, 8388593, 16777213, 33554393, 67108859, 134217689,
    268435399, 536870909, 1073741789, 2147483647, 4294967295, 8589934591, 17179869183,
    34359738367, 68719476735, 137438953471, 274877906943, 549755813887, 1099511627775,
    2199023255551, 4398046511103, 8796093022207, 17592186044415, 35184372088831, 70368744177663,
    140737488355327, 281474976710655, 562949953421311, 1125899906842623, 2251799813685247,
    4503599627370495, 9007199254740991, 18014398509481983, 36028797018963967, 72057594037927935,
    144115188075855871, 288230376151711743, 576460752303423487, 1152921504606846975,
    2305843009213693949, 4611686018427387903, 9223372036854775807]

variable {K V : Type} (F : HashFns K)

def limit (h : Hash K V) : ℕ := hashPrimes.getD h.primeIndex 0

def keyIndex (h : Hash K V) (key : K) : ℕ := F.hashFn key % h.limit

def newEntry (h : Hash K V) (key : K) (value : V) : Entry K V := ⟨h.keyIndex F key, key, value⟩

def init : Hash K V where
  primeIndex := 0
  usedIndexesSize := 0
  length := 0
  entries := List.replicate 13 []

/-- The body of the loop in `hash_rehash`. -/
def rehashEntry (h : Hash K V) (e : Entry K V) : Hash K V :=
  let index := h.keyIndex F e.key
  let top := h.entries.getD index []
  { h with
    usedIndexesSize := if top.isEmpty then h.usedIndexesSize + 1 else h.usedIndexesSize
    entries := h.entries.set index ({ e with index := index } :: top) }

/-- Only inside of `hash_primes`; the assertion in the source allows a larger index. -/
def rehash (h : Hash K V) (newPrimeIndex : ℕ) : Option (Hash K V) :=
  if newPrimeIndex < hashPrimes.length then
    let new : Hash K V := { h with
      primeIndex := newPrimeIndex
      usedIndexesSize := 0
      entries := List.replicate (hashPrimes.getD newPrimeIndex 0) [] }
    some (h.entries.foldl (fun h chain => chain.foldl (rehashEntry F) h) new)
  else none

/-- A pointer to an entry is the place of the entry: its bucket and its position in the chain. -/
def getEntry (h : Hash K V) (key : K) : Option (ℕ × ℕ) :=
  let index := h.keyIndex F key
  ((h.entries.getD index []).findIdx? fun e => F.keyEqual e.key key).map (index, ·)

def entryAt (h : Hash K V) (place : ℕ × ℕ) : Option (Entry K V) :=
  (h.entries[place.1]?).bind fun chain => chain[place.2]?

def has (h : Hash K V) (key : K) : Bool := (h.getEntry F key).isSome

def get (h : Hash K V) (key : K) : Option V :=
  ((h.getEntry F key).bind h.entryAt).map Entry.value

/-- No rehash here; true if the key does not exist. -/
def setEntryIfNotExists (h : Hash K V) (key : K) (value : V) : Hash K V × Bool :=
  let index := h.keyIndex F key
  match h.entries.getD index [] with
  | [] =>
    ({ h with
      entries := h.entries.set index [h.newEntry F key value]
      usedIndexesSize := h.usedIndexesSize + 1
      length := h.length + 1 }, true)
  | top :: chain =>
    if (top :: chain).any fun e => F.keyEqual e.key key then (h, false)
    else
      ({ h with
        entries := h.entries.set index (h.newEntry F key value :: top :: chain)
        length := h.length + 1 }, true)

/--
The chain of the cached index is searched for the entry: it is there if the cached
index is its bucket, and the assertion fails otherwise.
-/
def deleteEntry (h : Hash K V) (place : ℕ × ℕ) : Option (Hash K V) := do
  let chain ← h.entries[place.1]?
  let e ← chain[place.2]?
  if e.index = place.1 then
    return { h with
      entries := h.entries.set place.1 (chain.eraseIdx place.2)
      length := h.length - 1
      usedIndexesSize :=
        if place.2 = 0 then h.usedIndexesSize - 1 else h.usedIndexesSize }
  else none

def delete (h : Hash K V) (key : K) : Option (Hash K V × Bool) :=
  match h.getEntry F key with
  | none => some (h, false)
  | some place => (h.deleteEntry place).map (·, true)

/-- The arithmetic is that of `size_t`. -/
def isOverload (h : Hash K V) : Bool :=
  h.limit * 75 % 2 ^ 64 / 100 ≤ h.length ||
    h.limit * 50 % 2 ^ 64 / 100 ≤ h.usedIndexesSize.toNat

def set (h : Hash K V) (key : K) (value : V) : Option (Hash K V × Bool) := do
  let h ← if h.isOverload then h.rehash F (h.primeIndex + 1) else some h
  return h.setEntryIfNotExists F key value

def put (h : Hash K V) (key : K) (value : V) : Option (Hash K V) :=
  match h.getEntry F key with
  | none => (h.set F key value).bind fun (h, ok) => if ok then some h else none
  | some (bucket, i) => (h.entryAt (bucket, i)).map fun e =>
    let chain := (h.entries.getD bucket []).set i { e with value := value }
    { h with entries := h.entries.set bucket chain }

/-- The loop of `hash_purge_without_shrink` over one chain of the given length. -/
def purgeChain (index : ℕ) : ℕ → Hash K V → Option (Hash K V)
  | 0, h => some h
  | n + 1, h => (h.deleteEntry (index, 0)).bind (purgeChain index n)

def purgeWithoutShrink (h : Hash K V) : Option (Hash K V) :=
  (List.range h.limit).foldlM (fun h index => do
    let h ← purgeChain index (h.entries.getD index []).length h
    return { h with entries := h.entries.set index [] }) h

def purge (h : Hash K V) : Option (Hash K V) := h.purgeWithoutShrink.map fun _ => init

inductive Op (K V : Type) where
  | set (key : K) (value : V)
  | put (key : K) (value : V)
  | delete (key : K)
  | purge
  | get (key : K)
  | has (key : K)
  | length
  deriving DecidableEq, Repr

inductive Result (V : Type) where
  | unit
  | bool (b : Bool)
  | value (v : Option V)
  | length (n : ℕ)
  deriving DecidableEq, Repr

def step (h : Hash K V) : Op K V → Option (Hash K V × Result V)
  | .set k v => (h.set F k v).map fun (h, b) => (h, .bool b)
  | .put k v => (h.put F k v).map (·, .unit)
  | .delete k => (h.delete F k).map fun (h, b) => (h, .bool b)
  | .purge => h.purge.map (·, .unit)
  | .get k => some (h, .value (h.get F k))
  | .has k => some (h, .bool (h.has F k))
  | .length => some (h, .length h.length)

/-- The results of a sequence of operations on one table. -/
def run (h : Hash K V) : List (Op K V) → Option (Hash K V × List (Result V))
  | [] => some (h, [])
  | op :: ops => do
    let (h, r) ← h.step F op
    let (h, rs) ← run h ops
    return (h, r :: rs)

/-! ## The finite map -/

/-- A finite map remembers which of the equal keys it was given first. -/
abbrev Map (V : Type) : Type := F.Class → Option (K × V)

/-- What the operations do to a finite map. -/
noncomputable def Map.step (m : Map F V) : Op K V → Map F V × Result V
  | .set k v =>
    if m (F.classOf k) = none then
      (Function.update m (F.classOf k) (some (k, v)), .bool true)
    else (m, .bool false)
  | .put k v =>
    (Function.update m (F.classOf k) (some (((m (F.classOf k)).map Prod.fst).getD k, v)), .unit)
  | .delete k => (Function.update m (F.classOf k) none, .bool (m (F.classOf k)).isSome)
  | .purge => (fun _ => none, .unit)
  | .get k => (m, .value ((m (F.classOf k)).map Prod.snd))
  | .has k => (m, .bool (m (F.classOf k)).isSome)
  | .length => (m, .length {q | m q ≠ none}.ncard)

noncomputable def Map.run (m : Map F V) : List (Op K V) → Map F V × List (Result V)
  | [] => (m, [])
  | op :: ops =>
    let (m, r) := Map.step F m op
    let (m, rs) := Map.run m ops
    (m, r :: rs)

def pairs (h : Hash K V) : List (K × V) := h.entries.flatten.map Entry.pair

def pairClass (p : K × V) : F.Class := F.classOf p.1

def toMap (h : Hash K V) : Map F V := lookup (pairClass F) h.pairs

/-- Every entry lies in the bucket of its key and knows that; no two keys are equal. -/
structure Valid (h : Hash K V) : Prop where
  prime : h.primeIndex < hashPrimes.length
  size : h.entries.length = h.limit
  bucket : Chains.InPlace (fun e => h.keyIndex F e.key) h.entries
  index : Chains.InPlace Entry.index h.entries
  distinct : (h.pairs.map (pairClass F)).Nodup
  length : h.length = h.pairs.length

variable {F} {h g : Hash K V} {k : K} {v : V} {b i : ℕ} {chain : List (Entry K V)} {e : Entry K V}

theorem Valid.init : Valid F (init : Hash K V) where
  prime := show 0 < hashPrimes.length by decide
  size := rfl
  bucket := Chains.inPlace_replicate
  index := Chains.inPlace_replicate
  distinct := List.nodup_nil
  length := rfl

theorem limit_pos (hp : h.primeIndex < hashPrimes.length) : 0 < h.limit := by
  have : ∀ p ∈ hashPrimes, 0 < p := by decide
  rw [limit, List.getD_eq_getElem?_getD, List.getElem?_eq_getElem hp]
  exact this _ (List.getElem_mem hp)

theorem keyIndex_eq {k' : K} (hk : F.classOf k = F.classOf k') :
    h.keyIndex F k = h.keyIndex F k' := by
  rw [keyIndex, keyIndex, F.hash_eq _ _ (HashFns.classOf_eq.mp hk)]

theorem exists_chain (hp : h.primeIndex < hashPrimes.length) (hs : h.entries.length = h.limit)
    (k : K) : ∃ chain, h.entries[h.keyIndex F k]? = some chain ∧
      h.entries.getD (h.keyIndex F k) [] = chain := by
  have hlt : h.keyIndex F k < h.entries.length := hs ▸ Nat.mod_lt _ (limit_pos hp)
  have hc := List.getElem?_eq_getElem hlt
  exact ⟨_, hc, by rw [List.getD_eq_getElem?_getD, hc]; rfl⟩

/-- The entry of a key is in the chain of the key, and nowhere else. -/
theorem Valid.toMap_eq_none (hv : Valid F h) (hc : h.entries[h.keyIndex F k]? = some chain)
    (hn : ∀ e ∈ chain, F.keyEqual e.key k = false) : toMap F h (F.classOf k) = none := by
  refine lookup_eq_none.mpr fun p hp hk => ?_
  obtain ⟨e, he, rfl⟩ := List.mem_map.mp hp
  have hk : F.classOf e.key = F.classOf k := hk
  have := hn e (hv.bucket.mem he (by rw [keyIndex_eq hk]; exact hc))
  rw [HashFns.classOf_eq.mp hk] at this
  cases this

theorem Valid.toMap_eq_some (hv : Valid F h) (hc : h.entries[b]? = some chain)
    (hi : chain[i]? = some e) : toMap F h (F.classOf e.key) = some e.pair := by
  refine (lookup_eq_some hv.distinct).mpr ⟨List.mem_map_of_mem ?_, rfl⟩
  exact List.mem_flatten.mpr ⟨chain, List.mem_of_getElem? hc, List.mem_of_getElem? hi⟩

theorem Valid.of_getEntry_none (hv : Valid F h) (hg : h.getEntry F k = none) :
    toMap F h (F.classOf k) = none := by
  obtain ⟨chain, hc, hd⟩ := exists_chain (F := F) hv.prime hv.size k
  simp only [getEntry, hd, Option.map_eq_none_iff, List.findIdx?_eq_none_iff] at hg
  exact hv.toMap_eq_none hc hg

theorem Valid.of_getEntry (hv : Valid F h) (hg : h.getEntry F k = some (b, i)) :
    ∃ chain e, h.entries[b]? = some chain ∧ chain[i]? = some e ∧
      F.classOf e.key = F.classOf k := by
  obtain ⟨chain, hc, hd⟩ := exists_chain (F := F) hv.prime hv.size k
  simp only [getEntry, hd, Option.map_eq_some_iff, Prod.mk.injEq] at hg
  obtain ⟨j, hj, rfl, rfl⟩ := hg
  obtain ⟨hlt, he, -⟩ := List.findIdx?_eq_some_iff_getElem.mp hj
  exact ⟨chain, _, hc, List.getElem?_eq_getElem hlt, HashFns.classOf_eq.mpr he⟩

theorem Valid.toMap_eq (hv : Valid F h) (k : K) : toMap F h (F.classOf k) =
    ((h.getEntry F k).bind h.entryAt).map Entry.pair := by
  cases hg : h.getEntry F k with
  | none => exact hv.of_getEntry_none hg
  | some place =>
    obtain ⟨chain, e, hc, hi, hk⟩ := hv.of_getEntry hg
    rw [← hk, hv.toMap_eq_some hc hi]
    simp [entryAt, hc, hi]

theorem Valid.isSome_getEntry (hv : Valid F h) (k : K) :
    (h.getEntry F k).isSome = (toMap F h (F.classOf k)).isSome := by
  rw [hv.toMap_eq, Option.isSome_map]
  cases hg : h.getEntry F k with
  | none => rfl
  | some place =>
    obtain ⟨chain, e, hc, hi, hk⟩ := hv.of_getEntry hg
    simp [entryAt, hc, hi]

theorem Valid.get_eq (hv : Valid F h) (k : K) :
    h.get F k = (toMap F h (F.classOf k)).map Prod.snd := by
  rw [get, hv.toMap_eq, Option.map_map]
  rfl

theorem Valid.length_eq (hv : Valid F h) : h.length = {q | toMap F h q ≠ none}.ncard := by
  rw [hv.length]
  exact (ncard_lookup hv.distinct).symm

theorem Valid.cons (hv : Valid F h) (hc : h.entries[h.keyIndex F k]? = some chain)
    (hn : toMap F h (F.classOf k) = none) (u : BitVec 64) :
    let g : Hash K V := { h with
      entries := h.entries.set (h.keyIndex F k) (h.newEntry F k v :: chain)
      usedIndexesSize := u
      length := h.length + 1 }
    Valid F g ∧ toMap F g = Function.update (toMap F h) (F.classOf k) (some (k, v)) := by
  intro g
  have hp : g.pairs.Perm ((k, v) :: h.pairs) := (Chains.perm_cons hc).map Entry.pair
  have hd : (g.pairs.map (pairClass F)).Nodup := by
    refine (hp.map _).nodup_iff.mpr (List.nodup_cons.mpr ⟨fun hm => ?_, hv.distinct⟩)
    obtain ⟨p, hp, hk⟩ := List.mem_map.mp hm
    exact lookup_eq_none.mp hn p hp hk
  refine ⟨⟨hv.prime, ?_, ?_, ?_, hd, ?_⟩, (lookup_perm hd hp).trans lookup_cons⟩
  · exact List.length_set.trans hv.size
  · refine hv.bucket.set fun e he => ?_
    rcases List.mem_cons.mp he with rfl | he
    · rfl
    · exact hv.bucket _ _ hc e he
  · refine hv.index.set fun e he => ?_
    rcases List.mem_cons.mp he with rfl | he
    · rfl
    · exact hv.index _ _ hc e he
  · rw [hp.length_eq, List.length_cons, ← hv.length]

theorem Valid.deleteEntry (hv : Valid F h) (hc : h.entries[b]? = some chain)
    (hi : chain[i]? = some e) :
    ∃ g, h.deleteEntry (b, i) = some g ∧ g.primeIndex = h.primeIndex ∧
      g.entries = h.entries.set b (chain.eraseIdx i) ∧ Valid F g ∧
      toMap F g = Function.update (toMap F h) (F.classOf e.key) none := by
  have hidx : e.index = b := hv.index b chain hc e (List.mem_of_getElem? hi)
  let g : Hash K V := { h with
    entries := h.entries.set b (chain.eraseIdx i)
    length := h.length - 1
    usedIndexesSize := if i = 0 then h.usedIndexesSize - 1 else h.usedIndexesSize }
  have hp : h.pairs.Perm (e.pair :: g.pairs) := (Chains.perm_eraseIdx hc hi).map Entry.pair
  have hd := (hp.map (pairClass F)).nodup_iff.mp hv.distinct
  have hg : Valid F g := by
    refine ⟨hv.prime, ?_, ?_, ?_, (List.nodup_cons.mp hd).2, ?_⟩
    · exact List.length_set.trans hv.size
    · exact hv.bucket.set fun a ha => hv.bucket b chain hc a (List.mem_of_mem_eraseIdx ha)
    · exact hv.index.set fun a ha => hv.index b chain hc a (List.mem_of_mem_eraseIdx ha)
    · have := hp.length_eq
      rw [List.length_cons, ← hv.length] at this
      exact Nat.sub_eq_of_eq_add this
  exact ⟨g, by simp [Hash.deleteEntry, hc, hi, hidx, g], rfl, rfl, hg,
    lookup_of_perm_cons hv.distinct hp⟩

theorem Valid.setValue (hv : Valid F h) (hc : h.entries[b]? = some chain)
    (hi : chain[i]? = some e) (v : V) :
    let g : Hash K V := { h with
      entries := h.entries.set b (chain.set i { e with value := v }) }
    Valid F g ∧ toMap F g = Function.update (toMap F h) (F.classOf e.key) (some (e.key, v)) := by
  intro g
  let r := (h.entries.set b (chain.eraseIdx i)).flatten.map Entry.pair
  have hp : h.pairs.Perm (e.pair :: r) := (Chains.perm_eraseIdx hc hi).map Entry.pair
  have hs : g.pairs.Perm ((e.key, v) :: r) := (Chains.perm_set hc hi _).map Entry.pair
  have hd : (g.pairs.map (pairClass F)).Nodup :=
    (hs.map (pairClass F)).nodup_iff.mpr ((hp.map (pairClass F)).nodup_iff.mp hv.distinct)
  have hm : ∀ {a}, a ∈ chain.set i { e with value := v } → a ∈ chain ∨ a = { e with value := v } :=
    List.mem_or_eq_of_mem_set
  have he := List.mem_of_getElem? hi
  refine ⟨⟨hv.prime, ?_, ?_, ?_, hd, ?_⟩, ?_⟩
  · exact List.length_set.trans hv.size
  · refine hv.bucket.set fun a ha => ?_
    rcases hm ha with ha | rfl
    · exact hv.bucket b chain hc a ha
    · exact hv.bucket b chain hc e he
  · refine hv.index.set fun a ha => ?_
    rcases hm ha with ha | rfl
    · exact hv.index b chain hc a ha
    · exact hv.index b chain hc e he
  · exact hv.length.trans (hp.length_eq.trans hs.length_eq.symm)
  · rw [toMap, toMap, lookup_perm hd hs, lookup_perm hv.distinct hp, lookup_cons, lookup_cons]
    exact (Function.update_idem _ _ _).symm

/-- What the loop of `hash_rehash` has moved so far. -/
structure Moved (F : HashFns K) (h g : Hash K V) (l : List (Entry K V)) : Prop where
  primeIndex : g.primeIndex = h.primeIndex
  length : g.length = h.length
  size : g.entries.length = h.entries.length
  bucket : Chains.InPlace (fun e => h.keyIndex F e.key) g.entries
  index : Chains.InPlace Entry.index g.entries
  perm : g.pairs.Perm (l.map Entry.pair)

theorem Moved.rehashEntry (hp : h.primeIndex < hashPrimes.length)
    (hs : h.entries.length = h.limit) {l : List (Entry K V)} (hm : Moved F h g l)
    (e : Entry K V) : Moved F h (g.rehashEntry F e) (e :: l) := by
  have hk : g.keyIndex F e.key = h.keyIndex F e.key := by
    rw [keyIndex, keyIndex, limit, limit, hm.primeIndex]
  have hg : g.primeIndex < hashPrimes.length := hm.primeIndex ▸ hp
  have hgs : g.entries.length = g.limit := by rw [hm.size, hs, limit, limit, hm.primeIndex]
  obtain ⟨chain, hc, hd⟩ := exists_chain (F := F) hg hgs e.key
  simp only [Hash.rehashEntry, hd]
  refine ⟨hm.primeIndex, hm.length, List.length_set.trans hm.size, ?_, ?_, ?_⟩
  · refine hm.bucket.set fun a ha => ?_
    rcases List.mem_cons.mp ha with rfl | ha
    · exact hk.symm
    · exact hm.bucket _ _ hc a ha
  · refine hm.index.set fun a ha => ?_
    rcases List.mem_cons.mp ha with rfl | ha
    · rfl
    · exact hm.index _ _ hc a ha
  · exact ((Chains.perm_cons hc).map Entry.pair).trans (hm.perm.cons e.pair)

theorem Moved.foldl (hp : h.primeIndex < hashPrimes.length) (hs : h.entries.length = h.limit)
    {l m : List (Entry K V)} (hm : Moved F h g l) :
    Moved F h (m.foldl (Hash.rehashEntry F) g) (m.reverse ++ l) := by
  induction m generalizing g l with
  | nil => exact hm
  | cons e m ih =>
    rw [List.foldl_cons, List.reverse_cons, List.append_assoc]
    exact ih (hm.rehashEntry hp hs e)

theorem Valid.rehash (hv : Valid F h) {n : ℕ} (hr : h.rehash F n = some g) :
    Valid F g ∧ g.pairs.Perm h.pairs ∧ toMap F g = toMap F h := by
  unfold Hash.rehash at hr
  split at hr
  · rename_i hn
    let new : Hash K V := { h with
      primeIndex := n
      usedIndexesSize := 0
      entries := List.replicate (hashPrimes.getD n 0) [] }
    have hs : new.entries.length = new.limit := List.length_replicate
    have h₀ : Moved F new new [] :=
      ⟨rfl, rfl, rfl, Chains.inPlace_replicate, Chains.inPlace_replicate,
        by simp [new, pairs]⟩
    have hm := h₀.foldl (m := h.entries.flatten) hn hs
    rw [List.foldl_flatten, Option.some.inj hr, List.append_nil] at hm
    have hp : g.pairs.Perm h.pairs :=
      hm.perm.trans ((List.reverse_perm _).map Entry.pair)
    have hd := (hp.map (pairClass F)).nodup_iff.mpr hv.distinct
    have hl : g.limit = new.limit := by rw [limit, limit, hm.primeIndex]
    refine ⟨⟨hm.primeIndex ▸ hn, ?_, ?_, hm.index, hd, ?_⟩, hp, lookup_perm hd hp⟩
    · rw [hm.size, hs, hl]
    · intro b c hc e he
      have hk : new.keyIndex F e.key = b := hm.bucket b c hc e he
      change g.keyIndex F e.key = b
      rw [← hk, keyIndex, keyIndex, hl]
    · rw [hm.length, hp.length_eq]
      exact hv.length
  · cases hr

theorem rehash_eq_none {n : ℕ} (hr : h.rehash F n = none) : hashPrimes.length ≤ n := by
  unfold rehash at hr
  split at hr
  · cases hr
  · exact Nat.le_of_not_lt ‹_›

theorem Valid.setEntryIfNotExists (hv : Valid F h) {ok : Bool}
    (hs : h.setEntryIfNotExists F k v = (g, ok)) :
    Valid F g ∧ Map.step F (toMap F h) (.set k v) = (toMap F g, .bool ok) := by
  obtain ⟨chain, hc, hd⟩ := exists_chain (F := F) hv.prime hv.size k
  rw [Map.step]
  cases chain with
  | nil =>
    simp only [Hash.setEntryIfNotExists, hd] at hs
    cases hs
    have hn := hv.toMap_eq_none hc nofun
    obtain ⟨hg, hm⟩ := hv.cons (v := v) hc hn (h.usedIndexesSize + 1)
    exact ⟨hg, by rw [if_pos hn, hm]⟩
  | cons top chain =>
    simp only [Hash.setEntryIfNotExists, hd] at hs
    split at hs
    · rename_i ha
      cases hs
      obtain ⟨e, he, hk⟩ := List.any_eq_true.mp ha
      obtain ⟨i, hi⟩ := List.mem_iff_getElem?.mp he
      have hs := hv.toMap_eq_some hc hi
      rw [HashFns.classOf_eq.mpr hk] at hs
      exact ⟨hv, if_neg (by rw [hs]; nofun)⟩
    · rename_i ha
      cases hs
      have hn := hv.toMap_eq_none hc fun e he => by
        simpa using mt (fun hk => List.any_eq_true.mpr ⟨e, he, hk⟩) ha
      obtain ⟨hg, hm⟩ := hv.cons (v := v) hc hn h.usedIndexesSize
      exact ⟨hg, by rw [if_pos hn, hm]⟩

theorem Valid.set (hv : Valid F h) {ok : Bool} (hs : h.set F k v = some (g, ok)) :
    Valid F g ∧ Map.step F (toMap F h) (.set k v) = (toMap F g, .bool ok) := by
  unfold Hash.set at hs
  split at hs
  · obtain ⟨h', hr, hs⟩ := Option.bind_eq_some_iff.mp hs
    obtain ⟨hv', -, hm⟩ := hv.rehash hr
    rw [← hm]
    exact hv'.setEntryIfNotExists (Option.some.inj hs)
  · exact hv.setEntryIfNotExists (Option.some.inj hs)

/-- The next prime is needed and there is none. -/
def Exhausted (h : Hash K V) : Prop :=
  h.isOverload = true ∧ hashPrimes.length ≤ h.primeIndex + 1

theorem exhausted_of_set (hs : h.set F k v = none) : h.Exhausted := by
  unfold Hash.set at hs
  split at hs
  · rename_i ho
    refine ⟨ho, ?_⟩
    cases hr : h.rehash F (h.primeIndex + 1) with
    | none => exact rehash_eq_none hr
    | some h' => simp [hr] at hs
  · simp at hs

theorem Valid.put (hv : Valid F h) (hp : h.put F k v = some g) :
    Valid F g ∧ Map.step F (toMap F h) (.put k v) = (toMap F g, .unit) := by
  unfold Hash.put at hp
  cases hg : h.getEntry F k with
  | none =>
    rw [hg] at hp
    obtain ⟨⟨g', ok⟩, hs, hp⟩ := Option.bind_eq_some_iff.mp hp
    obtain ⟨hv', hm⟩ := hv.set hs
    have hn := hv.of_getEntry_none hg
    rw [Map.step, if_pos hn] at hm
    obtain ⟨hm', rfl⟩ : _ ∧ true = ok := by simpa using hm
    cases hp
    refine ⟨hv', ?_⟩
    rw [Map.step, hn, ← hm']
    rfl
  | some place =>
    obtain ⟨chain, e, hc, hi, hk⟩ := hv.of_getEntry hg
    have hd : h.entries.getD place.1 [] = chain := by rw [List.getD_eq_getElem?_getD, hc]; rfl
    have he : h.entryAt place = some e := by simp [entryAt, hc, hi]
    rw [hg] at hp
    obtain ⟨hv', hm⟩ := hv.setValue hc hi v
    simp only [he, hd, Option.map_some, Option.some.injEq] at hp
    subst hp
    refine ⟨hv', ?_⟩
    rw [Map.step, hm, ← hk, hv.toMap_eq_some hc hi]
    rfl

theorem Valid.exhausted_of_put (hv : Valid F h) (hp : h.put F k v = none) : h.Exhausted := by
  unfold Hash.put at hp
  cases hg : h.getEntry F k with
  | none =>
    rw [hg] at hp
    cases hs : h.set F k v with
    | none => exact exhausted_of_set hs
    | some r =>
      obtain ⟨g, ok⟩ := r
      obtain ⟨-, hm⟩ := hv.set hs
      rw [Map.step, if_pos (hv.of_getEntry_none hg)] at hm
      obtain ⟨-, rfl⟩ : _ ∧ true = ok := by simpa using hm
      simp [hs] at hp
  | some place =>
    obtain ⟨chain, e, hc, hi, hk⟩ := hv.of_getEntry hg
    have he : h.entryAt place = some e := by simp [entryAt, hc, hi]
    simp [hg, he] at hp

theorem Valid.delete (hv : Valid F h) (k : K) : ∃ g ok, h.delete F k = some (g, ok) ∧ Valid F g ∧
    Map.step F (toMap F h) (.delete k) = (toMap F g, .bool ok) := by
  unfold Hash.delete
  cases hg : h.getEntry F k with
  | none =>
    refine ⟨h, false, rfl, hv, ?_⟩
    have hn := hv.of_getEntry_none hg
    rw [Map.step, hn, ← hn, Function.update_eq_self, hn]
    rfl
  | some place =>
    obtain ⟨chain, e, hc, hi, hk⟩ := hv.of_getEntry hg
    obtain ⟨g, hd, -, -, hv', hm⟩ := hv.deleteEntry hc hi
    refine ⟨g, true, congrArg (Option.map (·, true)) hd, hv', ?_⟩
    rw [Map.step, hm, ← hk, hv.toMap_eq_some hc hi]
    rfl

/-- The assertion in `hash_delete_entry` holds for the top of a chain, until the chain is empty. -/
theorem Valid.purgeChain (hv : Valid F h) (hc : h.entries[b]? = some chain) :
    ∃ g, Hash.purgeChain b chain.length h = some g ∧ g.primeIndex = h.primeIndex ∧ Valid F g ∧
      g.entries[b]? = some [] := by
  induction chain generalizing h with
  | nil => exact ⟨h, rfl, rfl, hv, hc⟩
  | cons e chain ih =>
    obtain ⟨g, hd, hp, he, hg, -⟩ := hv.deleteEntry (i := 0) hc rfl
    have hgc : g.entries[b]? = some chain := by
      rw [he, List.getElem?_set_self (List.getElem?_eq_some_iff.mp hc).1]
      rfl
    obtain ⟨g', hg', hp', hv', hc'⟩ := ih hg hgc
    refine ⟨g', ?_, hp'.trans hp, hv', hc'⟩
    rw [List.length_cons, Hash.purgeChain, hd]
    exact hg'

theorem Valid.purge (hv : Valid F h) : h.purge = some Hash.init := by
  suffices hl : ∀ (l : List ℕ) (g : Hash K V), Valid F g → g.primeIndex = h.primeIndex →
      (∀ i ∈ l, i < h.limit) → (l.foldlM (fun h index => do
        let h ← Hash.purgeChain index (h.entries.getD index []).length h
        return { h with entries := h.entries.set index [] }) g : Option (Hash K V)).isSome by
    obtain ⟨g, hg⟩ := Option.isSome_iff_exists.mp
      (hl (List.range h.limit) h hv rfl fun i hi => List.mem_range.mp hi)
    rw [Hash.purge, purgeWithoutShrink, hg]
    rfl
  intro l
  induction l with
  | nil => exact fun g _ _ _ => rfl
  | cons b l ih =>
    intro g hg hp hlt
    have hb : b < g.entries.length := by
      rw [hg.size, limit, hp]
      exact hlt b List.mem_cons_self
    have hc := List.getElem?_eq_getElem hb
    have hd : g.entries.getD b [] = g.entries[b] := by rw [List.getD_eq_getElem?_getD, hc]; rfl
    obtain ⟨g', hpc, hp', hg', hc'⟩ := hg.purgeChain hc
    have hset : g'.entries.set b [] = g'.entries := by
      obtain ⟨hlt, he⟩ := List.getElem?_eq_some_iff.mp hc'
      rw [← he, List.set_getElem_self]
    rw [List.foldlM_cons, hd, hpc]
    simp only [Option.pure_def, Option.bind_eq_bind, Option.bind_some, hset]
    exact ih g' hg' (hp'.trans hp) fun i hi => hlt i (List.mem_cons_of_mem _ hi)

/-- Every operation does what it does to the finite map. -/
theorem Valid.step (hv : Valid F h) {op : Op K V} {r : Result V} (hs : h.step F op = some (g, r)) :
    Valid F g ∧ Map.step F (toMap F h) op = (toMap F g, r) := by
  cases op with
  | set k v =>
    obtain ⟨⟨g', ok⟩, hs', he⟩ := Option.map_eq_some_iff.mp hs
    cases he
    exact hv.set hs'
  | put k v =>
    obtain ⟨g', hp, he⟩ := Option.map_eq_some_iff.mp hs
    cases he
    exact hv.put hp
  | delete k =>
    obtain ⟨g', ok, hd, hg, hm⟩ := hv.delete k
    simp only [Hash.step, hd, Option.map_some, Option.some.injEq] at hs
    cases hs
    exact ⟨hg, hm⟩
  | purge =>
    simp only [Hash.step, hv.purge, Option.map_some, Option.some.injEq] at hs
    cases hs
    exact ⟨.init, rfl⟩
  | get k =>
    cases hs
    exact ⟨hv, by rw [Map.step, hv.get_eq]⟩
  | has k =>
    cases hs
    exact ⟨hv, by rw [Map.step, Hash.has, hv.isSome_getEntry]⟩
  | length =>
    cases hs
    exact ⟨hv, by rw [Map.step, hv.length_eq]⟩

/-- An operation goes wrong only when the table cannot grow. -/
theorem Valid.exhausted (hv : Valid F h) {op : Op K V} (hs : h.step F op = none) :
    h.Exhausted := by
  cases op with
  | set k v => exact exhausted_of_set (Option.map_eq_none_iff.mp hs)
  | put k v => exact hv.exhausted_of_put (Option.map_eq_none_iff.mp hs)
  | delete k =>
    obtain ⟨g', ok, hd, -⟩ := hv.delete k
    simp [Hash.step, hd] at hs
  | purge => simp [Hash.step, hv.purge] at hs
  | _ => cases hs

theorem Valid.run (hv : Valid F h) {ops : List (Op K V)} {rs : List (Result V)}
    (hr : h.run F ops = some (g, rs)) :
    Valid F g ∧ Map.run F (toMap F h) ops = (toMap F g, rs) := by
  induction ops generalizing h rs with
  | nil => cases hr; exact ⟨hv, rfl⟩
  | cons op ops ih =>
    obtain ⟨⟨h', r⟩, hs, hb⟩ := Option.bind_eq_some_iff.mp hr
    obtain ⟨⟨g', rs'⟩, hr', he⟩ := Option.bind_eq_some_iff.mp hb
    cases he
    obtain ⟨hv', hm⟩ := hv.step hs
    obtain ⟨hg, hm'⟩ := ih hv' hr'
    refine ⟨hg, ?_⟩
    simp only [Map.run, hm, hm']

/-- What holds of a table after operations with these results. -/
structure FiniteMap (F : HashFns K) (ops : List (Op K V)) (rs : List (Result V))
    (h : Hash K V) : Prop where
  /-- The results, and the map the table stands for, are those of the finite map. -/
  run : Map.run F (fun _ => none) ops = (toMap F h, rs)
  /-- Every entry lies in the bucket of its key, and no key occurs twice. -/
  valid : Valid F h
  /-- Growing the table keeps every entry. -/
  grow : ∀ n g, h.rehash F n = some g → Valid F g ∧ g.pairs.Perm h.pairs ∧ toMap F g = toMap F h
  /-- The next operation can go wrong only at the end of `hash_primes`. -/
  step : ∀ op, h.step F op = none → h.Exhausted

/-- The hash table is a finite map, whatever the hash function does with unequal keys. -/
theorem finiteMap_of_run {ops : List (Op K V)} {rs : List (Result V)}
    (hr : (init : Hash K V).run F ops = some (h, rs)) : FiniteMap F ops rs h := by
  obtain ⟨hv, hm⟩ := Valid.run .init hr
  exact ⟨hm, hv, fun n g hg => hv.rehash hg, fun op hs => hv.exhausted hs⟩

/-- All the keys in one bucket. -/
def collide : HashFns ℕ where
  hashFn := fun _ => 0
  keyEqual := fun a b => a == b
  equivalence := ⟨fun _ => beq_self_eq_true _, fun h => beq_iff_eq.mpr (beq_iff_eq.mp h).symm,
    fun h h' => beq_iff_eq.mpr ((beq_iff_eq.mp h).trans (beq_iff_eq.mp h'))⟩
  hash_eq := fun _ _ _ => rfl

/-- The last deletion of the chain lets the number of used buckets run under. -/
theorem finiteMap_of_run_collide :
    FiniteMap collide [.set 1 10, .set 2 20, .delete 2, .delete 1, .put 3 30, .length]
      [.bool true, .bool true, .bool true, .bool true, .unit, .length 1]
      { primeIndex := 1, usedIndexesSize := 1, length := 1
        entries := [⟨0, 3, 30⟩] :: List.replicate 30 [] } :=
  finiteMap_of_run (by decide)

end Hash

end InetLisp
