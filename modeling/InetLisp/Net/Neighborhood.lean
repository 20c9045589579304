import InetLisp.Lib.Lookup
import InetLisp.Net.Node
import InetLisp.Net.NodeAllocator
import Mathlib.Data.List.ProdSigma

/-! # The neighborhoods of nodes

To print a net, every node is compared with every other one, port by port. The first
two ports found to be connected are filed at the index of the port the search started
from. Nodes are named by their ids, and memory that is freed has no value.
-/

namespace InetLisp

open Lib

structure NodeNeighbor where
  startNode : ℕ
  startPortIndex : ℕ
  endPortIndex : ℕ
  endNode : ℕ
  deriving DecidableEq, Repr

structure NodeNeighborhood where
  node : ℕ
  nodeNeighborArray : Slots NodeNeighbor := []
  deriving DecidableEq, Repr

namespace Net

section Definitions

variable (nodeCtor : ℕ → Option NodeCtor) (net : Net)

/-- `as_principal_wire(value)->oppsite` -/
def oppsite (p : ℕ) : Option ℕ := (net.getPrincipalWire p).toOption.bind PrincipalWire.oppsite

def isLive : Value → Bool
  | .principalWire p => (net.getPrincipalWire p).isOk
  | _ => true

/-- `walk`, also of `NULL`, which is no wire. -/
def walk : Option Value → Option (Option Value)
  | none => some none
  | some v => do
    let v ← InetLisp.walk net.wires v
    if net.isLive v then some (some v) else none

def isConnected (x y : Option Value) : Option Bool := do
  match ← net.walk x, ← net.walk y with
  | some x, some y => return isConnectedWalked net.oppsite x y
  | _, _ => return false

/-- `node->ctor` -/
def ctorOf (n : ℕ) : Option NodeCtor := (net.getCtor n).toOption.bind nodeCtor

/-- `node_get_value`; a port that was never set holds `NULL`. -/
def nodeGetValue (n i : ℕ) : Option (Option Value) :=
  match net.getValue n i with
  | .ok v => some (some v)
  | .error .nullPointer => some none
  | .error _ => none

/-- `is_connected` of what two ports hold. -/
def portsConnected (p q : ℕ × ℕ) : Option Bool := do
  let x ← net.nodeGetValue p.1 p.2
  let y ← net.nodeGetValue q.1 q.2
  net.isConnected x y

/-- `node_neighbor_new_maybe`; the product has the order of the two loops. -/
def nodeNeighborNewMaybe (startNode endNode : ℕ) : Option (Option NodeNeighbor) :=
  if startNode = endNode then some none
  else do
    let startCtor ← net.ctorOf nodeCtor startNode
    let endCtor ← net.ctorOf nodeCtor endNode
    let found ← (List.range startCtor.arity ×ˢ List.range endCtor.arity).findM? fun (i, j) =>
      net.portsConnected (startNode, i) (endNode, j)
    return found.map fun (i, j) => ⟨startNode, i, j, endNode⟩

end Definitions

end Net

namespace NodeNeighborhood

def get (self : NodeNeighborhood) (index : ℕ) : Option NodeNeighbor :=
  self.nodeNeighborArray.get index

variable (nodeCtor : ℕ → Option NodeCtor) (net : Net)

def maybeAddNode (self : NodeNeighborhood) (node : ℕ) : Option NodeNeighborhood := do
  match ← net.nodeNeighborNewMaybe nodeCtor self.node node with
  | none => return self
  | some neighbor =>
    return { self with
      nodeNeighborArray := self.nodeNeighborArray.set neighbor.startPortIndex neighbor }

/-- The neighborhood of a node among these: the inner loop of `build_node_neighborhood_hash`. -/
def build (nodes : List ℕ) (node : ℕ) : Option NodeNeighborhood :=
  nodes.foldlM (maybeAddNode nodeCtor net) { node := node }

end NodeNeighborhood

/-- A hash table from nodes to their neighborhoods, by its values. -/
abbrev NodeNeighborhoodHash := List NodeNeighborhood

def NodeAllocator.buildNodeNeighborhoodHash (nodeCtor : ℕ → Option NodeCtor) (net : Net)
    (a : NodeAllocator) : Option NodeNeighborhoodHash :=
  a.allocatedNodeArray.mapM (NodeNeighborhood.build nodeCtor net a.allocatedNodeArray)

/-- `hash_get` -/
def NodeNeighborhoodHash.get (hash : NodeNeighborhoodHash) (node : ℕ) : Option NodeNeighborhood :=
  lookup NodeNeighborhood.node hash node

namespace Net

def Connected (net : Net) (p q : ℕ × ℕ) : Prop := net.portsConnected p q = some true

instance (net : Net) : DecidableRel net.Connected := fun _ _ => inferInstanceAs (Decidable (_ = _))

def ports (nodeCtor : ℕ → Option NodeCtor) (net : Net) (nodes : List ℕ) : List (ℕ × ℕ) :=
  nodes.flatMap fun n =>
    (List.range ((net.ctorOf nodeCtor n).elim 0 NodeCtor.arity)).map fun i => (n, i)

/-- The nodes have ctors, the wires at their ports lead to an end that is not freed memory, and
each port is connected to at most one other port. -/
structure WellFormed (nodeCtor : ℕ → Option NodeCtor) (net : Net) (nodes : List ℕ) : Prop where
  ctor : ∀ n ∈ nodes, net.ctorOf nodeCtor n ≠ none
  walk : ∀ p ∈ net.ports nodeCtor nodes, (net.nodeGetValue p.1 p.2).bind net.walk ≠ none
  unique : ∀ p ∈ net.ports nodeCtor nodes, ∀ q ∈ net.ports nodeCtor nodes,
    ∀ r ∈ net.ports nodeCtor nodes, p ≠ q → p ≠ r → net.Connected p q → net.Connected p r → q = r

/-- Two ports of different nodes that are connected. -/
structure IsNeighbor (nodeCtor : ℕ → Option NodeCtor) (net : Net) (nodes : List ℕ)
    (nb : NodeNeighbor) : Prop where
  distinct : nb.startNode ≠ nb.endNode
  source : (nb.startNode, nb.startPortIndex) ∈ net.ports nodeCtor nodes
  target : (nb.endNode, nb.endPortIndex) ∈ net.ports nodeCtor nodes
  connected : net.Connected (nb.startNode, nb.startPortIndex) (nb.endNode, nb.endPortIndex)

variable {nodeCtor : ℕ → Option NodeCtor} {net : Net} {nodes l : List ℕ} {nb nb' : NodeNeighbor}
  {p q : ℕ × ℕ} {x y : ℕ}

theorem mem_ports : p ∈ net.ports nodeCtor nodes ↔
    p.1 ∈ nodes ∧ ∃ ctor, net.ctorOf nodeCtor p.1 = some ctor ∧ p.2 < ctor.arity := by
  obtain ⟨n, i⟩ := p
  simp only [ports, List.mem_flatMap, List.mem_map, List.mem_range, Prod.mk.injEq]
  constructor
  · rintro ⟨n, hn, i, hi, rfl, rfl⟩
    cases hc : net.ctorOf nodeCtor n with
    | none => rw [hc] at hi; cases hi
    | some ctor => rw [hc] at hi; exact ⟨hn, ctor, rfl, hi⟩
  · rintro ⟨hn, ctor, hc, hi⟩
    exact ⟨n, hn, i, by rwa [hc], rfl, rfl⟩

theorem WellFormed.portsConnected_ne_none (hw : net.WellFormed nodeCtor nodes)
    (hp : p ∈ net.ports nodeCtor nodes) (hq : q ∈ net.ports nodeCtor nodes) :
    net.portsConnected p q ≠ none := by
  have hp := hw.walk p hp
  have hq := hw.walk q hq
  obtain ⟨v, hv⟩ := Option.ne_none_iff_exists'.mp hp
  obtain ⟨w, hw⟩ := Option.ne_none_iff_exists'.mp hq
  obtain ⟨x, hx, hxv⟩ := Option.bind_eq_some_iff.mp hv
  obtain ⟨y, hy, hyw⟩ := Option.bind_eq_some_iff.mp hw
  rw [portsConnected, hx, hy]
  simp only [Option.bind_eq_bind, Option.bind_some, isConnected, hxv, hyw]
  cases v <;> cases w <;> exact Option.some_ne_none _

theorem findM?_eq_find? {α : Type} {f : α → Option Bool} {l : List α}
    (h : ∀ a ∈ l, f a ≠ none) : l.findM? f = some (l.find? fun a => f a = some true) := by
  induction l with
  | nil => rfl
  | cons a l ih =>
    have ih := ih fun b hb => h b (List.mem_cons_of_mem a hb)
    have ha := h a List.mem_cons_self
    cases hf : f a with
    | none => exact (ha hf).elim
    | some b => cases b <;> simp [List.findM?, hf, ih]

theorem pairwise_product (m n : ℕ) :
    (List.range m ×ˢ List.range n).Pairwise fun a b => a.1 ≤ b.1 := by
  refine List.pairwise_flatMap.mpr ⟨fun i _ => ?_, ?_⟩
  · rw [List.pairwise_map]
    exact List.pairwise_of_forall fun _ _ => le_rfl
  · refine List.pairwise_lt_range.imp fun {i i'} hlt => ?_
    simp only [List.mem_map]
    rintro _ ⟨j, -, rfl⟩ _ ⟨j', -, rfl⟩
    exact hlt.le

theorem rel_of_find? {α : Type} {r : α → α → Prop} {P : α → Bool} {l : List α} {a b : α}
    (hl : l.Pairwise r) (ha : l.find? P = some a) (hb : b ∈ l) (hP : P b = true) :
    a = b ∨ r a b := by
  obtain ⟨-, l₁, l₂, rfl, hnot⟩ := List.find?_eq_some_iff_append.mp ha
  rcases List.mem_append.mp hb with hb | hb
  · have := hnot b hb
    simp [hP] at this
  · rcases List.mem_cons.mp hb with rfl | hb
    · exact .inl rfl
    · exact .inr ((List.pairwise_cons.mp (List.pairwise_append.mp hl).2.1).1 b hb)

section WellFormed

variable (hw : net.WellFormed nodeCtor nodes)

include hw

theorem WellFormed.exists_ctor (hx : x ∈ nodes) :
    ∃ ctor, net.ctorOf nodeCtor x = some ctor := Option.ne_none_iff_exists'.mp (hw.ctor x hx)

/-- The first pair of connected ports, in the order of the two loops. -/
theorem WellFormed.exists_find (hx : x ∈ nodes) (hy : y ∈ nodes) (hxy : x ≠ y) :
    ∃ indexes : List (ℕ × ℕ), (∀ i j, (i, j) ∈ indexes ↔
        (x, i) ∈ net.ports nodeCtor nodes ∧ (y, j) ∈ net.ports nodeCtor nodes) ∧
      (indexes.Pairwise fun a b => a.1 ≤ b.1) ∧ net.nodeNeighborNewMaybe nodeCtor x y = some
        ((indexes.find? fun ij => net.Connected (x, ij.1) (y, ij.2)).map
          fun ij => ⟨x, ij.1, ij.2, y⟩) := by
  obtain ⟨c, hc⟩ := hw.exists_ctor hx
  obtain ⟨c', hc'⟩ := hw.exists_ctor hy
  have hmem : ∀ i j, (i, j) ∈ List.range c.arity ×ˢ List.range c'.arity ↔
      (x, i) ∈ net.ports nodeCtor nodes ∧ (y, j) ∈ net.ports nodeCtor nodes := by
    intro i j
    simp [mem_ports, List.mem_product, hx, hy, hc, hc']
  refine ⟨_, hmem, pairwise_product _ _, ?_⟩
  have hports : ∀ ij ∈ List.range c.arity ×ˢ List.range c'.arity,
      net.portsConnected (x, ij.1) (y, ij.2) ≠ none := by
    intro ij hij
    obtain ⟨hi, hj⟩ := (hmem ij.1 ij.2).mp hij
    exact hw.portsConnected_ne_none hi hj
  have hfind := findM?_eq_find? hports
  simp only [nodeNeighborNewMaybe, if_neg hxy, hc, hc', Option.bind_eq_bind, Option.bind_some,
    hfind]
  rfl

theorem WellFormed.isNeighbor (hx : x ∈ nodes) (hy : y ∈ nodes)
    (h : net.nodeNeighborNewMaybe nodeCtor x y = some (some nb)) :
    nb.startNode = x ∧ nb.endNode = y ∧ net.IsNeighbor nodeCtor nodes nb := by
  by_cases hxy : x = y
  · rw [nodeNeighborNewMaybe, if_pos hxy] at h
    cases h
  · obtain ⟨indexes, hmem, -, hfind⟩ := hw.exists_find hx hy hxy
    rw [hfind, Option.some.injEq, Option.map_eq_some_iff] at h
    obtain ⟨ij, hij, rfl⟩ := h
    obtain ⟨hi, hj⟩ := (hmem ij.1 ij.2).mp (List.mem_of_find?_eq_some hij)
    exact ⟨rfl, rfl, hxy, hi, hj, by simpa using List.find?_some hij⟩

/-- Two nodes can be compared, and a connection between them does not stay unnoticed. -/
theorem WellFormed.exists_new (hx : x ∈ nodes) (hy : y ∈ nodes) :
    ∃ o, net.nodeNeighborNewMaybe nodeCtor x y = some o ∧
      ∀ nb, net.IsNeighbor nodeCtor nodes nb → nb.startNode = x → nb.endNode = y → o ≠ none := by
  by_cases hxy : x = y
  · refine ⟨none, if_pos hxy, ?_⟩
    rintro nb hnb rfl rfl
    exact (hnb.distinct hxy).elim
  · obtain ⟨indexes, hmem, -, hfind⟩ := hw.exists_find hx hy hxy
    refine ⟨_, hfind, ?_⟩
    rintro nb hnb rfl rfl ho
    have hall := List.find?_eq_none.mp (Option.map_eq_none_iff.mp ho)
    have hnone := hall _ ((hmem nb.startPortIndex nb.endPortIndex).mpr ⟨hnb.source, hnb.target⟩)
    exact hnone (decide_eq_true hnb.connected)

theorem WellFormed.neighbor_unique (h : net.IsNeighbor nodeCtor nodes nb)
    (h' : net.IsNeighbor nodeCtor nodes nb') (hs : nb.startNode = nb'.startNode)
    (hi : nb.startPortIndex = nb'.startPortIndex) : nb = nb' := by
  obtain ⟨x, i, j, y⟩ := nb
  obtain ⟨x', i', j', y'⟩ := nb'
  obtain rfl : x = x' := hs
  obtain rfl : i = i' := hi
  have hne : (x, i) ≠ (y, j) := fun he => h.distinct (congrArg Prod.fst he)
  have hne' : (x, i) ≠ (y', j') := fun he => h'.distinct (congrArg Prod.fst he)
  have heq := hw.unique _ h.source _ h.target _ h'.target hne hne' h.connected h'.connected
  obtain ⟨rfl, rfl⟩ := Prod.mk.inj heq
  rfl

/-- Found is the connection with the least port of the first node. -/
theorem WellFormed.new_eq_some_iff (hnb : net.IsNeighbor nodeCtor nodes nb) :
    net.nodeNeighborNewMaybe nodeCtor nb.startNode nb.endNode = some (some nb) ↔
      ∀ i j, i < nb.startPortIndex → (nb.startNode, i) ∈ net.ports nodeCtor nodes →
        (nb.endNode, j) ∈ net.ports nodeCtor nodes →
          ¬ net.Connected (nb.startNode, i) (nb.endNode, j) := by
  have hx : nb.startNode ∈ nodes := (mem_ports.mp hnb.source).1
  have hy : nb.endNode ∈ nodes := (mem_ports.mp hnb.target).1
  obtain ⟨indexes, hmem, hle, hfind⟩ := hw.exists_find hx hy hnb.distinct
  have hmin : ∀ nb', net.nodeNeighborNewMaybe nodeCtor nb.startNode nb.endNode = some (some nb') →
      ∀ i j, (nb.startNode, i) ∈ net.ports nodeCtor nodes →
        (nb.endNode, j) ∈ net.ports nodeCtor nodes →
          net.Connected (nb.startNode, i) (nb.endNode, j) → nb'.startPortIndex ≤ i := by
    intro nb' hnb' i j hi hj hc
    rw [hfind, Option.some.injEq, Option.map_eq_some_iff] at hnb'
    obtain ⟨ij, hij, rfl⟩ := hnb'
    rcases rel_of_find? hle hij ((hmem i j).mpr ⟨hi, hj⟩) (decide_eq_true hc) with rfl | hle
    · exact le_rfl
    · exact hle
  constructor
  · intro h i j hlt hi hj hc
    exact absurd (hmin nb h i j hi hj hc) (not_le.mpr hlt)
  · intro h
    obtain ⟨o, ho, hne⟩ := hw.exists_new hx hy
    obtain ⟨nb', rfl⟩ := Option.ne_none_iff_exists'.mp (hne nb hnb rfl rfl)
    obtain ⟨hs, he, hnb'⟩ := hw.isNeighbor hx hy ho
    have hge : nb.startPortIndex ≤ nb'.startPortIndex := by
      by_contra hlt
      exact h _ _ (not_le.mp hlt) (hs ▸ hnb'.source) (he ▸ hnb'.target) (hs ▸ he ▸ hnb'.connected)
    have hle := hmin nb' ho _ _ hnb.source hnb.target hnb.connected
    rw [ho, hw.neighbor_unique hnb' hnb hs (le_antisymm hle hge)]

end WellFormed

end Net

namespace NodeNeighborhood

open Net

variable {nodeCtor : ℕ → Option NodeCtor} {net : Net} {nodes l : List ℕ} {h : NodeNeighborhood}
  {x : ℕ}

/-- Filed are the connections that were found to these nodes, each at its port. -/
structure Files (nodeCtor : ℕ → Option NodeCtor) (net : Net) (l : List ℕ) (x : ℕ)
    (h : NodeNeighborhood) : Prop where
  node : h.node = x
  get : ∀ i nb, h.get i = some nb ↔ nb.startPortIndex = i ∧
    ∃ y ∈ l, net.nodeNeighborNewMaybe nodeCtor x y = some (some nb)

theorem files_nil : Files nodeCtor net [] x { node := x } where
  node := rfl
  get := by simp [NodeNeighborhood.get]

theorem Files.maybeAddNode (hw : net.WellFormed nodeCtor nodes) (hl : l ⊆ nodes) (hx : x ∈ nodes)
    {y : ℕ} (hy : y ∈ nodes) (hf : Files nodeCtor net l x h) :
    ∃ h', h.maybeAddNode nodeCtor net y = some h' ∧ Files nodeCtor net (l ++ [y]) x h' := by
  obtain ⟨o, ho, -⟩ := hw.exists_new hx hy
  have hnode := hf.node
  cases o with
  | none =>
    refine ⟨h, ?_, hnode, fun i nb => ?_⟩
    · rw [NodeNeighborhood.maybeAddNode, hnode, ho]
      rfl
    · simp [hf.get, ho]
  | some nb₀ =>
    refine ⟨{ h with nodeNeighborArray := h.nodeNeighborArray.set nb₀.startPortIndex nb₀ }, ?_,
      hnode, fun i nb => ?_⟩
    · rw [NodeNeighborhood.maybeAddNode, hnode, ho]
      rfl
    have hget : NodeNeighborhood.get
        { h with nodeNeighborArray := h.nodeNeighborArray.set nb₀.startPortIndex nb₀ } i =
        if nb₀.startPortIndex = i then some nb₀ else h.get i := Slots.get_set
    obtain ⟨hs₀, -, hn₀⟩ := hw.isNeighbor hx hy ho
    rw [hget]
    constructor
    · intro hi
      split at hi
      · rename_i hi₀
        obtain rfl := Option.some.inj hi
        exact ⟨hi₀, y, by simp, ho⟩
      · obtain ⟨hi, z, hz, hnb⟩ := (hf.get i nb).mp hi
        exact ⟨hi, z, List.mem_append_left [y] hz, hnb⟩
    · rintro ⟨rfl, z, hz, hnb⟩
      rcases List.mem_append.mp hz with hz | hz
      · split
        · -- an earlier connection of the same port is the same connection
          rename_i hi
          obtain ⟨hs, -, hn⟩ := hw.isNeighbor hx (hl hz) hnb
          rw [hw.neighbor_unique hn₀ hn (hs₀.trans hs.symm) hi]
        · exact (hf.get _ nb).mpr ⟨rfl, z, hz, hnb⟩
      · obtain rfl := List.mem_singleton.mp hz
        rw [ho] at hnb
        obtain rfl := Option.some.inj (Option.some.inj hnb)
        exact if_pos rfl

theorem exists_build (hw : net.WellFormed nodeCtor nodes) (hl : l ⊆ nodes) (hx : x ∈ nodes) :
    ∃ h, build nodeCtor net l x = some h ∧ Files nodeCtor net l x h := by
  induction l using List.reverseRecOn with
  | nil => exact ⟨{ node := x }, rfl, files_nil⟩
  | append_singleton l y ih =>
    obtain ⟨h, hb, hf⟩ := ih fun z hz => hl (List.mem_append_left [y] hz)
    obtain ⟨h', hm, hf'⟩ := hf.maybeAddNode hw (fun z hz => hl (List.mem_append_left [y] hz)) hx
      (hl (List.mem_append_right l (List.mem_singleton_self y)))
    refine ⟨h', ?_, hf'⟩
    rw [build] at hb ⊢
    rw [List.foldlM_append, hb]
    simp [hm]

variable {i : ℕ}

/-- What is connected to the port is filed there, and nothing if there is no such port. -/
structure Shows (nodeCtor : ℕ → Option NodeCtor) (net : Net) (nodes : List ℕ) (x i : ℕ)
    (h : NodeNeighborhood) : Prop where
  connected : ∀ y j, (y, j) ∈ net.ports nodeCtor nodes → (x, i) ≠ (y, j) →
    net.Connected (x, i) (y, j) → h.get i = some ⟨x, i, j, y⟩
  free : (∀ q ∈ net.ports nodeCtor nodes, (x, i) ≠ q → ¬ net.Connected (x, i) q) → h.get i = none

/-- The port is connected to another node, by the least port that is connected to that node. -/
def IsFirstConnection (nodeCtor : ℕ → Option NodeCtor) (net : Net) (nodes : List ℕ) (x i : ℕ) :
    Prop :=
  ∀ y j, (y, j) ∈ net.ports nodeCtor nodes → (x, i) ≠ (y, j) → net.Connected (x, i) (y, j) →
    x ≠ y ∧ ∀ i' j', i' < i → (x, i') ∈ net.ports nodeCtor nodes →
      (y, j') ∈ net.ports nodeCtor nodes → ¬ net.Connected (x, i') (y, j')

theorem Files.get_eq_none (hw : net.WellFormed nodeCtor nodes) (hx : x ∈ nodes)
    (hf : Files nodeCtor net nodes x h)
    (hi : ∀ q ∈ net.ports nodeCtor nodes, (x, i) ≠ q → ¬ net.Connected (x, i) q) :
    h.get i = none := by
  by_contra hne
  obtain ⟨nb, hnb⟩ := Option.ne_none_iff_exists'.mp hne
  obtain ⟨rfl, y, hy, hnew⟩ := (hf.get _ nb).mp hnb
  obtain ⟨rfl, rfl, hn⟩ := hw.isNeighbor hx hy hnew
  exact hi _ hn.target (fun he => hn.distinct (congrArg Prod.fst he)) hn.connected

theorem Files.shows_iff (hw : net.WellFormed nodeCtor nodes)
    (hi : (x, i) ∈ net.ports nodeCtor nodes) (hf : Files nodeCtor net nodes x h) :
    Shows nodeCtor net nodes x i h ↔ IsFirstConnection nodeCtor net nodes x i := by
  have hx := (mem_ports.mp hi).1
  constructor
  · intro hs y j hy hne hc
    obtain ⟨-, z, hz, hnew⟩ := (hf.get _ _).mp (hs.connected y j hy hne hc)
    obtain ⟨-, rfl, hnb⟩ := hw.isNeighbor hx hz hnew
    exact ⟨hnb.distinct, (hw.new_eq_some_iff hnb).mp hnew⟩
  · refine fun hfirst => ⟨fun y j hy hne hc => ?_, hf.get_eq_none hw hx⟩
    obtain ⟨hxy, hleast⟩ := hfirst y j hy hne hc
    have hnb : net.IsNeighbor nodeCtor nodes ⟨x, i, j, y⟩ := ⟨hxy, hi, hy, hc⟩
    exact (hf.get _ _).mpr ⟨rfl, y, (mem_ports.mp hy).1, (hw.new_eq_some_iff hnb).mpr hleast⟩

theorem exists_buildNodeNeighborhoodHash {a : NodeAllocator}
    (hw : net.WellFormed nodeCtor a.allocatedNodeArray) :
    ∃ hash, a.buildNodeNeighborhoodHash nodeCtor net = some hash ∧
      ∀ x ∈ a.allocatedNodeArray, ∃ h, hash.get x = some h ∧
        Files nodeCtor net a.allocatedNodeArray x h := by
  have hbuild := fun x hx => exists_build hw (List.Subset.refl a.allocatedNodeArray) (x := x) hx
  have hnode : ∀ x ∈ a.allocatedNodeArray, ∃ h,
      build nodeCtor net a.allocatedNodeArray x = some h ∧ h.node = x :=
    fun x hx => (hbuild x hx).imp fun h hh => ⟨hh.1, hh.2.node⟩
  obtain ⟨hash, hm, hget⟩ := exists_mapM_lookup hnode
  refine ⟨hash, hm, fun x hx => ?_⟩
  obtain ⟨h, hb, hf⟩ := hbuild x hx
  exact ⟨h, (hget x hx).trans hb, hf⟩

/-- Every port of every node is shown with what it is connected to. -/
def ShowsEvery (nodeCtor : ℕ → Option NodeCtor) (net : Net) (a : NodeAllocator) : Prop :=
  ∃ hash, a.buildNodeNeighborhoodHash nodeCtor net = some hash ∧
    ∀ x ∈ a.allocatedNodeArray, ∃ h, hash.get x = some h ∧
      ∀ i, (x, i) ∈ net.ports nodeCtor a.allocatedNodeArray →
        Shows nodeCtor net a.allocatedNodeArray x i h

/-- A port is shown with what it is connected to if and only if that is the first connection
between two different nodes. -/
theorem shows_iff_isFirstConnection {a : NodeAllocator}
    (hw : net.WellFormed nodeCtor a.allocatedNodeArray) :
    ∃ hash, a.buildNodeNeighborhoodHash nodeCtor net = some hash ∧
      ∀ x ∈ a.allocatedNodeArray, ∃ h, hash.get x = some h ∧
        ∀ i, (x, i) ∈ net.ports nodeCtor a.allocatedNodeArray →
          (Shows nodeCtor net a.allocatedNodeArray x i h ↔
            IsFirstConnection nodeCtor net a.allocatedNodeArray x i) := by
  obtain ⟨hash, hbuild, hget⟩ := exists_buildNodeNeighborhoodHash hw
  refine ⟨hash, hbuild, fun x hx => ?_⟩
  obtain ⟨h, hh, hf⟩ := hget x hx
  exact ⟨h, hh, fun i hi => hf.shows_iff hw hi⟩

/-- The allocator after two nodes were allocated. -/
def doubledAllocator : NodeAllocator where
  cacheSize := 1
  nodeCount := 2
  batchSize := 2
  nodeArray := [1, 2]
  isAllocated := fun _ => true

def doubledCtor (_ : ℕ) : Option NodeCtor :=
  some { name := "cons", portInfos := ["head", "tail", "value!"].map PortInfo.fromName }

/-- Two wires of `link` join the heads and the tails of two nodes. -/
def doubledNet : Net where
  wires := [{}, {}]
  principalWires := [{ node := 1, index := 2 }, { node := 2, index := 2 }]
  nodes := [{ ctor := none },
    { ctor := some 0, valueArray := [some (.wire 0), some (.wire 1), some (.principalWire 0)] },
    { ctor := some 0, valueArray := [some (.wire 0), some (.wire 1), some (.principalWire 1)] }]

theorem allocatedNodeArray_doubled : doubledAllocator.allocatedNodeArray = [1, 2] :=
  NodeAllocator.allocatedNodeArray_eq

theorem wellFormed_doubled : doubledNet.WellFormed doubledCtor [1, 2] := by
  constructor <;> decide

theorem shows_iff_isFirstConnection_doubled :
    ∃ hash, doubledAllocator.buildNodeNeighborhoodHash doubledCtor doubledNet = some hash ∧
      ∀ x ∈ doubledAllocator.allocatedNodeArray, ∃ h, hash.get x = some h ∧
        ∀ i, (x, i) ∈ doubledNet.ports doubledCtor doubledAllocator.allocatedNodeArray →
          (Shows doubledCtor doubledNet doubledAllocator.allocatedNodeArray x i h ↔
            IsFirstConnection doubledCtor doubledNet doubledAllocator.allocatedNodeArray x i) :=
  shows_iff_isFirstConnection (allocatedNodeArray_doubled ▸ wellFormed_doubled)

/-- The tails are joined, but not shown so: only the heads are. -/
theorem not_showsEvery : ¬ ShowsEvery doubledCtor doubledNet doubledAllocator := by
  rintro ⟨hash, hbuild, hshows⟩
  rw [NodeAllocator.buildNodeNeighborhoodHash, allocatedNodeArray_doubled] at hbuild
  rw [allocatedNodeArray_doubled] at hshows
  obtain rfl : [⟨1, [some ⟨1, 0, 0, 2⟩]⟩, ⟨2, [some ⟨2, 0, 0, 1⟩]⟩] = hash :=
    Option.some.inj ((by decide : _ = _).symm.trans hbuild)
  obtain ⟨h, hget, hi⟩ := hshows 1 (by decide)
  obtain rfl : (⟨1, [some ⟨1, 0, 0, 2⟩]⟩ : NodeNeighborhood) = h := Option.some.inj hget
  have hshown := (hi 1 (by decide)).connected 2 1 (by decide) (by decide) (by decide)
  cases hshown

end NodeNeighborhood

end InetLisp
