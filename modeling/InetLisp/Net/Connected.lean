import InetLisp.Lib.Loop
import InetLisp.Lib.Search
import InetLisp.Net.Neighborhood

/-! # The nodes connected to a root

An iterator goes from a root through the neighborhoods of the nodes, and keeps the nodes
that occurred and a list of nodes that it still has to look at. It gives each node of the
connected component of the root once.
-/

namespace InetLisp

open Lib Relation

/-- `connected_node_iter_t`; a list is given from its last element on. -/
structure ConnectedNodeIter where
  root : ℕ
  nodeNeighborhoodHash : NodeNeighborhoodHash
  occurredNodeSet : List ℕ := []
  remainingNodeList : List ℕ := []
  deriving DecidableEq, Repr

namespace ConnectedNodeIter

section Definitions

variable (nodeCtor : ℕ → Option NodeCtor) (net : Net)

/-- The body of the loop in `take_node`. -/
def pushNeighbor (h : NodeNeighborhood) (remaining : List ℕ) (i : ℕ) : List ℕ :=
  match h.get i with
  | some neighbor => neighbor.endNode :: remaining
  | none => remaining

def takeNode (self : ConnectedNodeIter) (node : ℕ) : Option ConnectedNodeIter := do
  let h ← self.nodeNeighborhoodHash.get node
  let ctor ← net.ctorOf nodeCtor h.node
  return { self with
    occurredNodeSet := node :: self.occurredNodeSet
    remainingNodeList := (List.range ctor.arity).foldl (pushNeighbor h) self.remainingNodeList }

def first (self : ConnectedNodeIter) : Option (Option ℕ × ConnectedNodeIter) := do
  let self ← self.takeNode nodeCtor net self.root
  return (some self.root, self)

/-- `connected_node_iter_next`, on the list of remaining nodes. -/
def nextOf (self : ConnectedNodeIter) : List ℕ → Option (Option ℕ × ConnectedNodeIter)
  | [] => some (none, { self with remainingNodeList := [] })
  | node :: l =>
    if node ∈ self.occurredNodeSet then nextOf self l
    else do
      let self ← takeNode nodeCtor net { self with remainingNodeList := l } node
      return (some node, self)

def next (self : ConnectedNodeIter) : Option (Option ℕ × ConnectedNodeIter) :=
  self.nextOf nodeCtor net self.remainingNodeList

/-- The loop of `connected_node_array`: the node it has, with the iterator, and the array. -/
abbrev Loop := (Option ℕ × ConnectedNodeIter) × List ℕ

def more (s : Loop) : Bool := s.1.1.isSome

def push (s : Loop) : Except Unit Loop :=
  match s.1.2.next nodeCtor net with
  | some r => .ok (r, s.2 ++ s.1.1.toList)
  | none => .error ()

/-- `connected_node_array` ends with this array. -/
def ConnectedNodeArray (root : ℕ) (hash : NodeNeighborhoodHash) (array : List ℕ) : Prop :=
  ∃ start last, first nodeCtor net { root := root, nodeNeighborhoodHash := hash } = some start ∧
    Ends more (push nodeCtor net) (start, []) (.ok ((none, last), array))

end Definitions

end ConnectedNodeIter

namespace Net

variable {nodeCtor : ℕ → Option NodeCtor} {net : Net} {nodes l : List ℕ} {x y root : ℕ}

/-- Some port of the one node is connected to some port of the other. -/
def Adjacent (nodeCtor : ℕ → Option NodeCtor) (net : Net) (nodes : List ℕ) (x y : ℕ) : Prop :=
  ∃ i j, (x, i) ∈ net.ports nodeCtor nodes ∧ (y, j) ∈ net.ports nodeCtor nodes ∧
    net.Connected (x, i) (y, j)

/-- The connected component of the root, the root first and each node once. -/
structure IsComponent (nodeCtor : ℕ → Option NodeCtor) (net : Net) (nodes : List ℕ) (root : ℕ)
    (l : List ℕ) : Prop where
  first : l.head? = some root
  nodup : l.Nodup
  mem : ∀ x, x ∈ l ↔ x ∈ nodes ∧ ReflTransGen (net.Adjacent nodeCtor nodes) root x

/-- What the search goes through: connections of a node to itself lead nowhere. -/
def Leads (nodeCtor : ℕ → Option NodeCtor) (net : Net) (nodes : List ℕ) (x y : ℕ) : Prop :=
  ∃ nb, net.IsNeighbor nodeCtor nodes nb ∧ nb.startNode = x ∧ nb.endNode = y

theorem Leads.adjacent (h : net.Leads nodeCtor nodes x y) : net.Adjacent nodeCtor nodes x y := by
  obtain ⟨nb, hnb, rfl, rfl⟩ := h
  exact ⟨_, _, hnb.source, hnb.target, hnb.connected⟩

theorem Adjacent.reflTransGen (h : net.Adjacent nodeCtor nodes x y) :
    ReflTransGen (net.Leads nodeCtor nodes) x y := by
  obtain ⟨i, j, hi, hj, hc⟩ := h
  by_cases hxy : x = y
  · rw [hxy]
  · exact .single ⟨⟨x, i, j, y⟩, ⟨hxy, hi, hj, hc⟩, rfl, rfl⟩

theorem reflTransGen_leads : ReflTransGen (net.Leads nodeCtor nodes) x y ↔
    ReflTransGen (net.Adjacent nodeCtor nodes) x y := by
  constructor
  · exact ReflTransGen.mono (fun _ _ => Leads.adjacent) x y
  · intro h
    induction h with
    | refl => exact .refl
    | tail _ hyz ih => exact ih.trans hyz.reflTransGen

theorem mem_of_leads (hroot : root ∈ nodes) (h : ReflTransGen (net.Leads nodeCtor nodes) root x) :
    x ∈ nodes := by
  induction h with
  | refl => exact hroot
  | tail _ hyz _ =>
    obtain ⟨nb, hnb, -, rfl⟩ := hyz
    exact (mem_ports.mp hnb.target).1

end Net

namespace ConnectedNodeIter

open Net

variable {nodeCtor : ℕ → Option NodeCtor} {net : Net} {nodes l : List ℕ} {x root n : ℕ}
  {self : ConnectedNodeIter} {hash : NodeNeighborhoodHash} {h : NodeNeighborhood}

theorem foldl_pushNeighbor (h : NodeNeighborhood) (remaining indexes : List ℕ) :
    ∃ l, indexes.foldl (pushNeighbor h) remaining = l ++ remaining ∧
      ∀ y, y ∈ l ↔ ∃ i ∈ indexes, ∃ nb, h.get i = some nb ∧ nb.endNode = y := by
  induction indexes using List.reverseRecOn with
  | nil => exact ⟨[], rfl, by simp⟩
  | append_singleton indexes i ih =>
    obtain ⟨l, hl, hmem⟩ := ih
    rw [List.foldl_append, hl, List.foldl_cons, List.foldl_nil, pushNeighbor]
    cases hi : h.get i with
    | none =>
      refine ⟨l, rfl, fun y => (hmem y).trans ⟨?_, ?_⟩⟩
      · rintro ⟨j, hj, hnb⟩
        exact ⟨j, List.mem_append_left [i] hj, hnb⟩
      · rintro ⟨j, hj, nb, hnb, hy⟩
        rcases List.mem_append.mp hj with hj | hj
        · exact ⟨j, hj, nb, hnb, hy⟩
        · rw [List.mem_singleton.mp hj, hi] at hnb
          cases hnb
    | some nb =>
      refine ⟨nb.endNode :: l, rfl, fun y => ?_⟩
      rw [List.mem_cons, hmem]
      constructor
      · rintro (rfl | ⟨j, hj, hnb⟩)
        · exact ⟨i, by simp, nb, hi, rfl⟩
        · exact ⟨j, List.mem_append_left [i] hj, hnb⟩
      · rintro ⟨j, hj, nb', hnb', hy⟩
        rcases List.mem_append.mp hj with hj | hj
        · exact .inr ⟨j, hj, nb', hnb', hy⟩
        · rw [List.mem_singleton.mp hj, hi] at hnb'
          obtain rfl := Option.some.inj hnb'
          exact .inl hy.symm

/-- The hash table has the neighborhoods of the nodes. -/
def Covers (nodeCtor : ℕ → Option NodeCtor) (net : Net) (nodes : List ℕ)
    (hash : NodeNeighborhoodHash) : Prop :=
  ∀ x ∈ nodes, ∃ h, hash.get x = some h ∧ h.Files nodeCtor net nodes x

section Search

variable (hw : net.WellFormed nodeCtor nodes) (hc : Covers nodeCtor net nodes hash)
  (hh : self.nodeNeighborhoodHash = hash)

include hw hc hh

theorem takeNode_spec (hx : x ∈ nodes) :
    ∃ l, self.takeNode nodeCtor net x = some { self with
        occurredNodeSet := x :: self.occurredNodeSet
        remainingNodeList := l ++ self.remainingNodeList } ∧
      ∀ y, y ∈ l ↔ net.Leads nodeCtor nodes x y := by
  obtain ⟨h, hget, hf⟩ := hc x hx
  obtain ⟨ctor, hctor⟩ := hw.exists_ctor hx
  obtain ⟨l, hl, hmem⟩ :=
    foldl_pushNeighbor h self.remainingNodeList (List.range ctor.arity)
  refine ⟨l, ?_, fun y => (hmem y).trans ⟨?_, ?_⟩⟩
  · rw [takeNode, hh, hget]
    simp only [Option.bind_eq_bind, Option.bind_some, hf.node, hctor, hl]
    rfl
  · rintro ⟨i, -, nb, hnb, rfl⟩
    obtain ⟨-, z, hz, hnew⟩ := (hf.get i nb).mp hnb
    obtain ⟨hs, -, hn⟩ := hw.isNeighbor hx hz hnew
    exact ⟨nb, hn, hs, rfl⟩
  · rintro ⟨nb, hn, rfl, rfl⟩
    -- what is filed may be another connection between the two nodes
    have hy := (mem_ports.mp hn.target).1
    obtain ⟨o, ho, hne⟩ := hw.exists_new hx hy
    obtain ⟨nb', rfl⟩ := Option.ne_none_iff_exists'.mp (hne nb hn rfl rfl)
    obtain ⟨hs, he, hn'⟩ := hw.isNeighbor hx hy ho
    obtain ⟨-, ctor', hctor', hlt⟩ := mem_ports.mp hn'.source
    rw [hs, hctor, Option.some.injEq] at hctor'
    subst hctor'
    exact ⟨_, List.mem_range.mpr hlt, nb', (hf.get _ _).mpr ⟨rfl, _, hy, ho⟩, he⟩

/-- The iterator gives a node that did not occur yet, or has nothing left. -/
theorem nextOf_spec (hroot : root ∈ nodes)
    (hs : Search (net.Leads nodeCtor nodes) root self.occurredNodeSet l) :
    ∃ o next, self.nextOf nodeCtor net l = some (o, next) ∧ next.nodeNeighborhoodHash = hash ∧
      next.occurredNodeSet = o.toList ++ self.occurredNodeSet ∧
      Search (net.Leads nodeCtor nodes) root next.occurredNodeSet next.remainingNodeList ∧
      (o = none → next.remainingNodeList = []) := by
  induction l with
  | nil => exact ⟨none, { self with remainingNodeList := [] }, rfl, hh, rfl, hs, fun _ => rfl⟩
  | cons x l ih =>
    by_cases hx : x ∈ self.occurredNodeSet
    · rw [nextOf, if_pos hx]
      exact ih (hs.skip hx)
    · have hmem := mem_of_leads hroot hs.reach_top
      have hh' : ConnectedNodeIter.nodeNeighborhoodHash { self with remainingNodeList := l } = hash :=
        hh
      obtain ⟨m, hm, hleads⟩ := takeNode_spec hw hc hh' hmem
      rw [nextOf, if_neg hx, hm]
      exact ⟨some x, _, rfl, hh, rfl, hs.take hx hleads, nofun⟩

end Search

/-- The nodes that occurred are those in the array and the one that the loop has. -/
structure LoopInv (nodeCtor : ℕ → Option NodeCtor) (net : Net) (nodes : List ℕ) (root : ℕ)
    (hash : NodeNeighborhoodHash) (s : Loop) : Prop where
  hash : s.1.2.nodeNeighborhoodHash = hash
  search : Search (net.Leads nodeCtor nodes) root s.1.2.occurredNodeSet s.1.2.remainingNodeList
  array : s.1.2.occurredNodeSet = (s.2 ++ s.1.1.toList).reverse
  finished : s.1.1 = none → s.1.2.remainingNodeList = []

section Run

variable (hw : net.WellFormed nodeCtor nodes) (hc : Covers nodeCtor net nodes hash)
  (hroot : root ∈ nodes)

include hw hc hroot

theorem LoopInv.of_first : ∃ start, first nodeCtor net ⟨root, hash, [], []⟩ = some start ∧
    LoopInv nodeCtor net nodes root hash (start, []) := by
  have hh : ConnectedNodeIter.nodeNeighborhoodHash ⟨root, hash, [], []⟩ = hash := rfl
  obtain ⟨l, hl, hleads⟩ := takeNode_spec hw hc hh hroot
  rw [first, hl]
  refine ⟨_, rfl, rfl, ?_, rfl, nofun⟩
  change Search _ root [root] (l ++ [])
  rw [List.append_nil]
  exact .start hleads

/-- One more node is in the array after each round. -/
theorem LoopInv.push {s : Loop} (hs : LoopInv nodeCtor net nodes root hash s)
    (hm : more s = true) : ∃ t, push nodeCtor net s = .ok t ∧
      LoopInv nodeCtor net nodes root hash t ∧
        nodes.length - t.2.length < nodes.length - s.2.length := by
  obtain ⟨⟨o, self⟩, array⟩ := s
  obtain ⟨n, rfl⟩ := Option.isSome_iff_exists.mp hm
  obtain ⟨o, next, hnext, hhash, hocc, hsearch, hfin⟩ :=
    nextOf_spec hw hc hs.hash hroot hs.search
  refine ⟨((o, next), array ++ [n]), ?_, ⟨hhash, hsearch, ?_, hfin⟩, ?_⟩
  · rw [ConnectedNodeIter.push, ConnectedNodeIter.next, hnext]
    rfl
  · rw [hocc, hs.array]
    cases o <;> simp
  · have hle := hs.search.length_le fun x hx => mem_of_leads hroot hx
    rw [hs.array] at hle
    simp only [Option.toList_some, List.length_reverse, List.length_append,
      List.length_singleton] at hle ⊢
    omega

theorem exists_connectedNodeArray : ∃ array, ConnectedNodeArray nodeCtor net root hash array ∧
    net.IsComponent nodeCtor nodes root array := by
  obtain ⟨start, hfirst, hstart⟩ := LoopInv.of_first hw hc hroot
  obtain ⟨⟨⟨o, last⟩, array⟩, hends, hlast, hm⟩ :=
    exists_ends_ok (fun _ hs hm => hs.push hw hc hroot hm) hstart
  obtain rfl : o = none := Option.not_isSome_iff_eq_none.mp (ne_true_of_eq_false hm)
  have hocc : last.occurredNodeSet = array.reverse := by simpa using hlast.array
  have hsearch : Search (net.Leads nodeCtor nodes) root array.reverse [] := by
    have := hlast.search
    rwa [hlast.finished rfl, hocc] at this
  refine ⟨array, ⟨start, last, hfirst, hends⟩, ?_, ?_, fun x => ?_⟩
  · rw [← List.getLast?_reverse]
    exact hsearch.last
  · exact List.nodup_reverse.mp hsearch.nodup
  · rw [← List.mem_reverse, hsearch.mem_iff, ← reflTransGen_leads]
    exact ⟨fun hx => ⟨mem_of_leads hroot hx, hx⟩, And.right⟩

end Run

/-- The printed net is the connected component of its root. -/
theorem connectedNodeArray_isComponent {a : NodeAllocator}
    (hw : net.WellFormed nodeCtor a.allocatedNodeArray) (hroot : root ∈ a.allocatedNodeArray) :
    ∃ hash, a.buildNodeNeighborhoodHash nodeCtor net = some hash ∧
      ∃ array, ConnectedNodeArray nodeCtor net root hash array ∧
        net.IsComponent nodeCtor a.allocatedNodeArray root array := by
  obtain ⟨hash, hbuild, hc⟩ := NodeNeighborhood.exists_buildNodeNeighborhoodHash hw
  exact ⟨hash, hbuild, exists_connectedNodeArray hw hc hroot⟩

theorem connectedNodeArray_isComponent_doubled :
    ∃ hash, NodeNeighborhood.doubledAllocator.buildNodeNeighborhoodHash NodeNeighborhood.doubledCtor
        NodeNeighborhood.doubledNet = some hash ∧
      ∃ array, ConnectedNodeArray NodeNeighborhood.doubledCtor NodeNeighborhood.doubledNet 1 hash
          array ∧
        NodeNeighborhood.doubledNet.IsComponent NodeNeighborhood.doubledCtor
          NodeNeighborhood.doubledAllocator.allocatedNodeArray 1 array :=
  connectedNodeArray_isComponent
    (NodeNeighborhood.allocatedNodeArray_doubled ▸ NodeNeighborhood.wellFormed_doubled)
    (NodeNeighborhood.allocatedNodeArray_doubled ▸ List.mem_cons_self)

end ConnectedNodeIter

end InetLisp
