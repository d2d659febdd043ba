import Mathlib
import Frink.Radix.Tree

/-! # The plain radix prefix cache

One currency, full pages, evicted from unlocked leaves in order of age. Every token in
the tree is either evictable or protected, and moves between the two when the lock
depth of its node leaves or reaches zero.
-/

namespace Frink.Radix
open Forest

structure MatchResult where

  cachedLen : ℕ
  node : NodeId

/-- `cachedLen` tokens of the inserted span were in the tree before. -/
structure InsertResult where

  cachedLen : ℕ
  node : NodeId
  insertedLen : ℕ

structure RadixCache where

  tree : RadixTree
  evictableSize : ℕ
  protectedSize : ℕ
  clock : ℤ

namespace RadixTree

/-- Stamp a node the walk touched. -/
def stamp (t : RadixTree) (id : NodeId) (tic : ℤ) : RadixTree :=
  t.nodeMut id fun n => { n with timestamp := tic }

/-- How much of a child's edge the query agrees with, in whole pages. -/
def matched (t : RadixTree) (child : NodeId) (rest : List ℕ) : ℕ :=
  alignDown (matchLen (t.node child).key rest) t.pageSize

/-- The walk from `node`, the tokens before `prefixLen` being matched. -/
def walkFrom (tic : ℤ) (inputIds : List ℕ) :
    ℕ → RadixTree → NodeId → ℕ → Option (RadixTree × NodeId × ℕ)
  | 0, _, _, _ => none
  | fuel + 1, t, node, prefixLen =>
      if prefixLen < inputIds.length then
        match t.child node (inputIds.drop prefixLen) with
        | none => some (t, node, prefixLen)
        | some child =>
            let matched := t.matched child (inputIds.drop prefixLen)
            if matched ≠ (t.node child).length then do
              let (t, head) ← t.splitAt child matched
              some (t.stamp head tic, head, prefixLen + matched)
            else walkFrom tic inputIds fuel (t.stamp child tic) child (prefixLen + matched)
      else some (t, node, prefixLen)

/-- The same walk with no stamp and no split. -/
def peekFrom (t : RadixTree) (inputIds : List ℕ) : ℕ → NodeId → ℕ → Option ℕ
  | 0, _, _ => none
  | fuel + 1, node, prefixLen =>
      if prefixLen < inputIds.length then
        match t.child node (inputIds.drop prefixLen) with
        | none => some prefixLen
        | some child =>
            let matched := t.matched child (inputIds.drop prefixLen)
            if matched ≠ (t.node child).length then some (prefixLen + matched)
            else peekFrom t inputIds fuel child (prefixLen + matched)
      else some prefixLen

end RadixTree

namespace RadixCache

def new (pageSize : ℕ) : Option RadixCache := do
  let tree ← RadixTree.new pageSize
  some ⟨tree, 0, 0, 0⟩

variable (c : RadixCache)

/-- The page indices from the root down to a node. -/
def matchedIndices (node : NodeId) : Option (List ℕ) := c.tree.pathValue node

def treeWalk (inputIds : List ℕ) : Option (RadixCache × NodeId × ℕ) := do
  let tic := c.clock + 1
  let (t, node, prefixLen) ←
    RadixTree.walkFrom tic inputIds (inputIds.length + 1) c.tree ROOT 0
  some ({ c with tree := t, clock := tic }, node, prefixLen)

def peekCachedLen (inputIds : List ℕ) : Option ℕ :=
  c.tree.peekFrom inputIds (inputIds.length + 1) ROOT 0

def matchPrefix (inputIds : List ℕ) : Option (RadixCache × MatchResult) := do
  let (c, node, cachedLen) ← c.treeWalk inputIds
  some (c, ⟨cachedLen, node⟩)

/-- Publish `indices` as the pages of `inputIds`; a trailing partial page is dropped. -/
def insertPrefix (inputIds indices : List ℕ) : Option (RadixCache × InsertResult) :=
  if inputIds.length = indices.length then do
    let insertLen := alignDown inputIds.length c.tree.pageSize
    let inputIds := inputIds.take insertLen
    let indices := indices.take insertLen
    let (c, node, prefixLen) ← c.treeWalk inputIds
    if prefixLen ≠ insertLen then
      let (t, newNode) := c.tree.alloc c.clock
      let t ← t.setKeyValue newNode (inputIds.drop prefixLen) (indices.drop prefixLen)
      let t := t.setParent newNode node
      let c := { c with
        tree := t
        evictableSize := c.evictableSize + (t.node newNode).length }
      some (c, ⟨prefixLen, newNode, insertLen⟩)
    else some (c, ⟨prefixLen, node, insertLen⟩)
  else none

def lockNode (c : RadixCache) (cur : NodeId) : Option RadixCache :=
  let n := c.tree.node cur
  let c :=
    if n.refCount = 0 then
      { c with
        evictableSize := c.evictableSize - n.length
        protectedSize := c.protectedSize + n.length }
    else c
  some { c with tree := c.tree.nodeMut cur fun n => { n with refCount := n.refCount + 1 } }

def unlockNode (c : RadixCache) (cur : NodeId) : Option RadixCache :=
  let n := c.tree.node cur
  if 0 < n.refCount then
    let t := c.tree.nodeMut cur fun n => { n with refCount := n.refCount - 1 }
    if n.refCount - 1 = 0 then
      some { c with
        tree := t
        evictableSize := c.evictableSize + n.length
        protectedSize := c.protectedSize - n.length }
    else some { c with tree := t }
  else none

/-- Protect a node and every node between it and the root. -/
def lock (node : NodeId) : Option RadixCache :=
  climb (fun c => c.tree.parent) lockNode (c.tree.nodes.length + 1) c node

/-- Release one lock taken by `lock`. -/
def unlock (node : NodeId) : Option RadixCache :=
  climb (fun c => c.tree.parent) unlockNode (c.tree.nodes.length + 1) c node

/-- The age of a node, ties broken by slot: what the eviction heap orders by. -/
def age (t : RadixTree) (id : NodeId) : ℤ ×ₗ ℕ := toLex ((t.node id).timestamp, id)

/-- Pop the oldest node until `size` tokens are freed. -/
def evictFrom (size : ℕ) :
    ℕ → RadixCache → List (ℤ ×ₗ ℕ) → List ℕ → ℕ → Option (RadixCache × List ℕ)
  | 0, _, _, _, _ => none
  | fuel + 1, c, heap, evicted, evictedSize =>
      if evictedSize < size then do
        let top ← heap.min?
        let id := (ofLex top).2
        let n := c.tree.node id
        let (t, parent) ← c.tree.unlink id
        let p := t.node parent
        let heap := heap.erase top
        let heap := if p.isLeaf && p.refCount == 0 && !p.isRoot then age t parent :: heap else heap
        evictFrom size fuel { c with tree := t, evictableSize := c.evictableSize - n.length }
          heap (evicted ++ n.value) (evictedSize + n.length)
      else some (c, evicted)

/-- Evict unlocked leaves, oldest first, until at least `size` tokens are freed. -/
def evict (size : ℕ) : Option (RadixCache × List ℕ) :=
  if size = 0 then some (c, [])
  else if size ≤ c.evictableSize then do
    let leaves ← c.tree.leaves
    let heap := (leaves.filter fun id => (c.tree.node id).refCount == 0).map (age c.tree)
    evictFrom size (c.tree.nodes.length + 1) c heap [] 0
  else none

/-- The two buckets recomputed from the nodes. -/
def checkIntegrity : Option Unit := do
  let _ ← c.tree.checkStructure
  let ids ← c.tree.walk
  let evictable := ((ids.filter fun id => (c.tree.node id).refCount == 0).map
    fun id => (c.tree.node id).length).sum
  let protected' := ((ids.filter fun id => (c.tree.node id).refCount != 0).map
    fun id => (c.tree.node id).length).sum
  if evictable = c.evictableSize ∧ protected' = c.protectedSize then some () else none

end RadixCache

end Frink.Radix

/-! ## One radix cache per caller namespace

A salt names a namespace, and a namespace is a tree of its own over the one pool of pages.
A lookup stays in its tree; an eviction takes from every tree in turn.
-/

namespace Frink.Radix

/-- A node, and which namespace's tree it lives in. -/
structure Handle where
  salt : Option ℕ
  node : NodeId

structure SaltedMatch where
  cachedLen : ℕ
  handle : Handle

structure SaltedInsert where
  cachedLen : ℕ
  insertedLen : ℕ
  handle : Handle

structure SaltedRadix where
  pageSize : ℕ
  namespaces : AList fun _ : Option ℕ => RadixCache
  order : List (Option ℕ)
  evictCursor : ℕ

namespace SaltedRadix

def new (pageSize : ℕ) : SaltedRadix := ⟨pageSize, ∅, [], 0⟩

variable (s : SaltedRadix)

def setTree (salt : Option ℕ) (c : RadixCache) : SaltedRadix :=
  { s with namespaces := s.namespaces.insert salt c }

/-- The tree of a namespace, created on first use. -/
def tree (salt : Option ℕ) : Option (RadixCache × SaltedRadix) :=
  match s.namespaces.lookup salt with
  | some c => some (c, s)
  | none => do
    let c ← RadixCache.new s.pageSize
    some (c, { s.setTree salt c with order := s.order ++ [salt] })

def matchPrefix (salt : Option ℕ) (inputIds : List ℕ) : Option (SaltedRadix × SaltedMatch) := do
  let (c, s) ← s.tree salt
  let (c, m) ← c.matchPrefix inputIds
  some (s.setTree salt c, ⟨m.cachedLen, salt, m.node⟩)

/-- How much of `inputIds` the namespace holds; a namespace nobody used holds nothing. -/
def cachedLen (salt : Option ℕ) (inputIds : List ℕ) : Option ℕ :=
  match s.namespaces.lookup salt with
  | some c => c.peekCachedLen inputIds
  | none => some 0

def insertPrefix (salt : Option ℕ) (inputIds indices : List ℕ) :
    Option (SaltedRadix × SaltedInsert) := do
  let (c, s) ← s.tree salt
  let (c, r) ← c.insertPrefix inputIds indices
  some (s.setTree salt c, ⟨r.cachedLen, r.insertedLen, salt, r.node⟩)

def matchedIndices (handle : Handle) : Option (List ℕ) := do
  let (c, _) ← s.tree handle.salt
  c.matchedIndices handle.node

def lock (handle : Handle) : Option SaltedRadix := do
  let (c, s) ← s.tree handle.salt
  let c ← c.lock handle.node
  some (s.setTree handle.salt c)

def unlock (handle : Handle) : Option SaltedRadix := do
  let (c, s) ← s.tree handle.salt
  let c ← c.unlock handle.node
  some (s.setTree handle.salt c)

/-- Tokens held by nodes no request is reading, across every namespace. -/
def evictableSize : ℕ := (s.namespaces.entries.map fun e => e.2.evictableSize).sum

/-- Tokens held by nodes some request is reading, across every namespace. -/
def protectedSize : ℕ := (s.namespaces.entries.map fun e => e.2.protectedSize).sum

/-- One turn for each of the next namespaces, a whole node from each that can give one. -/
def evictPass (size : ℕ) : ℕ → SaltedRadix → List ℕ → Bool →
    Option (SaltedRadix × List ℕ × Bool)
  | 0, s, freed, progress => some (s, freed, progress)
  | n + 1, s, freed, progress => do
    let salt ← s.order[s.evictCursor % s.order.length]?
    let s := { s with evictCursor := (s.evictCursor + 1) % 2 ^ 64 }
    let cache ← s.namespaces.lookup salt
    if cache.evictableSize = 0 then evictPass size n s freed progress
    else do
      let (cache, got) ← cache.evict 1
      let s := s.setTree salt cache
      if size ≤ (freed ++ got).length then some (s, freed ++ got, true)
      else evictPass size n s (freed ++ got) true

def evictLoop (size : ℕ) : ℕ → SaltedRadix → List ℕ → Option (SaltedRadix × List ℕ)
  | 0, _, _ => none
  | fuel + 1, s, freed => do
    let (s, freed, progress) ← evictPass size s.order.length s freed false
    if size ≤ freed.length || !progress then some (s, freed) else evictLoop size fuel s freed

/-- Free at least `size` tokens, or everything there is, from each namespace in turn. -/
def evict (size : ℕ) : Option (SaltedRadix × List ℕ) :=
  if size = 0 || s.order.isEmpty then some (s, [])
  else evictLoop size (s.evictableSize + 1) s []

end SaltedRadix

end Frink.Radix
