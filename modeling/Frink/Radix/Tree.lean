import Mathlib
import Frink.Library.Forest

/-! # The radix tree

A trie over pages of tokens, kept in an arena of nodes. A child is registered under
its whole first page; an edge that a query leaves half way is cut in two, the prefix
in a new slot and the suffix in the old one.
-/

namespace Frink.Radix
open Forest

abbrev NodeId := ℕ

abbrev PageKey := List ℕ

/-- The key a query presents to the children of a node. -/
def pageKey (inputIds : List ℕ) (pageSize : ℕ) : PageKey :=
  inputIds.take (min pageSize inputIds.length)

def alignDown (a b : ℕ) : ℕ := a / b * b

/-- The length of the longest common prefix. -/
def matchLen (a b : List ℕ) : ℕ := ((a.zip b).takeWhile fun p => p.1 == p.2).length

/-- One node of the arena: the tokens of its edge and the page index of each. -/
structure Node where

  key : List ℕ
  value : List ℕ
  parent : Option NodeId
  children : AList fun _ : PageKey => NodeId

  refCount : ℕ
  timestamp : ℤ

namespace Node

def new (timestamp : ℤ) : Node := ⟨[], [], none, ∅, 0, timestamp⟩

instance : Inhabited Node := ⟨new 0⟩

def length (n : Node) : ℕ := n.key.length

def isLeaf (n : Node) : Bool := n.children.entries.isEmpty

def isRoot (n : Node) : Bool := n.parent.isNone

/-- The tokens of the edge, each with its page index. -/
def label (n : Node) : List (ℕ × ℕ) := n.key.zip n.value

end Node

/-- Slots are never reused; slot 0 is the root. -/
structure RadixTree where

  nodes : List Node
  pageSize : ℕ

def ROOT : NodeId := 0

namespace RadixTree

/-- The root is permanently protected. -/
def new (pageSize : ℕ) : Option RadixTree :=
  if 0 < pageSize then some ⟨[{ Node.new 0 with refCount := 1 }], pageSize⟩ else none

variable (t : RadixTree)

def node (id : NodeId) : Node := t.nodes.getD id default

def nodeMut (id : NodeId) (f : Node → Node) : RadixTree := { t with nodes := t.nodes.modify id f }

def parent (id : NodeId) : Option NodeId := (t.node id).parent

def label (id : NodeId) : List (ℕ × ℕ) := (t.node id).label

/-- A fresh, unlinked node. -/
def alloc (timestamp : ℤ) : RadixTree × NodeId :=
  ({ t with nodes := t.nodes ++ [Node.new timestamp] }, t.nodes.length)

/-- A node holds one page index per token. -/
def setKeyValue (id : NodeId) (key value : List ℕ) : Option RadixTree :=
  if key.length = value.length then
    some (t.nodeMut id fun n => { n with key := key, value := value })
  else none

/-- Link a node under a parent, registered by its first page. -/
def setParent (id parent : NodeId) : RadixTree :=
  let key := pageKey (t.node id).key t.pageSize
  (t.nodeMut id fun n => { n with parent := some parent }).nodeMut parent fun n =>
    { n with children := n.children.insert key id }

/-- The child a query would follow. -/
def child (id : NodeId) (inputIds : List ℕ) : Option NodeId :=
  (t.node id).children.lookup (pageKey inputIds t.pageSize)

/-- Detach a node from its parent; the slot stays. -/
def unlink (id : NodeId) : Option (RadixTree × NodeId) := do
  let parent ← (t.node id).parent
  let key := pageKey (t.node id).key t.pageSize
  let t := t.nodeMut parent fun n => { n with children := n.children.erase key }
  some (t.nodeMut id fun n => { n with parent := none }, parent)

/-- Cut a node in two at `pos`; the new node is the prefix, and both halves are
covered by the same locks. -/
def splitAt (id : NodeId) (pos : ℕ) : Option (RadixTree × NodeId) :=
  if 0 < pos ∧ pos < (t.node id).length then do
    let parent ← (t.node id).parent
    let (t', head) := t.alloc (t.node id).timestamp
    let key := (t'.node id).key
    let value := (t'.node id).value
    let t' ← t'.setKeyValue head (key.take pos) (value.take pos)
    let t' := t'.setParent head parent
    let t' := t'.nodeMut head fun n => { n with refCount := (t'.node id).refCount }
    let t' ← t'.setKeyValue id (key.drop pos) (value.drop pos)
    some (t'.setParent id head, head)
  else none

/-- The page indices from the root down to a node. -/
def pathValue (id : NodeId) : Option (List ℕ) := do
  let chunks ← climb (fun _ => t.parent)
    (fun chunks cur => some (chunks ++ [(t.node cur).value])) (t.nodes.length + 1) [] id
  some chunks.reverse.flatten

def kids (id : NodeId) : List NodeId := (t.node id).children.entries.map Sigma.snd

/-- Every reachable node except the root. -/
def walk : Option (List NodeId) := sweep t.kids (t.nodes.length + 1) [ROOT] []

/-- Every reachable leaf except the root. -/
def leaves : Option (List NodeId) := do
  let ids ← t.walk
  some (ids.filter fun id => (t.node id).isLeaf)

/-- The structural checks made at every walked node. -/
def checkStructure : Option Unit := do
  let ids ← t.walk
  if ids.all fun id =>
      (match (t.node id).parent with
        | none => false
        | some p => (t.node p).children.lookup (pageKey (t.node id).key t.pageSize) == some id) &&
      (t.node id).key.length == (t.node id).value.length &&
      (t.node id).length % t.pageSize == 0
  then some () else none

end RadixTree

section Pages

variable {a b p n : ℕ} {q k : List ℕ}

theorem pageKey_eq_take : pageKey q p = q.take p := by
  simp [pageKey, List.take_eq_take_iff]

theorem alignDown_le : alignDown a b ≤ a := Nat.div_mul_le_self a b

theorem dvd_alignDown : b ∣ alignDown a b := Nat.dvd_mul_left b (a / b)

theorem le_alignDown (h : b ∣ n) (hn : n ≤ a) : n ≤ alignDown a b := by
  obtain ⟨c, rfl⟩ := h
  rcases Nat.eq_zero_or_pos b with rfl | hb
  · simp
  · rw [alignDown, Nat.mul_comm b c]
    exact Nat.mul_le_mul_right b ((Nat.le_div_iff_mul_le hb).mpr (by rwa [Nat.mul_comm c b]))

theorem matchLen_cons_self {x : ℕ} : matchLen (x :: q) (x :: k) = matchLen q k + 1 := by
  simp [matchLen]

theorem matchLen_le_left : matchLen q k ≤ q.length := by
  refine (List.takeWhile_prefix _).length_le.trans ?_
  rw [List.length_zip]
  exact Nat.min_le_left _ _

theorem matchLen_le_right : matchLen q k ≤ k.length := by
  refine (List.takeWhile_prefix _).length_le.trans ?_
  rw [List.length_zip]
  exact Nat.min_le_right _ _

/-- A common prefix is no longer than the match. -/
theorem le_matchLen_iff (hq : n ≤ q.length) (hk : n ≤ k.length) :
    n ≤ matchLen q k ↔ q.take n = k.take n := by
  induction n generalizing q k with
  | zero => simp
  | succ n ih =>
    cases q with
    | nil => simp at hq
    | cons x q =>
      cases k with
      | nil => simp at hk
      | cons y k =>
        by_cases hxy : x = y
        · subst hxy
          rw [matchLen_cons_self, Nat.add_le_add_iff_right, ih (by simpa using hq) (by simpa using hk)]
          simp
        · simp [matchLen, hxy]

end Pages

namespace RadixTree

variable {t : RadixTree} {id j : NodeId} {f : Node → Node} {ts : ℤ}

theorem node_of_le (h : t.nodes.length ≤ id) : t.node id = default := by
  simp [node, List.getElem?_eq_none h]

theorem lt_of_parent {p : NodeId} (h : t.parent id = some p) : id < t.nodes.length := by
  by_contra hlt
  rw [parent, node_of_le (not_lt.mp hlt)] at h
  cases h

@[simp] theorem pageSize_nodeMut : (t.nodeMut id f).pageSize = t.pageSize := rfl

@[simp] theorem length_nodeMut : (t.nodeMut id f).nodes.length = t.nodes.length := by
  simp [nodeMut]

theorem node_nodeMut (h : id < t.nodes.length) :
    (t.nodeMut id f).node j = if j = id then f (t.node j) else t.node j := by
  unfold node nodeMut
  rw [List.getD_eq_getElem?_getD, List.getD_eq_getElem?_getD, List.getElem?_modify]
  by_cases hj : j = id
  · subst hj
    simp [List.getElem?_eq_getElem h]
  · simp [hj, Ne.symm hj]

@[simp] theorem alloc_snd : (t.alloc ts).2 = t.nodes.length := rfl

@[simp] theorem pageSize_alloc : (t.alloc ts).1.pageSize = t.pageSize := rfl

@[simp] theorem length_alloc : (t.alloc ts).1.nodes.length = t.nodes.length + 1 := by
  simp [alloc]

theorem node_alloc :
    (t.alloc ts).1.node j = if j = t.nodes.length then Node.new ts else t.node j := by
  unfold node alloc
  rw [List.getD_eq_getElem?_getD, List.getD_eq_getElem?_getD]
  rcases lt_trichotomy j t.nodes.length with h | h | h
  · simp [List.getElem?_append_left h, h.ne]
  · simp [h]
  · have hle : t.nodes.length + 1 ≤ j := h
    simp [h.ne', List.getElem?_eq_none h.le, List.getElem?_eq_none (by simp; exact hle :
      (t.nodes ++ [Node.new ts]).length ≤ j)]

@[simp] theorem length_setParent {p : NodeId} :
    (t.setParent id p).nodes.length = t.nodes.length := by
  simp [setParent]

@[simp] theorem pageSize_setParent {p : NodeId} : (t.setParent id p).pageSize = t.pageSize := rfl

theorem node_setParent {p : NodeId} (hid : id < t.nodes.length) (hp : p < t.nodes.length)
    (hne : p ≠ id) : (t.setParent id p).node j =
      if j = p then
        { t.node p with
          children := (t.node p).children.insert (pageKey (t.node id).key t.pageSize) id }
      else if j = id then { t.node id with parent := some p }
      else t.node j := by
  rw [setParent, node_nodeMut (by simpa using hp), node_nodeMut hid]
  by_cases hj : j = p
  · subst hj; simp [hne]
  · by_cases hji : j = id
    · subst hji; simp [hj]
    · simp [hj, hji]

/-- What a cut leaves in every slot. -/
theorem splitAt_spec {p : NodeId} {pos : ℕ} (hp : t.parent id = some p) (hpl : p < t.nodes.length)
    (hne : p ≠ id) (hlen : (t.node id).key.length = (t.node id).value.length) (hpos : 0 < pos)
    (hlt : pos < (t.node id).length) :
    ∃ t', t.splitAt id pos = some (t', t.nodes.length) ∧ t'.pageSize = t.pageSize ∧
      t'.nodes.length = t.nodes.length + 1 ∧
      ∀ j, t'.node j =
        if j = t.nodes.length then
          { key := (t.node id).key.take pos
            value := (t.node id).value.take pos
            parent := some p
            children := (∅ : AList fun _ : PageKey => NodeId).insert
              (pageKey ((t.node id).key.drop pos) t.pageSize) id
            refCount := (t.node id).refCount
            timestamp := (t.node id).timestamp }
        else if j = id then
          { t.node id with
            key := (t.node id).key.drop pos
            value := (t.node id).value.drop pos
            parent := some t.nodes.length }
        else if j = p then
          { t.node p with
            children := (t.node p).children.insert
              (pageKey ((t.node id).key.take pos) t.pageSize) t.nodes.length }
        else t.node j := by
  have hid := lt_of_parent hp
  have hp' : (t.node id).parent = some p := hp
  have hidn : id ≠ t.nodes.length := hid.ne
  have hpn : p ≠ t.nodes.length := hpl.ne
  have hn : t.nodes.length < t.nodes.length + 1 := Nat.lt_succ_self _
  have hid1 : id < t.nodes.length + 1 := Nat.lt_succ_of_lt hid
  have hp1 : p < t.nodes.length + 1 := Nat.lt_succ_of_lt hpl
  simp only [splitAt, hpos, hlt, and_self, if_true, hp', Option.bind_eq_bind, Option.bind_some,
    setKeyValue, node_alloc, alloc_snd, hidn, if_false, List.length_take, List.length_drop, hlen]
  generalize hA : ((t.alloc (t.node id).timestamp).1.nodeMut t.nodes.length fun n =>
    { n with key := (t.node id).key.take pos, value := (t.node id).value.take pos }) = A
  have hAl : A.nodes.length = t.nodes.length + 1 := by rw [← hA]; simp
  have hAp : A.pageSize = t.pageSize := by rw [← hA]; simp
  have hAn : ∀ j, A.node j = if j = t.nodes.length then
      { Node.new (t.node id).timestamp with
        key := (t.node id).key.take pos, value := (t.node id).value.take pos }
      else t.node j := by
    intro j
    rw [← hA, node_nodeMut (by simp), node_alloc]
    split <;> simp_all
  generalize hB : A.setParent t.nodes.length p = B
  have hBl : B.nodes.length = t.nodes.length + 1 := by rw [← hB]; simp [hAl]
  have hBp : B.pageSize = t.pageSize := by rw [← hB]; simp [hAp]
  have hBn : ∀ j, B.node j = if j = p then
      { t.node p with
        children := (t.node p).children.insert
          (pageKey ((t.node id).key.take pos) t.pageSize) t.nodes.length }
      else if j = t.nodes.length then
        { Node.new (t.node id).timestamp with
          key := (t.node id).key.take pos, value := (t.node id).value.take pos, parent := some p }
      else t.node j := by
    intro j
    rw [← hB, node_setParent (by rw [hAl]; exact hn) (by rw [hAl]; exact hp1) hpn]
    simp only [hAn, hAp, hpn, if_true, if_false]
    split_ifs <;> rfl
  generalize hC : (B.nodeMut t.nodes.length fun n =>
    { n with refCount := (B.node id).refCount }) = C
  have hCl : C.nodes.length = t.nodes.length + 1 := by rw [← hC]; simp [hBl]
  have hCp : C.pageSize = t.pageSize := by rw [← hC]; simp [hBp]
  have hCn : ∀ j, C.node j = if j = t.nodes.length then
      { B.node j with refCount := (t.node id).refCount } else B.node j := by
    intro j
    rw [← hC, node_nodeMut (by rw [hBl]; exact hn)]
    simp only [hBn id, hne.symm, hidn, if_false]
  generalize hD : (C.nodeMut id fun n =>
    { n with key := (t.node id).key.drop pos, value := (t.node id).value.drop pos }) = D
  have hDl : D.nodes.length = t.nodes.length + 1 := by rw [← hD]; simp [hCl]
  have hDp : D.pageSize = t.pageSize := by rw [← hD]; simp [hCp]
  have hDn : ∀ j, D.node j = if j = id then
      { C.node j with
        key := (t.node id).key.drop pos, value := (t.node id).value.drop pos }
      else C.node j := by
    intro j
    rw [← hD, node_nodeMut (by rw [hCl]; exact hid1)]
  refine ⟨D.setParent id t.nodes.length, rfl, hDp, by simp [hDl], fun j => ?_⟩
  rw [node_setParent (by rw [hDl]; exact hid1) (by rw [hDl]; exact hn) hidn.symm]
  by_cases hj : j = t.nodes.length
  · subst hj
    simp [hDn, hCn, hBn, hDp, hidn, hidn.symm, hpn.symm, Node.new]
  · by_cases hji : j = id
    · subst hji
      simp [hDn, hCn, hBn, hj, hne.symm]
    · by_cases hjp : j = p
      · subst hjp
        simp [hDn, hCn, hBn, hj, hji]
      · simp [hDn, hCn, hBn, hj, hji, hjp]

/-- What a new leaf leaves in every slot. -/
theorem attach_spec {p : NodeId} {key value : List ℕ} (hpl : p < t.nodes.length)
    (hlen : key.length = value.length) :
    ∃ t', ((t.alloc ts).1.setKeyValue t.nodes.length key value).map
        (fun t' => t'.setParent t.nodes.length p) = some t' ∧
      t'.pageSize = t.pageSize ∧ t'.nodes.length = t.nodes.length + 1 ∧
      ∀ j, t'.node j =
        if j = t.nodes.length then
          { Node.new ts with key := key, value := value, parent := some p }
        else if j = p then
          { t.node p with
            children := (t.node p).children.insert (pageKey key t.pageSize) t.nodes.length }
        else t.node j := by
  have hpn : p ≠ t.nodes.length := hpl.ne
  have hp1 : p < t.nodes.length + 1 := Nat.lt_succ_of_lt hpl
  simp only [setKeyValue, hlen, if_true, Option.map_some]
  refine ⟨_, rfl, rfl, by simp, fun j => ?_⟩
  rw [node_setParent (by simp) (by simpa using hp1) hpn]
  simp only [node_nodeMut (show t.nodes.length < (t.alloc ts).1.nodes.length by simp), node_alloc,
    hpn, if_true, if_false, pageSize_nodeMut, pageSize_alloc]
  split_ifs <;> simp_all

theorem unlink_spec {p : NodeId} (hp : t.parent id = some p) (hpl : p < t.nodes.length)
    (hne : p ≠ id) :
    ∃ t', t.unlink id = some (t', p) ∧ t'.pageSize = t.pageSize ∧
      t'.nodes.length = t.nodes.length ∧
      ∀ j, t'.node j =
        if j = id then { t.node id with parent := none }
        else if j = p then
          { t.node p with
            children := (t.node p).children.erase (pageKey (t.node id).key t.pageSize) }
        else t.node j := by
  have hid := lt_of_parent hp
  have hp' : (t.node id).parent = some p := hp
  simp only [unlink, hp', Option.bind_eq_bind, Option.bind_some]
  refine ⟨_, rfl, rfl, by simp, fun j => ?_⟩
  rw [node_nodeMut (by simpa using hid), node_nodeMut hpl]
  by_cases hj : j = id
  · subst hj; simp [hne.symm]
  · by_cases hjp : j = p
    · subst hjp; simp [hj]
    · simp [hj, hjp]

end RadixTree

end Frink.Radix
