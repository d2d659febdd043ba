import Frink.Radix.Surgery

/-! # Walking the tree

The read-only walk finds the longest stored prefix of its query. The real walk ends at
the same length, and leaves behind a tree that differs by stamps and at most one cut.
-/

namespace Frink.Radix
open Forest

namespace RadixTree

variable {t t' t'' : RadixTree} {i j p c node : NodeId} {q ids : List ℕ} {L S : List (ℕ × ℕ)}
  {k m n fuel : ℕ} {tic : ℤ}

section Longest

/-- The longest aligned prefix of `q` that is spelled from a node downwards. -/
def LongestBelow (t : RadixTree) (node : NodeId) (q : List ℕ) (k : ℕ) : Prop :=
  (∃ L j, Spells t.parent t.label node L j ∧ k ≤ L.length ∧ t.pageSize ∣ k ∧
    (L.take k).map Prod.fst <+: q) ∧
  ∀ L j k', Spells t.parent t.label node L j → t.pageSize ∣ k' → k' ≤ L.length →
    (L.take k').map Prod.fst <+: q → k' ≤ k

theorem WellFormed.child_iff (h : t.WellFormed) : t.child node q = some c ↔
    t.parent c = some node ∧ pageKey q t.pageSize = pageKey (t.node c).key t.pageSize :=
  h.lookup_iff node _ c

theorem matched_le_length : t.matched c q ≤ (t.node c).key.length :=
  alignDown_le.trans matchLen_le_left

theorem matched_le_query : t.matched c q ≤ q.length := alignDown_le.trans matchLen_le_right

theorem take_matched : (t.node c).key.take (t.matched c q) = q.take (t.matched c q) :=
  (le_matchLen_iff matched_le_length matched_le_query).mp alignDown_le

theorem dvd_matched : t.pageSize ∣ t.matched c q := dvd_alignDown

theorem le_matched (hk : t.pageSize ∣ k) (hkey : k ≤ (t.node c).key.length) (hq : k ≤ q.length)
    (he : (t.node c).key.take k = q.take k) : k ≤ t.matched c q :=
  le_alignDown hk ((le_matchLen_iff hkey hq).mpr he)

/-- A child found by its page key shares that page with the query. -/
theorem WellFormed.page_le_matched (h : t.WellFormed) (hc : t.child node q = some c) :
    t.pageSize ≤ t.matched c q := by
  obtain ⟨hp, hk⟩ := h.child_iff.mp hc
  rw [pageKey_eq_take, pageKey_eq_take] at hk
  have hkey : t.pageSize ≤ (t.node c).key.length := Nat.le_of_dvd (h.pos c node hp) (h.dvd c node hp)
  have hq : t.pageSize ≤ q.length := by
    have hlen := congrArg List.length hk
    rw [List.length_take, List.length_take] at hlen
    omega
  exact le_matched (Nat.dvd_refl _) hkey hq hk.symm

theorem keys_prefix_iff (hk : k ≤ L.length) :
    (L.take k).map Prod.fst <+: q ↔ k ≤ q.length ∧ (L.map Prod.fst).take k = q.take k := by
  rw [List.prefix_iff_eq_take, List.map_take, List.length_take, List.length_map,
    Nat.min_eq_left hk]
  constructor
  · intro he
    refine ⟨?_, he⟩
    have hlen := congrArg List.length he
    rw [List.length_take, List.length_take, List.length_map] at hlen
    omega
  · exact fun he => he.2

/-- A spelling that shares a page with the query starts at the child of that page. -/
theorem WellFormed.child_of_spells (h : t.WellFormed) (hs : Spells t.parent t.label node L j)
    (hd : t.pageSize ∣ k) (hpos : 0 < k) (hk : k ≤ L.length)
    (hq : (L.take k).map Prod.fst <+: q) :
    ∃ c L', t.child node q = some c ∧ Spells t.parent t.label c L' j ∧ L = t.label c ++ L' := by
  rcases hs.cases_head with ⟨_, rfl⟩ | ⟨c, L', hp, hs', rfl⟩
  · simp at hk; omega
  refine ⟨c, L', h.child_iff.mpr ⟨hp, ?_⟩, hs', rfl⟩
  obtain ⟨hkq, he⟩ := (keys_prefix_iff hk).mp hq
  have hle : t.pageSize ≤ k := Nat.le_of_dvd hpos hd
  have hlen := h.length_eq c node hp
  have hpage : t.pageSize ≤ (t.node c).key.length :=
    Nat.le_of_dvd (h.pos c node hp) (h.dvd c node hp)
  have ht := congrArg (List.take t.pageSize) he
  rw [List.take_take, List.take_take, Nat.min_eq_left hle, List.map_append, label_fst hlen,
    List.take_append_of_le_length hpage] at ht
  rw [pageKey_eq_take, pageKey_eq_take, ht]

theorem WellFormed.longestBelow_no_child (h : t.WellFormed) (hc : t.child node q = none) :
    t.LongestBelow node q 0 := by
  refine ⟨⟨[], node, .refl, le_rfl, Nat.dvd_zero _, by simp⟩, fun L j k hs hd hk hq => ?_⟩
  by_contra hpos
  obtain ⟨c, _, hc', _⟩ := h.child_of_spells hs hd (by omega) hk hq
  rw [hc] at hc'
  cases hc'

/-- The query leaves the child's edge: the agreed pages are the longest prefix. -/
theorem WellFormed.longestBelow_split (h : t.WellFormed) (hc : t.child node q = some c)
    (hne : t.matched c q ≠ (t.node c).key.length) : t.LongestBelow node q (t.matched c q) := by
  obtain ⟨hp, _⟩ := h.child_iff.mp hc
  have hlen := h.length_eq c node hp
  constructor
  · refine ⟨[] ++ t.label c, c, .down .refl hp, ?_, dvd_matched, ?_⟩
    · rw [List.nil_append, label_length hlen]
      exact matched_le_length
    · rw [List.nil_append, List.map_take, label_fst hlen, take_matched]
      exact List.take_prefix _ _
  · intro L j k hs hd hk hq
    rcases Nat.eq_zero_or_pos k with rfl | hpos
    · exact Nat.zero_le _
    obtain ⟨c', L', hc', _, rfl⟩ := h.child_of_spells hs hd hpos hk hq
    rw [hc] at hc'
    cases hc'
    obtain ⟨hkq, he⟩ := (keys_prefix_iff hk).mp hq
    rw [List.map_append, label_fst hlen] at he
    -- a longer prefix would agree with the whole edge
    have hkey : k ≤ (t.node c).key.length := by
      by_contra hlt
      have hfull : (t.node c).key.take (t.node c).key.length =
          q.take (t.node c).key.length := by
        have ht := congrArg (List.take (t.node c).key.length) he
        rwa [List.take_take, List.take_take, Nat.min_eq_left (by omega),
          List.take_append_of_le_length le_rfl] at ht
      have hle := le_matched (h.dvd c node hp) le_rfl (by omega) hfull
      have hge : t.matched c q ≤ (t.node c).key.length := matched_le_length
      omega
    rw [List.take_append_of_le_length hkey] at he
    exact le_matched hd hkey hkq he

/-- The query follows the whole edge: the walk goes on below the child. -/
theorem WellFormed.longestBelow_follow (h : t.WellFormed) (hc : t.child node q = some c)
    (heq : t.matched c q = (t.node c).key.length)
    (hb : t.LongestBelow c (q.drop (t.matched c q)) k) :
    t.LongestBelow node q (t.matched c q + k) := by
  obtain ⟨hp, _⟩ := h.child_iff.mp hc
  have hlen := h.length_eq c node hp
  have hll : (t.label c).length = t.matched c q := by rw [label_length hlen, heq]
  have hkey : (t.label c).map Prod.fst = q.take (t.matched c q) := by
    rw [label_fst hlen, ← take_matched, heq, List.take_length]
  obtain ⟨⟨L, j, hs, hk, hd, hq⟩, hmax⟩ := hb
  constructor
  · refine ⟨t.label c ++ L, j, hs.head hp, ?_, Nat.dvd_add dvd_matched hd, ?_⟩
    · rw [List.length_append, hll]
      omega
    · have ht : (t.label c ++ L).take (t.matched c q + k) = t.label c ++ L.take k := by
        rw [List.take_append, hll, List.take_of_length_le (by omega), Nat.add_sub_cancel_left]
      rw [ht, List.map_append, hkey]
      conv_rhs => rw [← List.take_append_drop (t.matched c q) q]
      exact (List.prefix_append_right_inj _).mpr hq
  · intro L' j' k' hs' hd' hk' hq'
    rcases Nat.eq_zero_or_pos k' with rfl | hpos
    · exact Nat.zero_le _
    obtain ⟨c', L', hc', hs'', rfl⟩ := h.child_of_spells hs' hd' hpos hk' hq'
    rw [hc] at hc'
    cases hc'
    rcases Nat.lt_or_ge k' (t.matched c q) with hlt | hge
    · omega
    have ht : (t.label c ++ L').take k' = t.label c ++ L'.take (k' - t.matched c q) := by
      rw [List.take_append, hll, List.take_of_length_le (by omega)]
    rw [ht, List.map_append, hkey] at hq'
    conv_rhs at hq' => rw [← List.take_append_drop (t.matched c q) q]
    have hq' := (List.prefix_append_right_inj _).mp hq'
    have hle := hmax L' j' (k' - t.matched c q) hs'' (Nat.dvd_sub hd' dvd_matched)
      (by rw [List.length_append, hll] at hk'; omega) hq'
    omega

end Longest

section Peek

theorem WellFormed.peekFrom_spec (h : t.WellFormed) (hf : ids.length - n < fuel)
    (hn : n ≤ ids.length) :
    ∃ k, t.peekFrom ids fuel node n = some (n + k) ∧ n + k ≤ ids.length ∧
      t.LongestBelow node (ids.drop n) k := by
  induction fuel generalizing node n with
  | zero => omega
  | succ fuel ih =>
    rw [peekFrom]
    split
    · rename_i hlt
      cases hc : t.child node (ids.drop n) with
      | none => exact ⟨0, rfl, hn, h.longestBelow_no_child hc⟩
      | some c =>
        have hpage := h.page_le_matched hc
        have hpos := h.page_pos
        have hle : t.matched c (ids.drop n) ≤ (ids.drop n).length := matched_le_query
        rw [List.length_drop] at hle
        dsimp only
        by_cases heq : t.matched c (ids.drop n) = (t.node c).length
        swap
        · rw [if_pos heq]
          exact ⟨_, rfl, by omega, h.longestBelow_split hc heq⟩
        · rw [if_neg (not_not.mpr heq)]
          have hf' : ids.length - (n + t.matched c (ids.drop n)) < fuel := by omega
          obtain ⟨k, hk, hlen, hb⟩ :=
            ih hf' (by omega : n + t.matched c (ids.drop n) ≤ ids.length)
          refine ⟨t.matched c (ids.drop n) + k, by rw [hk, Nat.add_assoc], by omega, ?_⟩
          exact h.longestBelow_follow hc heq (by rw [List.drop_drop]; exact hb)
    · rename_i hge
      have hnil : ids.drop n = [] := List.drop_of_length_le (by omega)
      refine ⟨0, rfl, hn, ⟨[], node, .refl, le_rfl, Nat.dvd_zero _, by simp⟩, ?_⟩
      intro L j k _ _ hk hq
      rw [hnil, keys_prefix_iff hk] at hq
      exact hq.1

/-- The longest prefix below the root is the longest entry of the prefix map. -/
theorem WellFormed.longest_of_below (h : t.WellFormed) (hb : t.LongestBelow ROOT q k) :
    ∃ S, h.prefixes.Longest q S ∧ S.length = k := by
  obtain ⟨⟨L, j, hs, hk, hd, hq⟩, hmax⟩ := hb
  refine ⟨L.take k, ⟨⟨L, j, k, hs, hd, rfl⟩, hq, ?_⟩, by rw [List.length_take, Nat.min_eq_left hk]⟩
  rintro _ ⟨L', j', k', hs', hd', rfl⟩ hq'
  rw [List.length_take, List.length_take, Nat.min_eq_left hk]
  refine hmax L' j' _ hs' ?_ (Nat.min_le_right _ _) (by rwa [← List.take_eq_take_min])
  rcases Nat.le_total k' L'.length with hle | hle
  · rwa [Nat.min_eq_left hle]
  · rw [Nat.min_eq_right hle]
    exact h.paged.dvd_spells hs'

/-- The read-only walk answers with the length of the longest stored prefix. -/
theorem WellFormed.peek_spec (h : t.WellFormed) (q : List ℕ) :
    ∃ S, h.prefixes.Longest q S ∧ t.peekFrom q (q.length + 1) ROOT 0 = some S.length := by
  obtain ⟨k, hk, _, hb⟩ := h.peekFrom_spec (Nat.lt_succ_self (q.length - 0)) (Nat.zero_le q.length)
  obtain ⟨S, hS, hl⟩ := h.longest_of_below hb
  refine ⟨S, hS, ?_⟩
  rw [hl, ← Nat.zero_add k]
  exact hk

theorem SameShape.child_eq (h : SameShape t t') : t'.child node q = t.child node q := by
  rw [child, child, h.children node, h.pageSize]

theorem SameShape.matched_eq (h : SameShape t t') : t'.matched c q = t.matched c q := by
  rw [matched, matched, h.key c, h.pageSize]

theorem SameShape.peekFrom_eq (h : SameShape t t') :
    t'.peekFrom ids fuel node n = t.peekFrom ids fuel node n := by
  induction fuel generalizing node n with
  | zero => rfl
  | succ fuel ih =>
    rw [peekFrom, peekFrom, h.child_eq]
    cases t.child node (ids.drop n) with
    | none => rfl
    | some c =>
      have hl : (t'.node c).length = (t.node c).length := congrArg List.length (h.key c)
      simp only [hl, h.matched_eq, ih]

end Peek

section Reshape

/-- Stamps and cuts: what a walk may do to a tree. -/
inductive Reshape (t : RadixTree) : RadixTree → Prop
  | refl : Reshape t t
  | stamp {t' : RadixTree} {i : NodeId} {tic : ℤ} : Reshape t t' → i < t'.nodes.length →
      Reshape t (t'.stamp i tic)
  | cut {t' t'' : RadixTree} {id pos p : ℕ} : Reshape t t' → Cut t' id pos p t'' →
      Reshape t t''

theorem Reshape.trans (h : Reshape t t') (h' : Reshape t' t'') : Reshape t t'' := by
  induction h' with
  | refl => exact h
  | stamp _ hi ih => exact ih.stamp hi
  | cut _ hc ih => exact ih.cut hc

theorem Reshape.wellFormed (h : Reshape t t') (hw : t.WellFormed) : t'.WellFormed := by
  induction h with
  | refl => exact hw
  | stamp _ hi ih => exact (sameShape_stamp hi).wellFormed ih
  | cut _ hc ih => exact hc.wellFormed ih

theorem Reshape.pageSize (h : Reshape t t') : t'.pageSize = t.pageSize := by
  induction h with
  | refl => rfl
  | stamp _ _ ih => exact ih
  | cut _ hc ih => rw [hc.pageSize, ih]

theorem SameShape.spells_iff (h : SameShape t t') :
    Spells t'.parent t'.label i L j ↔ Spells t.parent t.label i L j :=
  Spells.congr h.parent h.label

theorem SameShape.mem_prefixes_iff (h : SameShape t t') (hw : t.WellFormed) :
    L ∈ (h.wellFormed hw).prefixes.entries ↔ L ∈ hw.prefixes.entries := by
  unfold WellFormed.prefixes
  rw [Paged.mem_prefixMap_iff, Paged.mem_prefixMap_iff, h.pageSize, h.parent, h.label]

theorem Reshape.mem_prefixes_iff (h : Reshape t t') (hw : t.WellFormed) :
    L ∈ (h.wellFormed hw).prefixes.entries ↔ L ∈ hw.prefixes.entries := by
  induction h with
  | refl => exact Iff.rfl
  | stamp hr hi ih => exact ((sameShape_stamp hi).mem_prefixes_iff (hr.wellFormed hw)).trans ih
  | cut hr hc ih => exact (hc.mem_prefixes_iff (hr.wellFormed hw)).trans ih

/-- The walk ends where the read-only walk ends, at a node that spells the match. -/
theorem walkFrom_spec (hw : t.WellFormed) (hS : Spells t.parent t.label ROOT S node)
    (hk : S.map Prod.fst = ids.take n) (hn : n ≤ ids.length)
    (hp : t.peekFrom ids fuel node n = some m) :
    ∃ t' node' S', walkFrom tic ids fuel t node n = some (t', node', m) ∧ Reshape t t' ∧
      Spells t'.parent t'.label ROOT S' node' ∧ S'.map Prod.fst = ids.take m := by
  induction fuel generalizing t node n S with
  | zero => cases hp
  | succ fuel ih =>
    rw [peekFrom] at hp
    rw [walkFrom]
    split at hp
    · rename_i hlt
      rw [if_pos hlt]
      cases hc : t.child node (ids.drop n) with
      | none =>
        rw [hc] at hp
        cases hp
        exact ⟨t, node, S, rfl, .refl, hS, hk⟩
      | some c =>
        obtain ⟨hpar, _⟩ := hw.child_iff.mp hc
        have hlen := hw.length_eq c node hpar
        have hpage := hw.page_le_matched hc
        have hpos := hw.page_pos
        have hle : t.matched c (ids.drop n) ≤ (ids.drop n).length := matched_le_query
        rw [List.length_drop] at hle
        have hmk : t.matched c (ids.drop n) ≤ (t.node c).key.length := matched_le_length
        have htake : ids.take (n + t.matched c (ids.drop n)) =
            ids.take n ++ (t.node c).key.take (t.matched c (ids.drop n)) := by
          rw [take_matched, List.take_add]
        rw [hc] at hp
        dsimp only at hp ⊢
        by_cases heq : t.matched c (ids.drop n) = (t.node c).length
        swap
        · rw [if_pos heq] at hp ⊢
          cases hp
          have hlt : t.matched c (ids.drop n) < (t.node c).length := lt_of_le_of_ne hmk heq
          have hpos : 0 < t.matched c (ids.drop n) := lt_of_lt_of_le hw.page_pos hpage
          obtain ⟨t', hsp, hcut⟩ := hw.splitAt_cut hpar hpos hlt dvd_matched
          have hlt' : t.nodes.length < t'.nodes.length := by rw [hcut.length]; exact Nat.lt_succ_self _
          have hcw := hcut.wellFormed hw
          have hshape : SameShape t' (t'.stamp t.nodes.length tic) := sameShape_stamp hlt'
          refine ⟨t'.stamp t.nodes.length tic, t.nodes.length,
            S ++ t'.label t.nodes.length, by rw [hsp]; rfl,
            .stamp (.cut .refl hcut) hlt', ?_, ?_⟩
          · exact hshape.spells_iff.mpr ((hcut.spells_iff hw).mpr (.inr ⟨rfl, S, hS, rfl⟩))
          · have hh := hcut.node_head
            rw [List.map_append, hk, htake, label_fst (by rw [hh.1, hh.2.1]; simp [hlen]), hh.1]
        · rw [if_neg (not_not.mpr heq)] at hp ⊢
          have hlt' := lt_of_parent hpar
          have hshape : SameShape t (t.stamp c tic) := sameShape_stamp hlt'
          have hS' : Spells (t.stamp c tic).parent (t.stamp c tic).label ROOT
              (S ++ t.label c) c := hshape.spells_iff.mpr (.down hS hpar)
          have hk' : (S ++ t.label c).map Prod.fst =
              ids.take (n + t.matched c (ids.drop n)) := by
            rw [List.map_append, hk, htake, label_fst hlen, heq, Node.length, List.take_length]
          obtain ⟨t', node', S', he, hr, hs', hk''⟩ := ih (hshape.wellFormed hw) hS' hk'
            (by omega) (by rw [hshape.peekFrom_eq]; exact hp)
          exact ⟨t', node', S', he, (Reshape.stamp .refl hlt').trans hr, hs', hk''⟩
    · rename_i hge
      cases hp
      rw [if_neg hge]
      exact ⟨t, node, S, rfl, .refl, hS, hk⟩

/-- The query has no child to follow past its longest stored prefix. -/
theorem WellFormed.no_child_past (h : t.WellFormed) (hs : Spells t.parent t.label ROOT S node)
    (hl : h.prefixes.Longest q S) : t.child node (q.drop S.length) = none := by
  cases hc : t.child node (q.drop S.length) with
  | none => rfl
  | some c =>
    obtain ⟨hp, _⟩ := h.child_iff.mp hc
    have hlen := h.length_eq c node hp
    have hpage := h.page_le_matched hc
    have hpos := h.page_pos
    have hmk : t.matched c (q.drop S.length) ≤ (t.node c).key.length := matched_le_length
    have hd : t.pageSize ∣ S.length := h.paged.dvd_spells hs
    have hm : (S ++ t.label c).take (S.length + t.matched c (q.drop S.length)) ∈
        h.prefixes.entries :=
      ⟨_, c, _, Spells.down hs hp, Nat.dvd_add hd dvd_matched, rfl⟩
    have hSq : S.map Prod.fst = q.take S.length := by
      have he := List.prefix_iff_eq_take.mp hl.2.1
      rwa [List.length_map] at he
    have hle := hl.2.2 _ hm (by
      rw [List.take_append, List.take_of_length_le (by omega), Nat.add_sub_cancel_left,
        List.map_append, List.map_take, label_fst hlen, take_matched, hSq, ← List.take_add]
      exact List.take_prefix _ _)
    rw [List.length_take, List.length_append, label_length hlen] at hle
    omega

/-- A node's path value is what its path spells. -/
theorem WellFormed.pathValue_spec (h : t.WellFormed) (hs : Spells t.parent t.label ROOT S i) :
    t.pathValue i = some (S.map Prod.snd) := by
  obtain ⟨l, hc, rfl⟩ := hs.chain
  have hl : l.length < t.nodes.length + 1 := by
    have hle := chain_length_le h.root_parent
      (fun i p hp => List.mem_range.mpr (lt_of_parent hp)) hc
    rw [List.length_range] at hle
    exact Nat.lt_succ_of_le hle
  have hfold : ∀ (l : List NodeId) (acc : List (List ℕ)),
      l.foldlM (fun chunks cur => some (chunks ++ [(t.node cur).value])) acc =
        some (acc ++ l.map fun cur => (t.node cur).value) := by
    intro l
    induction l with
    | nil => simp
    | cons x l ih => intro acc; simp [ih]
  unfold pathValue
  have hclimb : climb (fun _ : List (List ℕ) => t.parent)
      (fun chunks cur => some (chunks ++ [(t.node cur).value])) (t.nodes.length + 1) [] i =
      l.foldlM (fun chunks cur => some (chunks ++ [(t.node cur).value])) [] :=
    climb_eq_foldlM (fun _ _ _ _ => rfl) h.root_parent hc hl
  rw [hclimb, hfold]
  simp only [Option.bind_eq_bind, Option.bind_some, List.nil_append]
  congr 1
  rw [List.map_flatMap, List.flatMap_def, ← List.map_reverse]
  congr 1
  refine List.map_congr_left fun j hj => ?_
  obtain ⟨p, hp, _⟩ := parent_of_mem_chain hc (List.mem_reverse.mp hj)
  exact (label_snd (h.length_eq j p hp)).symm

end Reshape

end RadixTree

end Frink.Radix
