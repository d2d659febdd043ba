import Mathlib
import Frink.KvDisk.Block
import Frink.Library.Occurs

/-! # Chained block hashes

A block is named by a digest over its tokens and the name of the block before it, so that a name
stands for a whole history: the model, the extra keys and every block from the root on. That
holds as far as the digest has no collision among the messages that are hashed.
-/

namespace Frink.KvDisk

open Codec

/-- Domain separator, versioned. -/
def HASH_DOMAIN : List UInt8 := utf8 "frink-kv-block-v1"

def TAG_ROOT : List UInt8 := utf8 "root"

def TAG_BLOCK : List UInt8 := utf8 "block"

/-- The identity under which blocks are hashed. Lengths are machine words. -/
structure BlockHasher where

  model : String

  extraKeys : List String

  length_model : (utf8 model).length < 256 ^ 8

  length_extraKeys : extraKeys.length < 256 ^ 8

  length_extraKey : ∀ key ∈ extraKeys, (utf8 key).length < 256 ^ 8

def fullBlocks (tokenCount blockSize : ℕ) : ℕ := tokenCount / blockSize

/-- The first `count` blocks of `blockSize` tokens. -/
def firstBlocks {α : Type*} (blockSize : ℕ) : ℕ → List α → List (List α)
  | 0, _ => []
  | count + 1, tokens => tokens.take blockSize :: firstBlocks blockSize count (tokens.drop blockSize)

/-- The whole blocks; a partial one at the end is left out. -/
def chunksExact {α : Type*} (blockSize : ℕ) (tokens : List α) : List (List α) :=
  firstBlocks blockSize (fullBlocks tokens.length blockSize) tokens

def tokenBytes (token : UInt64) : List UInt8 := leBytes 8 token.toNat

def absorbExtraKeys (extraKeys : List String) : List UInt8 :=
  counted 8 (fun key => sized 8 (utf8 key)) extraKeys

namespace BlockHasher

variable (h : BlockHasher) (sha : List UInt8 → Bytes32)

/-- What is hashed for the root. -/
def rootMessage : List UInt8 :=
  sized 8 HASH_DOMAIN ++ (sized 8 TAG_ROOT ++ (sized 8 (utf8 h.model) ++
    absorbExtraKeys h.extraKeys))

/-- What is hashed for a block that follows `parent`. -/
def blockMessage (parent : BlockHash) (tokens : List UInt64) : List UInt8 :=
  sized 8 HASH_DOMAIN ++ (sized 8 TAG_BLOCK ++ (sized 8 (utf8 h.model) ++
    (absorbExtraKeys h.extraKeys ++ (sized 8 parent.val ++ counted 8 tokenBytes tokens))))

def root : BlockHash := sha h.rootMessage

def block (parent : BlockHash) (tokens : List UInt64) : BlockHash := sha (h.blockMessage parent tokens)

/-- The hashes of consecutive blocks. -/
def chainFrom (parent : BlockHash) : List (List UInt64) → List BlockHash
  | [] => []
  | block :: blocks => h.block sha parent block :: chainFrom (h.block sha parent block) blocks

/-- The chain of a token sequence; the block size has to be positive. -/
def chain (tokens : List UInt64) (blockSize : ℕ) : Option (List BlockHash) :=
  if 0 < blockSize then some (h.chainFrom sha (h.root sha) (chunksExact blockSize tokens)) else none

/-- What is hashed for consecutive blocks. -/
def messagesFrom (parent : BlockHash) : List (List UInt64) → List (List UInt8)
  | [] => []
  | block :: blocks => h.blockMessage parent block :: messagesFrom (h.block sha parent block) blocks

/-- What is hashed for a hasher and one of its chains. -/
def messages (tokens : List UInt64) (blockSize : ℕ) : List (List UInt8) :=
  h.rootMessage :: h.messagesFrom sha (h.root sha) (chunksExact blockSize tokens)

end BlockHasher

section Blocks

variable {α : Type*} {blockSize : ℕ}

theorem firstBlocks_add (count more : ℕ) (tokens : List α) : firstBlocks blockSize (count + more) tokens =
    firstBlocks blockSize count tokens ++
      firstBlocks blockSize more (tokens.drop (count * blockSize)) := by
  induction count generalizing tokens with
  | zero => simp [firstBlocks]
  | succ count ih =>
    rw [show count + 1 + more = count + more + 1 by omega, firstBlocks, firstBlocks, ih,
      List.drop_drop, Nat.succ_mul, Nat.add_comm blockSize]
    rfl

theorem firstBlocks_append {count : ℕ} {tokens : List α} (h : count * blockSize ≤ tokens.length)
    (more : List α) : firstBlocks blockSize count (tokens ++ more) =
      firstBlocks blockSize count tokens := by
  induction count generalizing tokens with
  | zero => rfl
  | succ count ih =>
    rw [Nat.succ_mul] at h
    have hle : blockSize ≤ tokens.length := by omega
    rw [firstBlocks, firstBlocks, List.take_append_of_le_length hle,
      List.drop_append_of_le_length hle, ih (by rw [List.length_drop]; omega)]

/-- The blocks of a beginning are a beginning of the blocks. -/
theorem chunksExact_mono {pre tokens : List α} (h : pre <+: tokens) :
    chunksExact blockSize pre <+: chunksExact blockSize tokens := by
  obtain ⟨more, rfl⟩ := h
  have hcount : fullBlocks pre.length blockSize ≤ fullBlocks (pre ++ more).length blockSize := by
    apply Nat.div_le_div_right
    rw [List.length_append]
    exact Nat.le_add_right _ _
  obtain ⟨k, hk⟩ := Nat.exists_eq_add_of_le hcount
  have hle : fullBlocks pre.length blockSize * blockSize ≤ pre.length := Nat.div_mul_le_self _ _
  rw [chunksExact, chunksExact, hk, firstBlocks_add, firstBlocks_append hle]
  exact List.prefix_append _ _

end Blocks

theorem utf8_injective : Function.Injective utf8 := by
  intro s t heq
  rw [← fromUtf8Lossy_utf8 s, heq, fromUtf8Lossy_utf8]

theorem tokenBytes_injective : Function.Injective tokenBytes := by
  intro x y heq
  exact UInt64.toNat_inj.mp (leBytes_injOn 8 x.toNat_lt y.toNat_lt heq)

theorem length_tags : HASH_DOMAIN.length < 256 ^ 8 ∧ TAG_ROOT.length = 4 ∧ TAG_BLOCK.length = 5 := by
  decide

namespace BlockHasher

variable {h h' : BlockHasher} {sha : List UInt8 → Bytes32} {parent parent' : BlockHash}
  {tokens tokens' : List UInt64} {blocks blocks' : List (List UInt64)}

/-- Model and extra keys, with the domain and a tag in front, read back in one way only. -/
theorem identity_inj (h h' : BlockHasher) {tag tag' s t : List UInt8} (htag : tag.length < 256 ^ 8)
    (htag' : tag'.length < 256 ^ 8)
    (heq : sized 8 HASH_DOMAIN ++ (sized 8 tag ++ (sized 8 (utf8 h.model) ++
        (absorbExtraKeys h.extraKeys ++ s))) =
      sized 8 HASH_DOMAIN ++ (sized 8 tag' ++ (sized 8 (utf8 h'.model) ++
        (absorbExtraKeys h'.extraKeys ++ t)))) :
    tag = tag' ∧ h.model = h'.model ∧ h.extraKeys = h'.extraKeys ∧ s = t := by
  have hkey : DelimitedOn {key | (utf8 key).length < 256 ^ 8} fun key => sized 8 (utf8 key) := by
    intro a ha b hb s t heq
    obtain ⟨hab, hst⟩ := delimitedOn_sized 8 ha hb heq
    exact ⟨utf8_injective hab, hst⟩
  obtain ⟨-, heq⟩ := delimitedOn_sized 8 length_tags.1 length_tags.1 heq
  obtain ⟨htags, heq⟩ := delimitedOn_sized 8 htag htag' heq
  obtain ⟨hmodel, heq⟩ := delimitedOn_sized 8 h.length_model h'.length_model heq
  obtain ⟨hkeys, heq⟩ := hkey.counted 8 ⟨h.length_extraKeys, h.length_extraKey⟩
    ⟨h'.length_extraKeys, h'.length_extraKey⟩ heq
  exact ⟨htags, utf8_injective hmodel, hkeys, heq⟩

theorem length_tag_root : TAG_ROOT.length < 256 ^ 8 := by
  rw [length_tags.2.1]
  decide

theorem length_tag_block : TAG_BLOCK.length < 256 ^ 8 := by
  rw [length_tags.2.2]
  decide

theorem rootMessage_inj (heq : h.rootMessage = h'.rootMessage) :
    h.model = h'.model ∧ h.extraKeys = h'.extraKeys := by
  have hsame := identity_inj h h' (s := []) (t := []) length_tag_root length_tag_root
    (by rwa [List.append_nil, List.append_nil])
  exact ⟨hsame.2.1, hsame.2.2.1⟩

/-- No block is hashed from a root's message. -/
theorem blockMessage_ne_rootMessage : h.blockMessage parent tokens ≠ h'.rootMessage := by
  intro heq
  have hroot : h'.rootMessage = sized 8 HASH_DOMAIN ++ (sized 8 TAG_ROOT ++
      (sized 8 (utf8 h'.model) ++ (absorbExtraKeys h'.extraKeys ++ []))) := by
    rw [List.append_nil]
    rfl
  have hsame := identity_inj h h' length_tag_block length_tag_root (heq.trans hroot)
  have hlen := congrArg List.length hsame.1
  rw [length_tags.2.1, length_tags.2.2] at hlen
  cases hlen

theorem blockMessage_inj (heq : h.blockMessage parent tokens = h'.blockMessage parent' tokens') :
    h.model = h'.model ∧ h.extraKeys = h'.extraKeys ∧ parent = parent' ∧ tokens = tokens' := by
  have hlen (p : BlockHash) : p.val.length < 256 ^ 8 := by
    rw [p.property]
    decide
  obtain ⟨-, hmodel, hkeys, heq⟩ :=
    identity_inj h h' length_tag_block length_tag_block heq
  obtain ⟨hparent, heq⟩ := delimitedOn_sized 8 (hlen parent) (hlen parent') heq
  have hcount : (leBytes 8 tokens.length).length = (leBytes 8 tokens'.length).length := by simp
  obtain ⟨-, heq⟩ := List.append_inj heq hcount
  exact ⟨hmodel, hkeys, Subtype.ext hparent,
    flatMap_inj_of_width tokenBytes_injective (fun _ => length_leBytes 8 _) heq⟩

section After

/-- The hash of the last of `blocks`, the root if there is none. -/
def hashAfter (h : BlockHasher) (sha : List UInt8 → Bytes32) (blocks : List (List UInt64)) : BlockHash :=
  blocks.foldl (h.block sha) (h.root sha)

theorem hashAfter_append (block : List UInt64) : h.hashAfter sha (blocks ++ [block]) =
    sha (h.blockMessage (h.hashAfter sha blocks) block) := by
  rw [hashAfter, List.foldl_append]
  rfl

theorem mem_messagesFrom {pre : List (List UInt64)} {block : List UInt64}
    (hpre : pre ++ [block] <+: blocks) :
    h.blockMessage (pre.foldl (h.block sha) parent) block ∈ h.messagesFrom sha parent blocks := by
  obtain ⟨more, rfl⟩ := hpre
  induction pre generalizing parent with
  | nil => exact List.mem_cons_self
  | cons b pre ih => exact List.mem_cons_of_mem _ ih

/-- Equal hashes come from equal histories, where the messages behind them do not collide. -/
theorem hashAfter_inj {M : Set (List UInt8)} (hsha : Set.InjOn sha M)
    (hroot : h.rootMessage ∈ M) (hroot' : h'.rootMessage ∈ M)
    (hmem : ∀ pre block, pre ++ [block] <+: blocks → h.blockMessage (h.hashAfter sha pre) block ∈ M)
    (hmem' : ∀ pre block, pre ++ [block] <+: blocks' →
      h'.blockMessage (h'.hashAfter sha pre) block ∈ M)
    (heq : h.hashAfter sha blocks = h'.hashAfter sha blocks') :
    h.model = h'.model ∧ h.extraKeys = h'.extraKeys ∧ blocks = blocks' := by
  induction blocks using List.reverseRec generalizing blocks' with
  | nil =>
    cases blocks' using List.reverseRec with
    | nil =>
      have hsame := rootMessage_inj (hsha hroot hroot' heq)
      exact ⟨hsame.1, hsame.2, rfl⟩
    | append_singleton blocks' block' =>
      rw [hashAfter_append] at heq
      have := hsha hroot (hmem' _ _ (List.prefix_refl _)) heq
      exact absurd this.symm blockMessage_ne_rootMessage
  | append_singleton blocks block ih =>
    cases blocks' using List.reverseRec with
    | nil =>
      rw [hashAfter_append] at heq
      have := hsha (hmem _ _ (List.prefix_refl _)) hroot' heq
      exact absurd this blockMessage_ne_rootMessage
    | append_singleton blocks' block' =>
      rw [hashAfter_append, hashAfter_append] at heq
      obtain ⟨hmodel, hkeys, hparent, rfl⟩ := blockMessage_inj
        (hsha (hmem _ _ (List.prefix_refl _)) (hmem' _ _ (List.prefix_refl _)) heq)
      obtain ⟨-, -, rfl⟩ := ih
        (fun pre b hpre => hmem pre b (hpre.trans (List.prefix_append _ _)))
        (fun pre b hpre => hmem' pre b (hpre.trans (List.prefix_append _ _))) hparent
      exact ⟨hmodel, hkeys, rfl⟩

/-- An element of a chain is the hash after the blocks up to it. -/
theorem getElem?_chainFrom {i : ℕ} {x : BlockHash} (hx : (h.chainFrom sha parent blocks)[i]? = some x) :
    i < blocks.length ∧ x = (blocks.take (i + 1)).foldl (h.block sha) parent := by
  induction blocks generalizing parent i with
  | nil => cases hx
  | cons b blocks ih =>
    cases i with
    | zero => exact ⟨Nat.succ_pos _, (Option.some.inj hx).symm⟩
    | succ i =>
      obtain ⟨hlt, rfl⟩ := ih hx
      exact ⟨Nat.succ_lt_succ hlt, rfl⟩

theorem chainFrom_append (more : List (List UInt64)) : h.chainFrom sha parent (blocks ++ more) =
    h.chainFrom sha parent blocks ++
      h.chainFrom sha (blocks.foldl (h.block sha) parent) more := by
  induction blocks generalizing parent with
  | nil => rfl
  | cons b blocks ih => exact congrArg _ ih

end After

variable {tokens₁ tokens₂ : List UInt64} {blockSize blockSize₁ blockSize₂ : ℕ} {h₁ h₂ : BlockHasher}
  {c c₁ c₂ : List BlockHash}

theorem chain_eq (hc : h.chain sha tokens blockSize = some c) :
    0 < blockSize ∧ c = h.chainFrom sha (h.root sha) (chunksExact blockSize tokens) := by
  unfold chain at hc
  split at hc
  · rename_i hpos
    exact ⟨hpos, (Option.some.inj hc).symm⟩
  · cases hc

/-- A hash in a chain names one history, is no root, and stays when the tokens go on. -/
theorem chain_names_history (sha : List UInt8 → Bytes32) (h₁ h₂ : BlockHasher)
    (tokens₁ tokens₂ : List UInt64) (blockSize₁ blockSize₂ : ℕ) (c₁ c₂ : List BlockHash)
    (hsha : Set.InjOn sha {m | m ∈ h₁.messages sha tokens₁ blockSize₁ ∨
      m ∈ h₂.messages sha tokens₂ blockSize₂})
    (hc₁ : h₁.chain sha tokens₁ blockSize₁ = some c₁)
    (hc₂ : h₂.chain sha tokens₂ blockSize₂ = some c₂) :
    (∀ i j x, c₁[i]? = some x → c₂[j]? = some x →
      h₁.model = h₂.model ∧ h₁.extraKeys = h₂.extraKeys ∧ i = j ∧
        (chunksExact blockSize₁ tokens₁).take (i + 1) = (chunksExact blockSize₂ tokens₂).take (j + 1)) ∧
    (∀ x ∈ c₁, x ≠ h₁.root sha ∧ x ≠ h₂.root sha) ∧
    ∀ pre, pre <+: tokens₁ → ∃ c, h₁.chain sha pre blockSize₁ = some c ∧ c <+: c₁ := by
  obtain ⟨hpos, rfl⟩ := chain_eq hc₁
  obtain ⟨-, rfl⟩ := chain_eq hc₂
  have hmem₁ : ∀ i pre block, pre ++ [block] <+: (chunksExact blockSize₁ tokens₁).take i →
      h₁.blockMessage (h₁.hashAfter sha pre) block ∈ {m | m ∈ h₁.messages sha tokens₁ blockSize₁ ∨
        m ∈ h₂.messages sha tokens₂ blockSize₂} := by
    intro i pre block hpre
    exact .inl (List.mem_cons_of_mem _ (mem_messagesFrom (hpre.trans (List.take_prefix _ _))))
  have hmem₂ : ∀ i pre block, pre ++ [block] <+: (chunksExact blockSize₂ tokens₂).take i →
      h₂.blockMessage (h₂.hashAfter sha pre) block ∈ {m | m ∈ h₁.messages sha tokens₁ blockSize₁ ∨
        m ∈ h₂.messages sha tokens₂ blockSize₂} := by
    intro i pre block hpre
    exact .inr (List.mem_cons_of_mem _ (mem_messagesFrom (hpre.trans (List.take_prefix _ _))))
  refine ⟨fun i j x hi hj => ?_, fun x hx => ?_, fun pre hpre => ?_⟩
  · obtain ⟨hlt, rfl⟩ := getElem?_chainFrom hi
    obtain ⟨hlt', heq⟩ := getElem?_chainFrom hj
    obtain ⟨hmodel, hkeys, hblocks⟩ := hashAfter_inj hsha (.inl List.mem_cons_self)
      (.inr List.mem_cons_self) (hmem₁ (i + 1)) (hmem₂ (j + 1)) heq
    refine ⟨hmodel, hkeys, ?_, hblocks⟩
    have hlen := congrArg List.length hblocks
    rw [List.length_take, List.length_take] at hlen
    omega
  · obtain ⟨i, hi⟩ := List.mem_iff_getElem?.mp hx
    obtain ⟨hlt, rfl⟩ := getElem?_chainFrom hi
    have hne : ((chunksExact blockSize₁ tokens₁).take (i + 1)) ≠ [] := by
      apply List.ne_nil_of_length_pos
      rw [List.length_take]
      omega
    constructor
    · intro heq
      have heq : h₁.hashAfter sha _ = h₁.hashAfter sha [] := heq
      exact hne (hashAfter_inj hsha (.inl List.mem_cons_self) (.inl List.mem_cons_self)
        (hmem₁ (i + 1)) (fun _ _ hnil => by simp at hnil) heq).2.2
    · intro heq
      have heq : h₁.hashAfter sha _ = h₂.hashAfter sha [] := heq
      exact hne (hashAfter_inj hsha (.inl List.mem_cons_self) (.inr List.mem_cons_self)
        (hmem₁ (i + 1)) (fun _ _ hnil => by simp at hnil) heq).2.2
  · obtain ⟨more, hmore⟩ := @chunksExact_mono _ blockSize₁ _ _ hpre
    refine ⟨_, if_pos hpos, ?_⟩
    rw [← hmore, chainFrom_append]
    exact List.prefix_append _ _

section Pinned

def digestRoot : Bytes32 :=
  ⟨[8, 210, 226, 111, 48, 50, 131, 55, 63, 110, 116, 221, 115, 253, 45, 140,
    0, 233, 210, 46, 222, 182, 211, 93, 246, 243, 85, 127, 215, 129, 114, 241], rfl⟩

def digestFirst : Bytes32 :=
  ⟨[253, 137, 27, 45, 79, 49, 84, 212, 135, 123, 231, 22, 59, 187, 168, 35,
    50, 23, 141, 191, 124, 82, 210, 60, 4, 205, 222, 139, 54, 110, 243, 31], rfl⟩

def digestSecond : Bytes32 :=
  ⟨[36, 166, 92, 105, 216, 151, 21, 59, 10, 121, 132, 41, 179, 121, 169, 255,
    241, 132, 168, 154, 1, 147, 228, 220, 74, 101, 32, 245, 55, 80, 151, 149], rfl⟩

def pinnedHasher : BlockHasher where

  model := "model-a"
  extraKeys := ["lora:alpha"]
  length_model := by decide
  length_extraKeys := by decide
  length_extraKey := by decide

/-- SHA-256 on the three messages of the chain whose digests are on record. -/
def pinned (message : List UInt8) : Bytes32 :=
  if message = pinnedHasher.rootMessage then digestRoot
  else if message = pinnedHasher.blockMessage digestRoot [1, 2] then digestFirst
  else digestSecond

theorem chain_names_history_pinned :
    pinnedHasher.chain pinned [1, 2, 3, 4] 2 = some [digestFirst, digestSecond] ∧
    pinnedHasher.chain pinned [1, 2, 3] 2 = some [digestFirst] ∧
    (chunksExact 2 ([1, 2, 3, 4] : List UInt64)).take 1 = (chunksExact 2 [1, 2, 3]).take 1 := by
  have hlong : pinnedHasher.chain pinned [1, 2, 3, 4] 2 = some [digestFirst, digestSecond] := by
    decide +kernel
  have hshort : pinnedHasher.chain pinned [1, 2, 3] 2 = some [digestFirst] := by decide +kernel
  have hsha : Set.InjOn pinned {m | m ∈ pinnedHasher.messages pinned [1, 2, 3, 4] 2 ∨
      m ∈ pinnedHasher.messages pinned [1, 2, 3] 2} := by
    have hall : ∀ m ∈ pinnedHasher.messages pinned [1, 2, 3, 4] 2 ++
        pinnedHasher.messages pinned [1, 2, 3] 2, ∀ m' ∈ pinnedHasher.messages pinned [1, 2, 3, 4] 2 ++
        pinnedHasher.messages pinned [1, 2, 3] 2, pinned m = pinned m' → m = m' := by
      decide +kernel
    exact fun m hm m' hm' => hall m (List.mem_append.mpr hm) m' (List.mem_append.mpr hm')
  have h := chain_names_history pinned pinnedHasher pinnedHasher [1, 2, 3, 4] [1, 2, 3] 2 2 _ _ hsha
    hlong hshort
  exact ⟨hlong, hshort, (h.1 0 0 digestFirst rfl rfl).2.2.2⟩

end Pinned

end BlockHasher

end Frink.KvDisk
