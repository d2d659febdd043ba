import Frink.Library.Guarded
import Frink.Library.Lossy

/-! # Cache signatures

What a stored block's payload is: its shape, measured from the layers, and the
layout it was cut under. A block is usable once its stamp agrees with what the
layers are, and what they are with what the reader needs. Elements are bits.
-/

namespace Frink.KvDisk

open Codec

def BLOCK_FORMAT_VERSION : ℕ := 2
def READABLE_FORMAT_VERSIONS : List ℕ := [2]

inductive BlockLayoutError where
  | zeroBlockSize
  | zeroWindow
  | misaligned (window blockSize remainder : ℕ)
  deriving DecidableEq

/-- How a sequence is cut into blocks: whole blocks fill the sliding window, if there is one. -/
@[ext] structure BlockLayout where

  blockSize : ℕ
  slidingWindow : Option ℕ
  blockSize_pos : 0 < blockSize
  aligned : ∀ w, slidingWindow = some w → 0 < w ∧ w % blockSize = 0
  deriving DecidableEq

namespace BlockLayout

def new (blockSize : ℕ) (slidingWindow : Option ℕ) : Except BlockLayoutError BlockLayout :=
  if hb : blockSize = 0 then .error .zeroBlockSize
  else match slidingWindow with
    | none => .ok ⟨blockSize, none, Nat.pos_of_ne_zero hb, nofun⟩
    | some window =>
      if hw : window = 0 then .error .zeroWindow
      else if hr : window % blockSize = 0 then
        .ok ⟨blockSize, some window, Nat.pos_of_ne_zero hb, fun w h => by
          obtain rfl := Option.some.inj h
          exact ⟨Nat.pos_of_ne_zero hw, hr⟩⟩
      else .error (.misaligned window blockSize (window % blockSize))

theorem new_self (l : BlockLayout) : new l.blockSize l.slidingWindow = .ok l := by
  obtain ⟨b, w, hb, hw⟩ := l
  cases w with
  | none => simp [new, Nat.ne_of_gt hb]
  | some w =>
    obtain ⟨hpos, hr⟩ := hw w rfl
    simp [new, Nat.ne_of_gt hb, Nat.ne_of_gt hpos, hr]

end BlockLayout

inductive KvDtype | F32 | F16
  deriving DecidableEq

namespace KvDtype

def elemBytes : KvDtype → ℕ
  | F32 => 4
  | F16 => 2

def name : KvDtype → String
  | F32 => "f32"
  | F16 => "f16"

theorem elemBytes_pos (d : KvDtype) : 0 < d.elemBytes := by cases d <;> decide

end KvDtype

/-- A growable buffer of K or V elements. -/
inductive KvBuf where
  | F32 (v : List (BitVec 32))
  | F16 (v : List (BitVec 16))
  deriving DecidableEq

namespace KvBuf

def new : KvDtype → KvBuf
  | .F32 => F32 []
  | .F16 => F16 []

def dtype : KvBuf → KvDtype
  | F32 _ => .F32
  | F16 _ => .F16

def len : KvBuf → ℕ
  | F32 v => v.length
  | F16 v => v.length

end KvBuf

/-- One layer's cache. `recurrent` stands for the state of a recurrent layer. The pool a cache
draws from, its planned capacity and its device mirrors are not part of what it holds. -/
@[ext] structure KvCache (ρ : Type) where

  nKvHeads : ℕ
  headDim : ℕ
  vHeadDim : ℕ
  k : KvBuf
  v : KvBuf
  positions : ℕ
  recurrent : Option ρ
  same_dtype : v.dtype = k.dtype

variable {ρ : Type}

namespace KvCache

variable (c : KvCache ρ)

def dtype : KvDtype := c.k.dtype

def kWidth : ℕ := c.nKvHeads * c.headDim

end KvCache

@[ext] structure CacheSignature where

  formatVersion : ℕ
  model : String
  nLayers : ℕ
  nKvHeads : ℕ
  headDim : ℕ
  dtype : KvDtype
  tokens : ℕ
  layout : BlockLayout
  deriving DecidableEq

inductive SignatureError where
  | unmarked
  | emptyPayload
  | degenerateLayer (layer nKvHeads headDim : ℕ)
  | splitKvHeadWidth (layer headDim vHeadDim : ℕ)
  | raggedPayload (layer : ℕ) (field expected found : String)
  | payloadMismatch (field recorded actual : String)
  | incompatible (field expected found : String)
  | blockSizeMismatch (blockSize tokens : ℕ)
  | unsupportedFormat (found : ℕ) (readable : List ℕ)
  deriving DecidableEq

def describeWindow : Option ℕ → String
  | some w => toString w
  | none => "none (full causal)"

/-- A layer's depth: its buffers against its own declared shape and position count. -/
def measureLayer (index : ℕ) (layer : KvCache ρ) (perToken : ℕ) : Except SignatureError ℕ :=
  if layer.vHeadDim ≠ layer.headDim then
    .error (.splitKvHeadWidth index layer.headDim layer.vHeadDim)
  else if layer.k.len % perToken ≠ 0 then
    .error (.raggedPayload index "k length" s!"a multiple of {perToken}" (toString layer.k.len))
  else if layer.v.len ≠ layer.k.len then
    .error (.raggedPayload index "v length" (toString layer.k.len) (toString layer.v.len))
  else if layer.positions ≠ layer.k.len / perToken then
    .error (.raggedPayload index "positions" (toString (layer.k.len / perToken))
      (toString layer.positions))
  else .ok (layer.k.len / perToken)

/-- The layers after the first against it, from layer `index` on. -/
def checkLayers (nKvHeads headDim : ℕ) (dtype : KvDtype) (tokens : ℕ) :
    ℕ → List (KvCache ρ) → Except SignatureError Unit
  | _, [] => .ok ()
  | index, layer :: layers => do
    if layer.nKvHeads ≠ nKvHeads ∨ layer.headDim ≠ headDim then
      .error (.raggedPayload index "layer shape" s!"{nKvHeads}x{headDim}"
        (toString layer.nKvHeads ++ "x" ++ toString layer.headDim))
    else if layer.dtype ≠ dtype then
      .error (.raggedPayload index "dtype" dtype.name layer.dtype.name)
    else do
      let layerTokens ← measureLayer index layer (nKvHeads * headDim)
      if layerTokens ≠ tokens then
        .error (.raggedPayload index "token count" (toString tokens) (toString layerTokens))
      else checkLayers nKvHeads headDim dtype tokens (index + 1) layers

namespace CacheSignature

/-- The signature of a payload, measured. -/
def fromPayload (model : String) (layout : BlockLayout) (layers : List (KvCache ρ)) :
    Except SignatureError CacheSignature :=
  match layers with
  | [] => .error .emptyPayload
  | first :: rest =>
    if first.nKvHeads = 0 ∨ first.headDim = 0 then
      .error (.degenerateLayer 0 first.nKvHeads first.headDim)
    else do
      let tokens ← measureLayer 0 first (first.nKvHeads * first.headDim)
      checkLayers first.nKvHeads first.headDim first.dtype tokens 1 rest
      if tokens ≠ layout.blockSize then .error (.blockSizeMismatch layout.blockSize tokens)
      else .ok {
        formatVersion := BLOCK_FORMAT_VERSION
        model
        nLayers := (first :: rest).length
        nKvHeads := first.nKvHeads
        headDim := first.headDim
        dtype := first.dtype
        tokens
        layout }

def compareField {α : Type} [DecidableEq α] (mismatch : String → String → String → SignatureError)
    (field : String) (describe : α → String) (a b : α) : Except SignatureError Unit :=
  if a = b then .ok () else .error (mismatch field (describe a) (describe b))

/-- Field by field, naming the first that differs. -/
def compare (a b : CacheSignature) (mismatch : String → String → String → SignatureError) :
    Except SignatureError Unit := do
  compareField mismatch "format_version" toString a.formatVersion b.formatVersion
  compareField mismatch "model" id a.model b.model
  compareField mismatch "n_layers" toString a.nLayers b.nLayers
  compareField mismatch "n_kv_heads" toString a.nKvHeads b.nKvHeads
  compareField mismatch "head_dim" toString a.headDim b.headDim
  compareField mismatch "dtype" KvDtype.name a.dtype b.dtype
  compareField mismatch "tokens" toString a.tokens b.tokens
  compareField mismatch "block_size" toString a.layout.blockSize b.layout.blockSize
  compareField mismatch "sliding_window" describeWindow a.layout.slidingWindow
    b.layout.slidingWindow

theorem compareField_ok {α : Type} [DecidableEq α]
    {mismatch : String → String → String → SignatureError} {field : String}
    {describe : α → String} {a b : α} {u : Unit} :
    compareField mismatch field describe a b = .ok u ↔ a = b := by
  unfold compareField
  split <;> simp [*]

theorem compare_ok {a b : CacheSignature} {mismatch : String → String → String → SignatureError} :
    a.compare b mismatch = .ok () ↔ a = b := by
  simp only [compare, bind_eq_ok, compareField_ok, exists_const]
  constructor
  · rintro ⟨hv, hm, hl, hh, hd, ht, hn, hb, hw⟩
    ext
    all_goals simp_all
  · rintro rfl
    simp

end CacheSignature

/-- A layer is what the signature says a layer is. -/
structure Describes (sig : CacheSignature) (layer : KvCache ρ) : Prop where

  heads : layer.nKvHeads = sig.nKvHeads
  width : layer.headDim = sig.headDim
  vWidth : layer.vHeadDim = sig.headDim
  dtype : layer.dtype = sig.dtype
  k_len : layer.k.len = sig.tokens * (sig.nKvHeads * sig.headDim)
  v_len : layer.v.len = sig.tokens * (sig.nKvHeads * sig.headDim)
  positions : layer.positions = sig.tokens

theorem measureLayer_ok {index perToken tokens : ℕ} {layer : KvCache ρ} (hp : 0 < perToken) :
    measureLayer index layer perToken = .ok tokens ↔
      layer.vHeadDim = layer.headDim ∧ layer.k.len = tokens * perToken ∧
        layer.v.len = layer.k.len ∧ layer.positions = tokens := by
  have hdiv : layer.k.len % perToken = 0 →
      (layer.k.len / perToken = tokens ↔ layer.k.len = tokens * perToken) := by
    intro h
    rw [Nat.div_eq_iff_eq_mul_left hp (Nat.dvd_of_mod_eq_zero h)]
  unfold measureLayer
  split
  · simp [*]
  split
  · rename_i hmod
    constructor
    · nofun
    · rintro ⟨-, hk, -⟩
      exact absurd (by simp [hk]) hmod
  split
  · simp [*]
  rename_i hw hmod hv
  simp only [not_not] at hw hmod hv
  split
  · rename_i hpos
    constructor
    · nofun
    · rintro ⟨-, hk, -, hpos'⟩
      exact absurd (hpos'.trans ((hdiv hmod).mpr hk).symm) hpos
  · rename_i hpos
    simp only [not_not] at hpos
    rw [Except.ok.injEq, hdiv hmod]
    constructor
    · intro hk
      exact ⟨hw, hk, hv, hpos.trans ((hdiv hmod).mpr hk)⟩
    · exact fun h => h.2.1

theorem checkLayers_ok {sig : CacheSignature} (hp : 0 < sig.nKvHeads * sig.headDim) {index : ℕ}
    {layers : List (KvCache ρ)} :
    checkLayers sig.nKvHeads sig.headDim sig.dtype sig.tokens index layers = .ok () ↔
      ∀ layer ∈ layers, Describes sig layer := by
  induction layers generalizing index with
  | nil => simp [checkLayers]
  | cons layer layers ih =>
    rw [List.forall_mem_cons]
    unfold checkLayers
    constructor
    · intro h
      split at h
      · cases h
      rename_i hshape
      split at h
      · cases h
      rename_i hdtype
      obtain ⟨tokens, ht, h⟩ := bind_eq_ok.mp h
      split at h
      · cases h
      rename_i htokens
      simp only [not_or, not_not] at hshape hdtype htokens
      obtain ⟨hw, hk, hv, hpos⟩ := (measureLayer_ok hp).mp ht
      subst htokens
      exact ⟨⟨hshape.1, hshape.2, hw.trans hshape.2, hdtype, hk, hv.trans hk, hpos⟩, ih.mp h⟩
    · rintro ⟨hd, h⟩
      have ht : measureLayer index layer (sig.nKvHeads * sig.headDim) = .ok sig.tokens :=
        (measureLayer_ok hp).mpr
          ⟨hd.vWidth.trans hd.width.symm, hd.k_len, hd.v_len.trans hd.k_len.symm, hd.positions⟩
      rw [if_neg (by simp [hd.heads, hd.width]), if_neg (by simp [hd.dtype])]
      refine bind_eq_ok.mpr ⟨sig.tokens, ht, ?_⟩
      rw [if_neg (by simp)]
      exact ih.mpr h

/-- What a measured signature says. -/
structure Measured (sig : CacheSignature) (model : String) (layout : BlockLayout)
    (layers : List (KvCache ρ)) : Prop where

  version : sig.formatVersion = BLOCK_FORMAT_VERSION
  model_eq : sig.model = model
  layout_eq : sig.layout = layout
  nLayers : sig.nLayers = layers.length
  layers_ne : layers ≠ []
  heads_pos : 0 < sig.nKvHeads
  width_pos : 0 < sig.headDim
  tokens : sig.tokens = layout.blockSize
  describes : ∀ layer ∈ layers, Describes sig layer

theorem fromPayload_ok {sig : CacheSignature} {model : String} {layout : BlockLayout}
    {layers : List (KvCache ρ)} :
    CacheSignature.fromPayload model layout layers = .ok sig ↔ Measured sig model layout layers := by
  cases layers with
  | nil =>
    constructor
    · nofun
    · exact fun h => absurd rfl h.layers_ne
  | cons first rest =>
    unfold CacheSignature.fromPayload
    constructor
    · intro h
      dsimp only at h
      split at h
      · cases h
      rename_i hdeg
      simp only [not_or] at hdeg
      have hh : 0 < first.nKvHeads := Nat.pos_of_ne_zero hdeg.1
      have hw : 0 < first.headDim := Nat.pos_of_ne_zero hdeg.2
      have hp := Nat.mul_pos hh hw
      obtain ⟨tokens, ht, h⟩ := bind_eq_ok.mp h
      obtain ⟨⟨⟩, hrest, h⟩ := bind_eq_ok.mp h
      split at h
      · cases h
      rename_i hb
      obtain rfl := Except.ok.inj h
      obtain ⟨hv, hk, hvk, hpos⟩ := (measureLayer_ok hp).mp ht
      refine ⟨rfl, rfl, rfl, rfl, by simp, hh, hw, by simpa using hb, ?_⟩
      rw [List.forall_mem_cons]
      refine ⟨⟨rfl, rfl, hv, rfl, hk, hvk.trans hk, hpos⟩, ?_⟩
      exact (checkLayers_ok hp).mp hrest
    · intro h
      obtain ⟨hd, hrest⟩ := List.forall_mem_cons.mp h.describes
      have hp := Nat.mul_pos h.heads_pos h.width_pos
      have ht : measureLayer 0 first (first.nKvHeads * first.headDim) = .ok sig.tokens := by
        rw [hd.heads, hd.width, measureLayer_ok hp]
        exact ⟨hd.vWidth.trans hd.width.symm, hd.k_len, hd.v_len.trans hd.k_len.symm, hd.positions⟩
      have hchk : checkLayers first.nKvHeads first.headDim first.dtype sig.tokens 1 rest = .ok () := by
        rw [hd.heads, hd.width, hd.dtype, checkLayers_ok hp]
        exact hrest
      have hpos := h.heads_pos
      have hwid := h.width_pos
      dsimp only
      rw [if_neg (by rw [hd.heads, hd.width]; omega)]
      refine bind_eq_ok.mpr ⟨_, ht, bind_eq_ok.mpr ⟨(), hchk, ?_⟩⟩
      rw [if_neg (by simp [h.tokens]), Except.ok.injEq]
      ext
      all_goals simp [h.version, h.model_eq, h.layout_eq, h.nLayers, hd.heads, hd.width, hd.dtype]

/-- A block whose signature was measured from its own layers. -/
structure KvBlock (ρ : Type) where

  signature : CacheSignature
  layers : List (KvCache ρ)
  stamped : CacheSignature.fromPayload signature.model signature.layout layers = .ok signature

structure UnverifiedBlock (ρ : Type) where

  signature : Option CacheSignature
  layers : List (KvCache ρ)

theorem Measured.stamped {sig : CacheSignature} {model : String} {layout : BlockLayout}
    {layers : List (KvCache ρ)} (h : Measured sig model layout layers) :
    CacheSignature.fromPayload sig.model sig.layout layers = .ok sig := by
  rw [h.model_eq, h.layout_eq]
  exact fromPayload_ok.mpr h

/-- Marked, honest, then what the reader needs. -/
def UnverifiedBlock.verify (u : UnverifiedBlock ρ) (expected : CacheSignature) :
    Except SignatureError (KvBlock ρ) :=
  match u.signature with
  | none => .error .unmarked
  | some recorded =>
    if recorded.formatVersion ∉ READABLE_FORMAT_VERSIONS then
      .error (.unsupportedFormat recorded.formatVersion READABLE_FORMAT_VERSIONS)
    else
      match hm : CacheSignature.fromPayload recorded.model recorded.layout u.layers with
      | .error e => .error e
      | .ok actual => do
        recorded.compare actual .payloadMismatch
        expected.compare actual .incompatible
        .ok ⟨actual, u.layers, (fromPayload_ok.mp hm).stamped⟩

/-- A payload under its own measurements passes for exactly the reader that needs them. -/
theorem verify_measured {sig : CacheSignature} {layers : List (KvCache ρ)}
    (h : CacheSignature.fromPayload sig.model sig.layout layers = .ok sig)
    (expected : CacheSignature) :
    UnverifiedBlock.verify ⟨some sig, layers⟩ expected =
      (expected.compare sig .incompatible).map fun _ => ⟨sig, layers, h⟩ := by
  have hv : sig.formatVersion = BLOCK_FORMAT_VERSION := (fromPayload_ok.mp h).version
  unfold UnverifiedBlock.verify
  dsimp only
  rw [if_neg (by rw [hv]; decide)]
  split
  · rename_i e he
    cases h.symm.trans he
  · rename_i actual ha
    obtain rfl := Except.ok.inj (h.symm.trans ha)
    rw [CacheSignature.compare_ok.mpr rfl]
    cases expected.compare sig .incompatible <;> rfl

end Frink.KvDisk
