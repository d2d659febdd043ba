import Mathlib
import Frink.Gguf.Reader

/-! # One model over several files

A set of shards is opened from any one of its files: the others are found by
name, each is checked against its number and the count, and the tensors are
indexed over all of them. Which lookups were made is not recorded here.
-/

/-! ## Shard file names

One file of a split model is named after the set, its own number and the number
of files. Paths are their characters, and the files there are map a path to the
bytes stored under it.
-/

namespace Frink.Gguf

abbrev Path := List Char

/-- The bytes stored under each path. -/
abbrev Disk := Path → Option (List UInt8)

def Disk.write (disk : Disk) (path : Path) (bytes : List UInt8) : Disk :=
  fun p => if p = path then some bytes else disk p

@[simp] theorem Disk.write_same (disk : Disk) (path : Path) (bytes : List UInt8) :
    disk.write path bytes path = some bytes := if_pos rfl

theorem Disk.write_other {path p : Path} (disk : Disk) (bytes : List UInt8) (h : p ≠ path) :
    disk.write path bytes p = disk p := if_neg h

/-- The parsed canonical name `<prefix>-NNNNN-of-MMMMM.gguf`. -/
@[ext] structure ShardName where

  pathPrefix : Path
  no : ℕ
  count : ℕ
  deriving DecidableEq

/-- The last `width` decimal digits. -/
def decimal : ℕ → ℕ → List Char
  | 0, _ => []
  | width + 1, n => decimal width (n / 10) ++ [Nat.digitChar (n % 10)]

/-- The format `{:05}`. -/
def pad5 (n : ℕ) : List Char := if n < 10 ^ 5 then decimal 5 n else Nat.toDigits 10 n

def stripSuffix (suffix s : List Char) : Option (List Char) :=
  if suffix <:+ s then some (s.take (s.length - suffix.length)) else none

/-- All but the last `n` characters, and the last `n`. -/
def splitEnd (n : ℕ) (s : List Char) : List Char × List Char :=
  (s.take (s.length - n), s.drop (s.length - n))

/-- The number that digits write; `none` when a character is not a digit. -/
def readDigits (ds : List Char) : Option ℕ :=
  if ds.all Char.isDigit then some (ds.foldl (fun n c => 10 * n + (c.toNat - 48)) 0) else none

namespace ShardName

/-- Lengths are counted in characters: where a byte count could differ, a character of a number
field is no digit. -/
def parse (path : Path) : Option ShardName := do
  let stem ← stripSuffix ".gguf".toList path
  let (rest, countStr) := splitEnd 5 stem
  if stem.length < 15 then none
  else do
    let count ← readDigits countStr
    let rest ← stripSuffix "-of-".toList rest
    let (prefixDash, noStr) := splitEnd 5 rest
    if rest.length < 6 then none
    else do
      let no ← readDigits noStr
      let pathPrefix ← stripSuffix ['-'] prefixDash
      if pathPrefix = [] then none else some ⟨pathPrefix, no, count⟩

/-- The canonical path of shard `no` in this set. -/
def sibling (name : ShardName) (no : ℕ) : Path :=
  name.pathPrefix ++ (['-'] ++ (pad5 no ++ ("-of-".toList ++ (pad5 name.count ++ ".gguf".toList))))

end ShardName

@[simp] theorem length_decimal (width n : ℕ) : (decimal width n).length = width := by
  induction width generalizing n with
  | zero => rfl
  | succ width ih => simp [decimal, ih]

theorem digitChar_digit : ∀ d < 10,
    (Nat.digitChar d).isDigit = true ∧ (Nat.digitChar d).toNat - 48 = d := by decide

theorem readDigits_decimal {width n : ℕ} (h : n < 10 ^ width) :
    readDigits (decimal width n) = some n := by
  have hmain : (decimal width n).all Char.isDigit = true ∧
      (decimal width n).foldl (fun n c => 10 * n + (c.toNat - 48)) 0 = n := by
    induction width generalizing n with
    | zero =>
      constructor
      · rfl
      · show 0 = n
        omega
    | succ width ih =>
      obtain ⟨hdigit, hval⟩ := digitChar_digit _ (Nat.mod_lt n (by decide : 10 > 0))
      obtain ⟨hall, hfold⟩ := ih (by rw [Nat.pow_succ] at h; omega : n / 10 < 10 ^ width)
      constructor
      · rw [decimal, List.all_append, hall]
        simp [hdigit]
      · rw [decimal, List.foldl_append, hfold, List.foldl_cons, List.foldl_nil, hval]
        omega
  rw [readDigits, if_pos hmain.1, hmain.2]

theorem pad5_of_lt {n : ℕ} (h : n < 10 ^ 5) : pad5 n = decimal 5 n := if_pos h

theorem stripSuffix_append (s suffix : List Char) : stripSuffix suffix (s ++ suffix) = some s := by
  rw [stripSuffix, if_pos (List.suffix_append s suffix), List.length_append, Nat.add_sub_cancel,
    List.take_left]

theorem splitEnd_append {n : ℕ} {s tail : List Char} (h : tail.length = n) :
    splitEnd n (s ++ tail) = (s, tail) := by
  rw [splitEnd, List.length_append, h, Nat.add_sub_cancel, List.take_left, List.drop_left]

/-- A sibling's path is parsed back, when there is a prefix and the numbers have five digits. -/
theorem ShardName.parse_sibling {name : ShardName} {no : ℕ} (hp : name.pathPrefix ≠ [])
    (hno : no < 10 ^ 5) (hcount : name.count < 10 ^ 5) :
    parse (name.sibling no) = some { name with no } := by
  have hpos := List.length_pos_of_ne_nil hp
  have hpath : name.sibling no = ((((name.pathPrefix ++ ['-']) ++ decimal 5 no) ++ "-of-".toList) ++
      decimal 5 name.count) ++ ".gguf".toList := by
    simp only [sibling, pad5_of_lt hno, pad5_of_lt hcount, List.append_assoc]
  rw [parse, hpath, stripSuffix_append]
  simp only [Option.bind_eq_bind, Option.bind_some]
  rw [splitEnd_append (length_decimal 5 _)]
  dsimp only
  rw [if_neg (by simp), readDigits_decimal hcount, Option.bind_some, stripSuffix_append,
    Option.bind_some, splitEnd_append (length_decimal 5 _)]
  dsimp only
  rw [if_neg (by simp), readDigits_decimal hno, Option.bind_some, stripSuffix_append,
    Option.bind_some, if_neg hp]

theorem decimal_injective {width m n : ℕ} (hm : m < 10 ^ width) (hn : n < 10 ^ width)
    (h : decimal width m = decimal width n) : m = n := by
  have hread := readDigits_decimal hm
  rw [h, readDigits_decimal hn, Option.some.injEq] at hread
  exact hread.symm

theorem ShardName.sibling_injective {name : ShardName} {m n : ℕ} (hm : m < 10 ^ 5)
    (hn : n < 10 ^ 5) (h : name.sibling m = name.sibling n) : m = n := by
  rw [sibling, sibling, List.append_cancel_left_eq, List.append_cancel_left_eq,
    List.append_cancel_right_eq, pad5_of_lt hm, pad5_of_lt hn] at h
  exact decimal_injective hm hn h

end Frink.Gguf

namespace Frink.Gguf

def SPLIT_NO_KEY : String := "split.no"
def SPLIT_COUNT_KEY : String := "split.count"
def SPLIT_TENSORS_COUNT_KEY : String := "split.tensors.count"

def metadataU64 (metadata : Metadata) (key : String) : Option ℕ :=
  (metadata.lookup key).bind GgufValue.asU64

inductive OpenError where
  | io
  | gguf (e : GgufError)

/-- A file is mapped whole, so it cannot be longer than a mapping. -/
def openFile (disk : Disk) (path : Path) : Except OpenError GgufFile :=
  match disk path with
  | none => .error .io
  | some bytes =>
      if h : bytes.length < 2 ^ 63 then (GgufFile.parse ⟨bytes, h⟩).mapError .gguf
      else .error .io

inductive ShardError where
  | gguf (e : OpenError)
  | nonCanonicalName (path : Path) (count : ℕ)
  | missingShard (path : Path) (count : ℕ)
  | shardNumberMismatch (path : Path) (expected found : ℕ)
  | shardCountMismatch (path : Path) (expected found : ℕ)
  | missingSplitKey (path : Path) (key : String)
  | duplicateTensorName (name : String) (first second : ℕ)
  | tensorCountMismatch (expected found : ℕ)
  | inconsistentMetadata (path : Path) (key : String)

mutual

/-- Structural equality, floats by their bits. -/
def ggufValueEq : GgufValue → GgufValue → Bool
  | .u8 x, .u8 y => x == y
  | .i8 x, .i8 y => x == y
  | .u16 x, .u16 y => x == y
  | .i16 x, .i16 y => x == y
  | .u32 x, .u32 y => x == y
  | .i32 x, .i32 y => x == y
  | .f32 x, .f32 y => x == y
  | .bool x, .bool y => x == y
  | .string x, .string y => x == y
  | .u64 x, .u64 y => x == y
  | .i64 x, .i64 y => x == y
  | .f64 x, .f64 y => x == y
  | .array x, .array y => ggufItemsEq x y
  | _, _ => false

def ggufItemsEq : List GgufValue → List GgufValue → Bool
  | [], [] => true
  | x :: xs, y :: ys => ggufValueEq x y && ggufItemsEq xs ys
  | _, _ => false

end

/-- Where each tensor is: its shard, and its place in the shard's table. -/
abbrev TensorIndex := AList fun _ : String => ℕ × ℕ

/-- The tensors of shard `si`, from place `ti` on; shards are reported from 1. -/
def indexTensors (si : ℕ) : ℕ → TensorIndex → List TensorInfo → Except ShardError TensorIndex
  | _, index, [] => .ok index
  | ti, index, t :: ts =>
      match index.lookup t.name with
      | some (prev, _) => .error (.duplicateTensorName t.name (prev + 1) (si + 1))
      | none => indexTensors si (ti + 1) (index.insert t.name (si, ti)) ts

def indexShards : ℕ → TensorIndex → List GgufFile → Except ShardError TensorIndex
  | _, index, [] => .ok index
  | si, index, shard :: shards => do
      let index ← indexTensors si 0 index shard.tensors
      indexShards (si + 1) index shards

structure ShardedGguf where

  shards : List GgufFile
  paths : List Path
  index : TensorIndex

namespace ShardedGguf

def fromSingle (file : GgufFile) (path : Path) : Except ShardError ShardedGguf := do
  let index ← indexShards 0 ∅ [file]
  .ok ⟨[file], [path], index⟩

/-- A bookkeeping key that every shard has to carry. -/
def splitKey (shard : GgufFile) (path : Path) (key : String) : Except ShardError ℕ :=
  match metadataU64 shard.metadata key with
  | none => .error (.missingSplitKey path key)
  | some n => .ok n

/-- Shard `no` of the set, 1-based in the name and 0-based in the metadata. -/
def openShard (disk : Disk) (name : ShardName) (no : ℕ) : Except ShardError GgufFile := do
  let path := name.sibling no
  if (disk path).isNone then .error (.missingShard path name.count)
  else do
    let shard ← (openFile disk path).mapError .gguf
    let metaNo ← splitKey shard path SPLIT_NO_KEY
    if metaNo ≠ no - 1 then .error (.shardNumberMismatch path (no - 1) metaNo)
    else do
      let metaCount ← splitKey shard path SPLIT_COUNT_KEY
      if metaCount ≠ name.count then .error (.shardCountMismatch path name.count metaCount)
      else .ok shard

/-- A key that a later shard shares with the first has the first's value. -/
def agrees (first : Metadata) (entry : Sigma fun _ : String => GgufValue) : Bool :=
  entry.1 == SPLIT_NO_KEY ||
    match first.lookup entry.1 with
    | some value => ggufValueEq value entry.2
    | none => true

def checkConsistent (first : GgufFile) : List (GgufFile × Path) → Except ShardError Unit
  | [] => .ok ()
  | (shard, path) :: shards =>
      match shard.metadata.entries.find? fun entry => !agrees first.metadata entry with
      | some entry => .error (.inconsistentMetadata path entry.1)
      | none => checkConsistent first shards

/-- The count that the first shard declares, if it declares one. -/
def checkCount (first : GgufFile) (index : TensorIndex) : Except ShardError Unit :=
  match metadataU64 first.metadata SPLIT_TENSORS_COUNT_KEY with
  | none => .ok ()
  | some expected =>
      if expected ≠ index.entries.length then
        .error (.tensorCountMismatch expected index.entries.length)
      else .ok ()

def fromShardSet (disk : Disk) (name : ShardName) : Except ShardError ShardedGguf := do
  let numbers := List.range' 1 name.count
  let shards ← numbers.mapM (openShard disk name)
  let paths := numbers.map name.sibling
  match shards with
  | [] => .error (.missingShard (name.sibling 1) name.count)
  | first :: _ => do
      checkConsistent first ((shards.zip paths).drop 1)
      let index ← indexShards 0 ∅ shards
      checkCount first index
      .ok ⟨shards, paths, index⟩

/-- Opens the shard set that contains `path`, or a plain file as a set of one. -/
def openSet (disk : Disk) (path : Path) : Except ShardError ShardedGguf := do
  let first ← (openFile disk path).mapError .gguf
  let count := (metadataU64 first.metadata SPLIT_COUNT_KEY).getD 0
  if count ≤ 1 then fromSingle first path
  else
    match ShardName.parse path with
    | none => .error (.nonCanonicalName path count)
    | some name =>
        if name.count ≠ count then .error (.shardCountMismatch path name.count count)
        else fromShardSet disk name

variable (set : ShardedGguf)

/-- Every tensor in the set, shard by shard. -/
def tensors : List TensorInfo := set.shards.flatMap fun shard => shard.tensors

def tensorBytes (name : String) : Except GgufError (List UInt8) :=
  match set.index.lookup name with
  | none => .error (.tensorNotFound name)
  | some (si, _) =>
      match set.shards[si]? with
      | none => .error (.tensorNotFound name)
      | some shard => shard.tensorBytes name

/-- The first shard that has the key wins. -/
def metadata (key : String) : Option GgufValue :=
  set.shards.findSome? fun shard => shard.metadata.lookup key

end ShardedGguf

end Frink.Gguf
