import Mathlib
import Frink.Library.Guarded
import Frink.Gguf.Sharded

/-! # Splitting a file and merging it back

The planner cuts the tensors of a source into shards, in order, and prices every
shard before one is written. The first shard keeps the source's metadata, the
others carry the bookkeeping keys alone. A sum or a padding past 64 bits is a
hazard: a planner that meets one accepts nothing.
-/

namespace Frink.Gguf

open Codec Guarded

inductive SplitMode where
  | maxTensors (n : ℕ)
  | maxBytes (max : ℕ)
  deriving DecidableEq

structure SplitOptions where

  mode : SplitMode
  noTensorFirstSplit : Bool

inductive SplitError where
  | gguf (e : GgufError)
  | write (e : GgufWriteError)
  | shard (e : ShardError)
  | io (path : Path)
  | zeroMaxTensors
  | zeroMaxBytes
  | inputIsSplit (count : ℕ)
  | tensorExceedsShard (name : String) (bytes max : ℕ)
  | tooManyShards (n : ℕ)
  | tooManyTensors (n : ℕ)
  | notFirstShard (path : Path)
  | notSplit (path : Path)
  | zeroSplitCount (path : Path)
  | outputExists (path : Path)

abbrev Planning := Result SplitError

/-- The entries in key order. -/
def toBTreeMap (metadata : Metadata) : Metadata where
  entries := metadata.entries.insertionSort fun a b => a.1 ≤ b.1
  nodupKeys := (List.perm_nodupKeys (List.perm_insertionSort _ _)).mpr metadata.nodupKeys

structure ShardPlan where

  metadata : Metadata
  tensors : List TensorPlan
  headerBytes : ℕ
  dataBytes : ℕ
  fileBytes : ℕ

structure SplitPlan where

  shards : List ShardPlan
  nTensors : ℕ

/-- A source tensor's header entry for the output. -/
def tensorPlan (t : TensorInfo) : Except GgufError TensorPlan :=
  match byteLen t.shape t.dtype with
  | none => .error (.unsizedTensor t.name t.dtype)
  | some len => .ok ⟨t.name, t.shape, t.dtype, len⟩

def splitKeys (no count nTensors : ℕ) : List (String × GgufValue) :=
  [(SPLIT_NO_KEY, .u16 (.ofNat 16 no)), (SPLIT_COUNT_KEY, .u16 (.ofNat 16 count)),
    (SPLIT_TENSORS_COUNT_KEY, .i32 (.ofNat 32 nTensors))]

/-- A result of another component, its error passed on. -/
def liftError {ε α : Type} (wrap : ε → SplitError) (x : Except ε α) : Planning α :=
  x.mapError fun e => .refused (wrap e)

def saturatingAdd (a b : ℕ) : ℕ := min (a + b) (U64_LIMIT - 1)

/-- The shards so far: the last is still open, and holds `current` padded bytes. -/
structure Groups where

  closed : List (List TensorPlan)
  last : List TensorPlan
  current : ℕ

namespace Groups

def toList (g : Groups) : List (List TensorPlan) := g.closed ++ [g.last]

def start (opts : SplitOptions) : Groups :=
  ⟨if opts.noTensorFirstSplit then [[]] else [], [], 0⟩

end Groups

/-- Whether tensor `i` starts a shard, given the padded bytes of the open one with it. -/
def boundary (mode : SplitMode) (i next : ℕ) : Bool :=
  match mode with
  | .maxBytes max => max < next
  | .maxTensors n => 0 < i && i % n == 0

/-- What is wrong where a shard would be closed empty. -/
def emptyShard (mode : SplitMode) (t : TensorPlan) (padded : ℕ) : Fault SplitError :=
  match mode with
  | .maxBytes max => .refused (.tensorExceedsShard t.name padded max)
  | .maxTensors _ => .hazard .assertion

/-- Tensor `i` in the open shard, or in a new one. -/
def placeTensor (mode : SplitMode) (alignment : ℕ) (g : Groups) (i : ℕ) (t : TensorPlan) :
    Planning Groups := do
  let padded ← fitU64 (nextMultipleOf t.byteLen alignment)
  let next := saturatingAdd g.current padded
  if boundary mode i next then
    if g.last = [] then .error (emptyShard mode t padded)
    else .ok ⟨g.closed ++ [g.last], [t], padded⟩
  else .ok ⟨g.closed, g.last ++ [t], next⟩

/-- The tensors in order, from tensor `i` on. -/
def placeTensors (mode : SplitMode) (alignment : ℕ) : ℕ → Groups → List TensorPlan → Planning Groups
  | _, g, [] => .ok g
  | i, g, t :: ts => do
      let g ← placeTensor mode alignment g i t
      placeTensors mode alignment (i + 1) g ts

def insertKeys (metadata : Metadata) (keys : List (String × GgufValue)) : Metadata :=
  keys.foldl (fun m key => m.insert key.1 key.2) metadata

/-- The metadata of shard `no`: the source's for the first, the bookkeeping for all. -/
def shardMetadata (source : Metadata) (no count nTensors : ℕ) : Metadata :=
  toBTreeMap (insertKeys (if no = 0 then source else ∅) (splitKeys no count nTensors))

/-- A sum that is taken in 64 bits. -/
def sumU64 (xs : List ℕ) : Planning ℕ := fitU64 xs.sum

/-- Shard `no`, priced with the source's alignment. -/
def planShard (source : GgufFile) (alignment count no : ℕ) (tensors : List TensorPlan) :
    Planning ShardPlan := do
  let metadata := shardMetadata source.metadata no count source.tensors.length
  let header ← liftError .write (encodeHeader metadata tensors)
  let dataBytes ← sumU64 (tensors.map TensorPlan.byteLen)
  let paddedBytes ← sumU64 (tensors.map fun t => nextMultipleOf t.byteLen alignment)
  let fileBytes ← addU64 header.length paddedBytes
  .ok { metadata, tensors, headerBytes := header.length, dataBytes, fileBytes }

/-- The shards from `no` on. -/
def planShards (source : GgufFile) (alignment count : ℕ) :
    ℕ → List (List TensorPlan) → Planning (List ShardPlan)
  | _, [] => .ok []
  | no, group :: groups => do
      let shard ← planShard source alignment count no group
      let shards ← planShards source alignment count (no + 1) groups
      .ok (shard :: shards)

def checkMode : SplitMode → Planning Unit
  | .maxTensors n => ensure (n ≠ 0) .zeroMaxTensors
  | .maxBytes max => ensure (max ≠ 0) .zeroMaxBytes

/-- Which tensors go in which shard, and what each shard will look like. -/
def planSplit (source : GgufFile) (opts : SplitOptions) : Planning SplitPlan := do
  let declared := (metadataU64 source.metadata SPLIT_COUNT_KEY).getD 0
  ensure (declared ≤ 1) (.inputIsSplit declared)
  checkMode opts.mode
  let alignment ← liftError .write
    (declaredAlignment (source.metadata.lookup "general.alignment"))
  ensure (source.tensors.length < 2 ^ 31) (.tooManyTensors source.tensors.length)
  let plans ← liftError .gguf (source.tensors.mapM tensorPlan)
  let groups ← placeTensors opts.mode alignment 0 (.start opts) plans
  ensure (groups.toList.length < 2 ^ 16) (.tooManyShards groups.toList.length)
  let shards ← planShards source alignment groups.toList.length 0 groups.toList
  .ok { shards, nTensors := source.tensors.length }

/-- The path that the plan writes for 0-based shard `no`. -/
def shardPath (pathPrefix : Path) (no count : ℕ) : Path :=
  ShardName.sibling { pathPrefix, no := 0, count } (no + 1)

/-- The planned tensors in order, each with the bytes that are found under its name. -/
def writeNamed (bytesOf : String → Except GgufError (List UInt8)) :
    GgufWriter → List TensorPlan → Except SplitError GgufWriter
  | w, [] => .ok w
  | w, t :: ts => do
      let bytes ← (bytesOf t.name).mapError .gguf
      let w ← (w.writeTensor t.name bytes).mapError .write
      writeNamed bytesOf w ts

/-- One file of these tensors, with the bytes that are found under their names. -/
def writeFileFrom (bytesOf : String → Except GgufError (List UInt8)) (metadata : Metadata)
    (tensors : List TensorPlan) : Except SplitError (List UInt8) := do
  let w ← (GgufWriter.create metadata tensors).mapError .write
  let w ← writeNamed bytesOf w tensors
  w.finish.mapError .write

/-- The shards from `no` on, each under its own name. -/
def writeShards (source : GgufFile) (pathPrefix : Path) (count : ℕ) :
    ℕ → Disk → List ShardPlan → Except SplitError Disk
  | _, disk, [] => .ok disk
  | no, disk, shard :: shards => do
      let bytes ← writeFileFrom source.tensorBytes shard.metadata shard.tensors
      writeShards source pathPrefix count (no + 1)
        (disk.write (shardPath pathPrefix no count) bytes) shards

/-- Every shard of the plan, at `shardPath`. -/
def writeSplit (source : GgufFile) (plan : SplitPlan) (pathPrefix : Path) (disk : Disk) :
    Except SplitError Disk :=
  writeShards source pathPrefix plan.shards.length 0 disk plan.shards

/-- A merge, planned before anything is written. -/
structure MergePlan where

  set : ShardedGguf
  metadata : Metadata
  tensors : List TensorPlan

def openFirst (disk : Disk) (first : Path) : Except SplitError GgufFile :=
  match openFile disk first with
  | .ok file => .ok file
  | .error .io => .error (.io first)
  | .error (.gguf e) => .error (.gguf e)

/-- The shard set whose first file is `first`, and the layout of the merged file. -/
def planMerge (disk : Disk) (first : Path) : Except SplitError MergePlan :=
  match (ShardName.parse first).filter (·.no = 1) with
  | none => .error (.notFirstShard first)
  | some name => do
      let firstFile ← openFirst disk first
      match metadataU64 firstFile.metadata SPLIT_COUNT_KEY with
      | none => .error (.notSplit first)
      | some 0 => .error (.zeroSplitCount first)
      | some count =>
          if name.count ≠ count then
            .error (.shard (.shardCountMismatch first name.count count))
          else do
            let set ← (ShardedGguf.openSet disk first).mapError .shard
            let tensors ← (set.tensors.mapM tensorPlan).mapError .gguf
            .ok {
              set
              metadata := toBTreeMap (firstFile.metadata.insert SPLIT_COUNT_KEY (.u16 0))
              tensors }

/-- Writes the merged file, where there is none. -/
def writeMerge (disk : Disk) (plan : MergePlan) (out : Path) : Except SplitError Disk :=
  if (disk out).isSome then .error (.outputExists out)
  else do
    let bytes ← writeFileFrom plan.set.tensorBytes plan.metadata plan.tensors
    .ok (disk.write out bytes)

end Frink.Gguf
