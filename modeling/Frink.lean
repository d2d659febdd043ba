import Frink.Library.Fuel
import Frink.Library.Worklist
import Frink.Library.Forest
import Frink.Library.PrefixMap
import Frink.Grammar.Element
import Frink.Grammar.Utf8
import Frink.Grammar.Machine
import Frink.Grammar.LeftRecursion
import Frink.Grammar.Classes
import Frink.Grammar.Runs
import Frink.Grammar.Termination
import Frink.Grammar.Language
import Frink.Grammar.Recognizer
import Frink.Grammar.Candidates
import Frink.Grammar.Agreement
import Frink.Grammar.Sampler
import Frink.Grammar.MaskAccept
import Frink.Radix.Tree
import Frink.Radix.Plain
import Frink.Radix.WellFormed
import Frink.Radix.Surgery
import Frink.Radix.Walk
import Frink.Radix.Accounting
import Frink.Radix.Balance
import Frink.Radix.Evict
import Frink.Radix.Refinement
import Frink.Radix.Conservation
import Frink.Paged.Store
import Frink.Paged.Window
import Frink.Paged.Ledger
import Frink.Paged.Admission
import Frink.Paged.Sliding
import Frink.Kv.Window
import Frink.Library.Codec
import Frink.Library.Lossy
import Frink.Gguf.Value
import Frink.Gguf.Writer
import Frink.Gguf.Reader
import Frink.Gguf.Fields
import Frink.Gguf.RoundTrip
import Frink.Gguf.Layout
import Frink.Decode.Text
import Frink.Decode.SampleStep
import Frink.Decode.Stream
import Frink.Decode.Speculate
import Frink.Decode.Lossless
import Frink.Decode.Rounds
import Frink.Decode.Speculation
import Frink.Decode.Refusal
import Frink.Batch.Row
import Frink.Batch.Worker
import Frink.Batch.Ledger
import Frink.Batch.Conservation
import Frink.Batch.Tracks
import Frink.Batch.Preemption
import Frink.Library.Machine
import Frink.Batch.Idle
import Frink.Batch.Private
import Frink.Paged.Forward
import Frink.Paged.Reserved
import Frink.Expert.Cache
import Frink.Expert.Prefill
import Frink.Library.Pairing
import Frink.Expert.Placing
import Frink.Expert.Ensure
import Frink.Expert.Residency
import Frink.Library.Guarded
import Frink.KvDisk.Signature
import Frink.KvDisk.Block
import Frink.KvDisk.RoundTrip
import Frink.KvDisk.Hostile
import Frink.Gguf.Metered
import Frink.Gguf.Sharded
import Frink.Gguf.Split
import Frink.Gguf.Cuts
import Frink.Gguf.Pricing
import Frink.Gguf.SplitPlan
import Frink.Gguf.ShardSet
import Frink.Gguf.Merge
import Frink.Slots.Cache
import Frink.Slots.File
import Frink.Slots.Reading
import Frink.Slots.RoundTrip
import Frink.Slots.Hostile
import Frink.Slots.Restore
import Frink.Decode.StopCuts
import Frink.Expert.Slots
import Frink.Expert.Occupants
import Frink.Expert.Executing
import Frink.Expert.Agreement
import Frink.Expert.Labels
import Frink.Grammar.Encoding
import Frink.Grammar.PartialMatch
import Frink.Grammar.Segmentation
import Frink.Speculative.Accept
import Frink.Speculative.Decode
import Frink.Speculative.Target
import Frink.Speculative.Contract
import Frink.Grammar.Source
import Frink.Grammar.Parser
import Frink.Grammar.Factoring
import Frink.Grammar.Syntax
import Frink.Grammar.Symbols
import Frink.Grammar.Table
import Frink.Grammar.Compile
import Frink.Library.Utf8
import Frink.Decode.Utf8Stream
import Frink.Decode.Answer
import Frink.Decode.StopBytes
import Frink.Speculative.Law
import Frink.Library.Overlap
import Frink.Sampling.Dry
import Frink.Sampling.Penalties
import Frink.Sampling.Penalties
import Frink.Library.Recency
import Frink.Kv.PrefixCache
import Frink.Batch.Room
import Frink.Library.Keyed
import Frink.Library.Slab
import Frink.Paged.Rows
import Frink.Paged.Serving
import Frink.Paged.Isolation
import Frink.Sampling.Candidates
import Frink.Sampling.Chain
import Frink.Sampling.Ranked
import Frink.Sampling.Narrow
import Frink.Sampling.Shortcut
import Frink.Sampling.Ties
import Frink.Sampling.Narrow
import Frink.Sampling.Shortcut
import Frink.Library.Overtaking
import Frink.Batch.Line
import Frink.Batch.Overtaking
import Frink.Library.Greedy
import Frink.Tokenizer.Vocab
import Frink.Tokenizer.MergeQueue
import Frink.Tokenizer.Spm
import Frink.Tokenizer.ByteLevel
import Frink.Tokenizer.Bpe
import Frink.Tokenizer.BpeRoundTrip
import Frink.Paged.Append
import Frink.Paged.Atomic
import Frink.Grammar.Replay
import Frink.Radix.Spread
import Frink.Radix.Namespaces
import Frink.Radix.Alone
import Frink.Expert.Staging
import Frink.Library.Occurs
import Frink.Reasoning.Parser
import Frink.Reasoning.Search
import Frink.Reasoning.Whole
import Frink.Reasoning.Split
import Frink.Reasoning.Cuts
import Frink.Reasoning.Agreement
import Frink.Reasoning.Scan
import Frink.Reasoning.Harmony
import Frink.KvDisk.Chain
import Frink.KvDisk.Index
import Frink.Weights.ExpertStore
import Frink.Weights.Admission
import Frink.Budget.Split
import Frink.Budget.Fits
import Frink.Prefill.Pass
import Frink.Prefill.Tiling
import Frink.KvDisk.Accounting
import Frink.Weights.Identity
import Frink.Budget.Context
import Frink.Budget.LargestContext
import Frink.Library.BestPath
import Frink.Tokenizer.Unigram
import Frink.Tokenizer.Plamo2
import Frink.Tokenizer.SuffixSearch
import Frink.Tokenizer.Plamo2Optimal
import Frink.Library.Tiles
import Frink.Safetensors.File
import Frink.Safetensors.Tiling
import Frink.Safetensors.Accept
import Frink.Server.Resume
import Frink.Server.Readers
import Frink.Sampling.Blocks
import Frink.Library.Nearest
import Frink.Library.Table
import Frink.Quant.KQuants
import Frink.Quant.BestCodes
import Frink.Server.Conversations
import Frink.Server.Durable
import Frink.Library.LeastSolution
import Frink.Grammar.Spelling
import Frink.Grammar.Meaning
import Frink.Grammar.Preserved
import Frink.Grammar.EndToEnd
import Frink.Library.Claiming
import Frink.Pool.Barrier
import Frink.Pool.Regions
import Frink.Recurrent.Delta
