import Frink.Decode.Text

/-! # Splitting off the reasoning

A model's output is cut into its chain of thought and its answer while it arrives. Most families
put the thought between two markers; the harmony format names a channel in front of every message
and is scanned anew with each increment. Offsets of markers are counted in characters, the lengths
the code compares or keeps in bytes.
-/

namespace Frink.Reasoning
open Decode
open Tool (isWhitespace trim trimStart trimEnd splitWhitespace stripPrefix contains byteLen)

def TOOL_HOLD_MAX : ℕ := 512

/-- The families that put a thought between two markers, and the harmony format. -/
inductive ReasoningFormat
  | deepSeekV32
  | think
  | thinkAlwaysOpen
  | miniMaxM3
  | gemma4
  | gptOss
  deriving DecidableEq

structure Markers where
  start : Text
  end_ : Text
  toolStart : Option Text
  alwaysOpen : Bool

namespace ReasoningFormat

def markers : ReasoningFormat → Markers
  | deepSeekV32 => ⟨"<think>".toList, "</think>".toList, some "<｜DSML｜".toList, true⟩
  | think => ⟨"<think>".toList, "</think>".toList, none, false⟩
  | thinkAlwaysOpen => ⟨"<think>".toList, "</think>".toList, none, true⟩
  | miniMaxM3 =>
      ⟨"<mm:think>".toList, "</mm:think>".toList, some "]<]minimax[>[<tool_call>".toList, false⟩
  | gemma4 => ⟨"<|channel>thought\n".toList, "<channel|>".toList, none, false⟩
  | gptOss => ⟨[], [], none, false⟩

/-- Whether a pair of markers delimits the thought. -/
def delimited : ReasoningFormat → Bool
  | gptOss => false
  | _ => true

end ReasoningFormat

/-- One increment's worth of split output. -/
@[ext]
structure ReasoningDelta where
  reasoning : Text := []
  content : Text := []
  deriving DecidableEq

namespace ReasoningDelta

instance : Append ReasoningDelta where
  append d e := ⟨d.reasoning ++ e.reasoning, d.content ++ e.content⟩

/-- The delta written out, its reasoning first. -/
def written (d : ReasoningDelta) : Text := d.reasoning ++ d.content

def trimmed (d : ReasoningDelta) : ReasoningDelta := ⟨trim d.reasoning, trim d.content⟩

@[simp] theorem append_reasoning (d e : ReasoningDelta) :
    (d ++ e).reasoning = d.reasoning ++ e.reasoning := rfl

@[simp] theorem append_content (d e : ReasoningDelta) :
    (d ++ e).content = d.content ++ e.content := rfl

end ReasoningDelta

/-! ## The harmony format -/

def HARMONY_CHANNEL : Text := "<|channel|>".toList
def HARMONY_MESSAGE : Text := "<|message|>".toList
def HARMONY_BOUNDARIES : List Text :=
  ["<|end|>", "<|return|>", "<|call|>", "<|start|>", "<|channel|>"].map String.toList
def HARMONY_CLOSERS : List Text := ["<|end|>", "<|return|>", "<|call|>"].map String.toList

/-- The counters are lengths in bytes of what has been emitted of the last scan. -/
structure HarmonyState where
  buffer : Text := []
  emittedReasoning : ℕ := 0
  emittedContent : ℕ := 0
  passthrough : Bool := false

/-- The marker where it stands before the best so far. -/
def nearer (text : Text) (best : ℕ × Option Text) (marker : Text) : ℕ × Option Text :=
  match findText marker text with
  | some index => if index < best.1 then (index, some marker) else best
  | none => best

/-- The earliest of `markers`, and which one it was; the end of the text if there is none. -/
def earliestMarker (text : Text) (markers : List Text) : ℕ × Option Text :=
  markers.foldl (nearer text) (text.length, none)

/-- The text without the tail that may still become one of `markers`. -/
def withoutPartial (text : Text) (markers : List Text) : Text :=
  text.take (text.length - stopPrefixHoldback text markers)

/-- A message of the scan: its header, its body, what ended the body and the text from there on. -/
structure HarmonyMessage where
  header : Text
  body : Text
  boundary : Option Text
  rest : Text

namespace HarmonyMessage

variable (m : HarmonyMessage)

def channelName : Text := (splitWhitespace m.header).headD []

/-- A commentary channel addressed to a function. -/
def isTool : Bool := m.channelName == "commentary".toList && contains m.header "to=functions".toList

/-- What a message adds to the reasoning and to the content. -/
def emit (holdPartial : Bool) : ReasoningDelta :=
  if m.isTool then
    { content := HARMONY_CHANNEL ++ m.header ++ HARMONY_MESSAGE ++ m.body ++
        ((m.boundary.filter HARMONY_CLOSERS.contains).getD []) }
  else
    let body := if m.boundary.isNone && holdPartial then withoutPartial m.body HARMONY_BOUNDARIES
      else m.body
    if m.channelName == "analysis".toList then { reasoning := body } else { content := body }

end HarmonyMessage

/-- The first message whose header is complete. -/
def nextMessage (text : Text) : Option HarmonyMessage :=
  match findText HARMONY_CHANNEL text with
  | none => none
  | some channel =>
      let opened := text.drop (channel + HARMONY_CHANNEL.length)
      match findText HARMONY_MESSAGE opened with
      | none => none
      | some message =>
          let body := opened.drop (message + HARMONY_MESSAGE.length)
          let (finish, which) := earliestMarker body HARMONY_BOUNDARIES
          some ⟨opened.take message, body.take finish, which, body.drop finish⟩

theorem length_rest_lt {text : Text} {m : HarmonyMessage} (h : nextMessage text = some m) :
    m.rest.length < text.length := by
  unfold nextMessage at h
  split at h
  · cases h
  rename_i channel hc
  have hle := Tool.findText_le hc
  dsimp only at h
  split at h
  · cases h
  · obtain rfl := Option.some.inj h
    have hpos : HARMONY_CHANNEL.length = 11 := by decide
    simp only [List.length_drop]
    omega

/-- The messages in order, up to the one whose body is still open. -/
def scanMessages (holdPartial : Bool) (text : Text) : ReasoningDelta :=
  match _h : nextMessage text with
  | none => {}
  | some m =>
      if m.boundary.isNone then m.emit holdPartial
      else m.emit holdPartial ++ scanMessages holdPartial m.rest
termination_by text.length
decreasing_by exact length_rest_lt _h

/-- Text without a channel is passed through. -/
def harmonyScan (holdPartial : Bool) (text : Text) : ReasoningDelta :=
  if contains text HARMONY_CHANNEL then scanMessages holdPartial text
  else { content := if holdPartial then withoutPartial text [HARMONY_CHANNEL] else text }

/-- `text.get(at..)`, or nothing where `at` is past the end or inside a character. -/
def getFrom : ℕ → Text → Text
  | 0, text => text
  | _ + 1, [] => []
  | n + 1, c :: text => if n + 1 < c.utf8Size then [] else getFrom (n + 1 - c.utf8Size) text

namespace HarmonyState

variable (s : HarmonyState)

/-- What a scan adds to what has gone out. -/
def harmonyDelta (scan : ReasoningDelta) : ReasoningDelta × HarmonyState :=
  let passthrough := !contains s.buffer HARMONY_CHANNEL
  let s := if passthrough != s.passthrough then
      { s with emittedReasoning := 0, emittedContent := 0, passthrough := passthrough }
    else s
  (⟨getFrom s.emittedReasoning scan.reasoning, getFrom s.emittedContent scan.content⟩,
    { s with
      emittedReasoning := byteLen scan.reasoning
      emittedContent := byteLen scan.content })

def pushHarmony (chunk : Text) : ReasoningDelta × HarmonyState :=
  let s := { s with buffer := s.buffer ++ chunk }
  s.harmonyDelta (harmonyScan true s.buffer)

def flushHarmony : ReasoningDelta × HarmonyState :=
  ((s.harmonyDelta (harmonyScan false s.buffer)).1, {})

end HarmonyState

/-! ## The marker families -/

structure ReasoningParser where
  format : ReasoningFormat
  inReasoning : Bool
  streamReasoning : Bool
  buffer : Text
  strippedStart : Bool
  harmony : HarmonyState
  leadingCloserPending : Bool
  headBuffer : Text

namespace ReasoningParser

def new (format : ReasoningFormat) (forceReasoning streamReasoning : Bool) : ReasoningParser :=
  let force := forceReasoning || format.markers.alwaysOpen
  { format := format
    inReasoning := force
    streamReasoning := streamReasoning
    buffer := []
    strippedStart := false
    harmony := {}
    leadingCloserPending := format == .miniMaxM3 && !force
    headBuffer := [] }

variable (p : ReasoningParser)

def markers : Markers := p.format.markers

/-- The markers this parser tracks. -/
def candidates : List Text :=
  (p.markers.end_ :: ((if !p.strippedStart then [p.markers.start] else []) ++
    p.markers.toolStart.toList)).filter (· ≠ [])

/-- The longest trailing run of the buffer that may still grow into a tracked marker. -/
def trailingPartialLen : ℕ := stopPrefixHoldback p.buffer p.candidates

/-- Drop the opener, wherever in the buffer it stands. -/
def stripStart : ReasoningParser :=
  if p.strippedStart || p.markers.start.isEmpty then p
  else
    match findText p.markers.start p.buffer with
    | none => p
    | some index =>
        { p with
          buffer := p.buffer.take index ++ p.buffer.drop (index + p.markers.start.length)
          strippedStart := true
          inReasoning := true }

/-- Release what no marker can begin in any more. -/
def releaseSafe : ReasoningDelta × ReasoningParser :=
  let safeEnd := p.buffer.length - p.trailingPartialLen
  if p.inReasoning && !p.streamReasoning then ({}, p)
  else
    let safe := p.buffer.take safeEnd
    let p := { p with buffer := p.buffer.drop safeEnd }
    if p.inReasoning then ({ reasoning := safe }, p) else ({ content := safe }, p)

/-- Hold from a tool marker on, until it is too long for a quotation. -/
def holdTool (tool : Text) : ReasoningDelta × ReasoningParser :=
  match findText tool p.buffer with
  | none => p.releaseSafe
  | some index =>
      let reasoning := p.buffer.take index
      let held := p.buffer.drop index
      if byteLen held > TOOL_HOLD_MAX then
        (⟨reasoning, held⟩, { p with buffer := [], inReasoning := false })
      else ({ reasoning := reasoning }, { p with buffer := held })

/-- Inside a block: the closer first, then a tool marker. -/
def insideBlock : ReasoningDelta × ReasoningParser :=
  match (if p.markers.end_.isEmpty then none else findText p.markers.end_ p.buffer) with
  | some finish =>
      (⟨trimEnd (p.buffer.take finish), p.buffer.drop (finish + p.markers.end_.length)⟩,
        { p with buffer := [], inReasoning := false })
  | none =>
      match p.markers.toolStart with
      | some tool => p.holdTool tool
      | none => p.releaseSafe

def pushMarker (chunk : Text) : ReasoningDelta × ReasoningParser :=
  let p := { p with buffer := p.buffer ++ chunk }.stripStart
  if p.inReasoning then p.insideBlock else p.releaseSafe

/-- Whether `text` is a non-empty proper prefix of `marker`. -/
def isPartialPrefix (text marker : Text) : Bool :=
  !text.isEmpty && byteLen text < byteLen marker && text.isPrefixOf marker

/-- The head of the stream, held until it is clear whether it is a bare closer. -/
def pushLeadingCloser (chunk : Text) : ReasoningDelta × ReasoningParser :=
  let headBuffer := p.headBuffer ++ chunk
  let head := trimStart headBuffer
  match stripPrefix head p.markers.end_ with
  | some rest =>
      { p with headBuffer := [], leadingCloserPending := false, inReasoning := false }.pushMarker rest
  | none =>
      if isPartialPrefix head p.markers.end_ then ({}, { p with headBuffer := headBuffer })
      else { p with headBuffer := [], leadingCloserPending := false }.pushMarker headBuffer

def push (chunk : Text) : ReasoningDelta × ReasoningParser :=
  if p.format == .gptOss then
    let (delta, harmony) := p.harmony.pushHarmony chunk
    (delta, { p with harmony := harmony })
  else if p.leadingCloserPending then p.pushLeadingCloser chunk
  else p.pushMarker chunk

/-- What is still held of the buffer: a tool call if it begins as one, whatever the block said. -/
def flushBuffer : ReasoningDelta × ReasoningParser :=
  let held := p.buffer
  let p := { p with buffer := [] }
  if held.isEmpty then ({}, p)
  else if p.markers.toolStart.any fun tool => tool.isPrefixOf (trimStart held) then
    ({ content := held }, { p with inReasoning := false })
  else if p.inReasoning then ({ reasoning := held }, p)
  else ({ content := held }, p)

def flush : ReasoningDelta × ReasoningParser :=
  if p.format == .gptOss then
    let (delta, harmony) := p.harmony.flushHarmony
    (delta, { p with harmony := harmony })
  else if p.leadingCloserPending && !p.headBuffer.isEmpty then
    let (delta, p) := { p with headBuffer := [], leadingCloserPending := false }.pushMarker p.headBuffer
    let (tail, p) := p.flushBuffer
    (delta ++ tail, p)
  else p.flushBuffer

/-- Split a complete response: a fresh parser is pushed all of it and flushed. -/
def parseComplete (text : Text) : ReasoningDelta :=
  let clone := { new p.format p.inReasoning true with leadingCloserPending := p.leadingCloserPending }
  let (out, clone) := clone.push text
  (out ++ clone.flush.1).trimmed

/-- The deltas of a whole stream, the flush's last. -/
def stream (p : ReasoningParser) : List Text → List ReasoningDelta
  | [] => [p.flush.1]
  | chunk :: chunks => (p.push chunk).1 :: (p.push chunk).2.stream chunks

/-- What a stream delivers in total. -/
def deliver (p : ReasoningParser) (chunks : List Text) : ReasoningDelta :=
  (p.stream chunks).foldr (· ++ ·) {}

theorem deliver_nil : p.deliver [] = p.flush.1 ++ {} := rfl

theorem deliver_cons (chunk : Text) (chunks : List Text) :
    p.deliver (chunk :: chunks) = (p.push chunk).1 ++ (p.push chunk).2.deliver chunks := rfl

end ReasoningParser

end Frink.Reasoning
