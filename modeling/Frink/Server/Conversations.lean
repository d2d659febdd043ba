import Frink.Library.Keyed
import Frink.Server.Resume
import Frink.Decode.Text

/-! # Stored conversations

A conversation is a list of messages, each naming its parent, and the one that is selected. The
store keeps every conversation in memory and one file for each, written under another name and
renamed. Serialization is a parameter, and every file operation may fail.
-/

namespace Frink.Server

open Decode (Text)

def MAX_CONVERSATIONS : ℕ := 500

def MAX_MESSAGES : ℕ := 2000

def MAX_CONTENT_BYTES : ℕ := 2 ^ 20

def MAX_CONVERSATION_BYTES : ℕ := 8 * 2 ^ 20

def MAX_MESSAGE_ID_LEN : ℕ := 128

def MAX_TITLE_CHARS : ℕ := 200

def MAX_APPEND : ℕ := 256

def DERIVED_TITLE_CHARS : ℕ := 60

def ROLES : List Text := ["user".toList, "assistant".toList, "system".toList]

structure MessageNode (μ : Type) where
  id : Text
  parentId : Option Text
  role : Text
  content : Text
  reasoningContent : Option Text
  reasoningMs : Option ℕ
  createdAt : ℕ
  metadata : Option μ
  deriving DecidableEq

structure Conversation (μ : Type) where
  id : Text
  title : Option Text
  model : Option Text
  createdAt : ℕ
  updatedAt : ℕ
  headId : Option Text
  messages : List (MessageNode μ)
  deriving DecidableEq

structure NewMessage (μ : Type) where
  id : Text
  parentId : Option Text
  role : Text
  content : Text
  reasoningContent : Option Text
  reasoningMs : Option ℕ
  metadata : Option μ

structure CreateRequest (μ : Type) where
  title : Option Text
  model : Option Text
  headId : Option Text
  messages : List (NewMessage μ)

structure UpdateRequest (μ : Type) where
  title : Option Text
  model : Option Text
  headId : Option Text
  append : List (NewMessage μ)

/-- Each refusal with what its message is made of. -/
inductive StoreError where
  | notFound
  | invalid (code : String) (about : List Text)
  | tooLarge (code : String) (limit : ℕ)
  | full (held : ℕ)
  | io (what : String)
  deriving DecidableEq

abbrev StoreResult (α : Type) := Except StoreError α

section Ids

def ID_PREFIX : Text := "conv_".toList

/-- Hexadecimal digits, padded with zeros. -/
def hexPadded (width n : ℕ) : Text :=
  List.replicate (width - (Nat.toDigits 16 n).length) '0' ++ Nat.toDigits 16 n

def nextConversationId (stamp n : ℕ) : Text :=
  ID_PREFIX ++ (hexPadded 12 (stamp % 2 ^ 48) ++ hexPadded 6 n)

def isAsciiHexdigit (c : Char) : Bool :=
  c.isDigit || ('a' ≤ c && c ≤ 'f') || ('A' ≤ c && c ≤ 'F')

def isConversationId (id : Text) : Bool :=
  match Tool.stripPrefix id ID_PREFIX with
  | none => false
  | some rest => !rest.isEmpty && Tool.byteLen rest ≤ 32 && rest.all isAsciiHexdigit

end Ids

section Requests

variable {μ : Type}

def Conversation.has (c : Conversation μ) (id : Text) : Bool := c.messages.any fun m => m.id == id

def validatedTitle (title : Option Text) : StoreResult (Option Text) :=
  match title with
  | none => .ok none
  | some title =>
      if title.length > MAX_TITLE_CHARS then .error (.tooLarge "title_too_long" MAX_TITLE_CHARS)
      else .ok (some title)

/-- What is stored of a message; an empty thought is none, and only a thought has a duration. -/
def NewMessage.node (message : NewMessage μ) (now : ℕ) : MessageNode μ :=
  let reasoningContent := message.reasoningContent.filter fun r => !r.isEmpty
  { id := message.id
    parentId := message.parentId
    role := message.role
    content := message.content
    reasoningContent
    reasoningMs := message.reasoningMs.filter fun _ => reasoningContent.isSome
    createdAt := now
    metadata := message.metadata }

/-- The checks of one message against the identifiers that are there. -/
def NewMessage.check (message : NewMessage μ) (ids : List Text) : StoreResult Unit :=
  if message.id = [] ∨ Tool.byteLen message.id > MAX_MESSAGE_ID_LEN then
    .error (.invalid "invalid_message_id" [])
  else if message.id ∈ ids then .error (.invalid "duplicate_message_id" [message.id])
  else if message.role ∉ ROLES then .error (.invalid "unsupported_role" [message.role])
  else if Tool.byteLen message.content > MAX_CONTENT_BYTES then
    .error (.tooLarge "message_too_large" MAX_CONTENT_BYTES)
  else if ((message.reasoningContent.filter fun r => !r.isEmpty).any fun r =>
      Tool.byteLen r > MAX_CONTENT_BYTES) = true then
    .error (.tooLarge "message_too_large" MAX_CONTENT_BYTES)
  else
    match message.parentId with
    | none => .ok ()
    | some parent =>
        if parent ∉ ids then .error (.invalid "unknown_parent" [message.id, parent]) else .ok ()

/-- Each message sees the ones that are there and the ones staged before it. -/
def stage (existing : List Text) (now : ℕ) :
    List (MessageNode μ) → List (NewMessage μ) → StoreResult (List (MessageNode μ))
  | staged, [] => .ok staged
  | staged, message :: messages => do
      message.check (existing ++ staged.map (·.id))
      stage existing now (staged ++ [message.node now]) messages

def appendMessages (c : Conversation μ) (messages : List (NewMessage μ)) (now : ℕ) :
    StoreResult (Conversation μ) :=
  if messages.length > MAX_APPEND then .error (.tooLarge "too_many_messages" MAX_APPEND)
  else if c.messages.length + messages.length > MAX_MESSAGES then
    .error (.tooLarge "conversation_full" MAX_MESSAGES)
  else do
    let staged ← stage (c.messages.map (·.id)) now [] messages
    .ok { c with messages := c.messages ++ staged }

/-- An empty identifier clears the selection. -/
def setHead (c : Conversation μ) (headId : Option Text) : StoreResult (Conversation μ) :=
  match headId with
  | none => .ok c
  | some head =>
      if head = [] then .ok { c with headId := none }
      else if c.has head = false then .error (.invalid "unknown_head" [head])
      else .ok { c with headId := some head }

def truncateChars (text : Text) (max : ℕ) : Text :=
  if text.length ≤ max then text else text.take max ++ ['…']

def withTitle (c : Conversation μ) (title : Option Text) : Conversation μ × Bool :=
  if title.isSome ∧ c.title ≠ title then ({ c with title }, true) else (c, false)

def withModel (c : Conversation μ) (model : Option Text) : Conversation μ × Bool :=
  if model.isSome ∧ c.model ≠ model then ({ c with model }, true) else (c, false)

def withAppended (c : Conversation μ) (append : List (NewMessage μ)) (now : ℕ) :
    StoreResult (Conversation μ × Bool) :=
  if append.isEmpty then .ok (c, false)
  else (appendMessages c append now).map fun next => (next, true)

def withHead (c : Conversation μ) (headId : Option Text) : StoreResult (Conversation μ × Bool) :=
  if headId.isSome then
    (setHead c headId).map fun next => (next, decide (c.headId ≠ next.headId))
  else .ok (c, false)

/-- The first line of the first message of the user. -/
def deriveTitle (c : Conversation μ) : Conversation μ × Bool :=
  if c.title.isSome then (c, false)
  else
    match c.messages.find? fun m => m.role == "user".toList && !(Tool.trim m.content).isEmpty with
    | none => (c, false)
    | some first =>
        let line := [' '].intercalate (Tool.splitWhitespace first.content)
        ({ c with title := some (truncateChars line DERIVED_TITLE_CHARS) }, true)

end Requests

/-- Serialization, read back without loss. `β` is what a file holds. -/
structure Serde (μ β : Type) where

  /-- The length of the compact form. -/
  toVec : Conversation μ → Option ℕ

  toVecPretty : Conversation μ → Option β
  fromStr : β → Option (Conversation μ)
  lossless : ∀ {c b}, toVecPretty c = some b → fromStr b = some c

section Store

variable {μ β : Type} (serde : Serde μ β)

def checkSize (c : Conversation μ) : StoreResult Unit :=
  let size := (serde.toVec c).getD 0
  if size > MAX_CONVERSATION_BYTES then
    .error (.tooLarge "conversation_too_large" MAX_CONVERSATION_BYTES)
  else .ok ()

abbrev Memory (μ : Type) := List (Text × Conversation μ)

/-- The files of the directory under their names; `none` before the first write. -/
abbrev Dir (β : Type) := Option (List (Text × β))

def Dir.file (dir : Dir β) (name : Text) : Option β := dir.bind fun files => Keyed.get files name

def fileFor (id : Text) : Text := id ++ ".json".toList

def tmpFor (id : Text) : Text := id ++ ".json.tmp".toList

/-- Which steps of a write succeed, and what a write that fails leaves behind. -/
structure WriteIo (β : Type) where
  createDir : Bool
  create : Bool
  write : Bool
  torn : β
  sync : Bool
  rename : Bool
  unlink : Bool

def persist (io : WriteIo β) (c : Conversation μ) (dir : Dir β) : StoreResult Unit × Dir β :=
  if io.createDir = false then (.error (.io "create directory"), dir)
  else
    let files := dir.getD []
    match serde.toVecPretty c with
    | none => (.error (.io "could not serialize conversation"), some files)
    | some bytes =>
        let finalPath := fileFor c.id
        let tmpPath := tmpFor c.id
        if io.create = false then (.error (.io "create"), some files)
        else if io.write = false then
          (.error (.io "write"), some (Keyed.insert tmpPath io.torn files))
        else
          let files := Keyed.insert tmpPath bytes files
          if io.sync = false then (.error (.io "sync"), some files)
          else if io.rename = false then
            (.error (.io "rename"), some (if io.unlink then Keyed.erase tmpPath files else files))
          else (.ok (), some (Keyed.insert finalPath bytes (Keyed.erase tmpPath files)))

structure Store (μ β : Type) where
  memory : Memory μ
  dir : Dir β

namespace Store

variable (s : Store μ β)

/-- The conversation of a request, before it is written. -/
def prepared (id : Text) (now : ℕ) (request : CreateRequest μ) : StoreResult (Conversation μ) := do
  let title ← validatedTitle request.title
  let c : Conversation μ := ⟨id, title, request.model, now, now, none, []⟩
  let c ← appendMessages c request.messages now
  let c ← setHead c request.headId
  let c := (deriveTitle c).1
  checkSize serde c
  .ok c

/-- The file is written first; only then does the map change. -/
def commit (io : WriteIo β) (c : Conversation μ) : StoreResult (Conversation μ) × Store μ β :=
  match persist serde io c s.dir with
  | (.error e, dir) => (.error e, { s with dir })
  | (.ok (), dir) => (.ok c, { memory := Keyed.insert c.id c s.memory, dir })

def create (id : Text) (now : ℕ) (request : CreateRequest μ) (io : WriteIo β) :
    StoreResult (Conversation μ) × Store μ β :=
  if s.memory.length ≥ MAX_CONVERSATIONS then (.error (.full s.memory.length), s)
  else
    match prepared serde id now request with
    | .error e => (.error e, s)
    | .ok c => s.commit serde io c

/-- The conversation after a request, and whether anything changed. -/
def updated (current : Conversation μ) (now : ℕ) (request : UpdateRequest μ) :
    StoreResult (Conversation μ × Bool) := do
  let title ← validatedTitle request.title
  let titled := withTitle current title
  let modelled := withModel titled.1 request.model
  let appended ← withAppended modelled.1 request.append now
  let headed ← withHead appended.1 request.headId
  let derived := deriveTitle headed.1
  .ok (derived.1, titled.2 || modelled.2 || appended.2 || headed.2 || derived.2)

def update (id : Text) (appendedAt now : ℕ) (request : UpdateRequest μ) (io : WriteIo β) :
    StoreResult (Conversation μ) × Store μ β :=
  match Keyed.get s.memory id with
  | none => (.error .notFound, s)
  | some current =>
      match updated current appendedAt request with
      | .error e => (.error e, s)
      | .ok (next, false) => (.ok next, s)
      | .ok (next, true) =>
          let next := { next with updatedAt := now }
          match checkSize serde next with
          | .error e => (.error e, s)
          | .ok () => s.commit serde io next

/-- A file that is gone already is no failure. -/
def delete (id : Text) (removable : Bool) : StoreResult Unit × Store μ β :=
  match Keyed.get s.memory id with
  | none => (.error .notFound, s)
  | some c =>
      if removable = false then (.error (.io "could not delete"), s)
      else
        (.ok (), { memory := Keyed.erase id s.memory
                   dir := s.dir.map (Keyed.erase (fileFor c.id)) })

end Store

/-- The stem of a name, and its extension. -/
def splitExtension (name : Text) : Text × Option Text :=
  match rsplitOnce '.' name with
  | none => (name, none)
  | some (before, after) => if before = [] then (name, none) else (before, some after)

/-- One file after another, until as many conversations are held as the store may hold. -/
def loadFiles (read : Text → Option β) : List Text → Memory μ → Memory μ
  | [], map => map
  | name :: entries, map =>
      let (stem, extension) := splitExtension name
      if extension ≠ some "json".toList ∨ isConversationId stem = false then
        loadFiles read entries map
      else
        match read name with
        | none => loadFiles read entries map
        | some text =>
            let map := match serde.fromStr text with
              | some c => if c.id = stem then Keyed.insert c.id c map else map
              | none => map
            if map.length ≥ MAX_CONVERSATIONS then map else loadFiles read entries map

/-- What reading a directory gives: whether it could be listed, the entries that came out, and
which of the files could be read. -/
structure ReadIo where
  readDir : Bool
  entries : List Text
  readable : Text → Bool

def loadDir (io : ReadIo) (dir : Dir β) : Memory μ :=
  match dir with
  | none => []
  | some files =>
      if io.readDir = false then []
      else loadFiles serde (fun name => if io.readable name then Keyed.get files name else none)
        io.entries []

def Store.open (io : ReadIo) (dir : Dir β) : Store μ β := ⟨loadDir serde io dir, dir⟩

end Store

end Frink.Server
