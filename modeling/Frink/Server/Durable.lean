import Mathlib
import Frink.Library.Codec
import Frink.Server.Conversations

/-! # Conversations stay walkable, and the files agree with memory

What is appended hangs off what is there, so every message walks back to a root. A conversation
in memory is the one its file holds, and as long as reopening reads every file, memory holds all
of them.
-/

namespace Frink.Server

open Decode (Text)

variable {μ β : Type}

section Forest

variable {messages : List (MessageNode μ)} {m : MessageNode μ} {c c' c'' : Conversation μ}

/-- The identifiers are unique, and every parent names an earlier message. -/
structure Forest (messages : List (MessageNode μ)) : Prop where

  unique : (messages.map (·.id)).Nodup
  parents : ∀ front m back, messages = front ++ m :: back →
    ∀ p, m.parentId = some p → p ∈ front.map (·.id)

structure Walkable (c : Conversation μ) : Prop where

  forest : Forest c.messages
  head : ∀ h, c.headId = some h → h ∈ c.messages.map (·.id)

/-- From parent to parent up to a message without one. -/
inductive ToRoot (messages : List (MessageNode μ)) : MessageNode μ → Prop
  | root {m : MessageNode μ} (hm : m ∈ messages) (hroot : m.parentId = none) : ToRoot messages m
  | parent {m p : MessageNode μ} (hm : m ∈ messages) (hp : m.parentId = some p.id)
      (h : ToRoot messages p) : ToRoot messages m

theorem Forest.nil : Forest ([] : List (MessageNode μ)) where
  unique := List.nodup_nil
  parents front m back h := by
    have hlength := congrArg List.length h
    simp at hlength

theorem Forest.concat (h : Forest messages) (hid : m.id ∉ messages.map (·.id))
    (hparent : ∀ p, m.parentId = some p → p ∈ messages.map (·.id)) : Forest (messages ++ [m]) := by
  constructor
  · rw [List.map_append]
    apply h.unique.append (List.nodup_singleton _)
    rintro x hx hx'
    obtain rfl := List.mem_singleton.mp hx'
    exact hid hx
  · rintro front m' back hsplit p hp
    obtain rfl | ⟨back, last, rfl⟩ := List.eq_nil_or_concat' back
    · obtain ⟨rfl, hlast⟩ := List.append_inj' hsplit rfl
      obtain rfl : m = m' := List.head_eq_of_cons_eq hlast
      exact hparent p hp
    · have hfront : messages ++ [m] = (front ++ m' :: back) ++ [last] := by
        rw [hsplit]
        simp
      exact h.parents front m' back (List.append_inj' hfront rfl).1 p hp

/-- The induction is on where in the list a message stands. -/
theorem Forest.toRoot (h : Forest messages) (hm : m ∈ messages) : ToRoot messages m := by
  have hall : ∀ n, ∀ front m back, messages = front ++ m :: back → front.length = n →
      ToRoot messages m := by
    intro n
    induction n using Nat.strong_induction_on with
    | _ n ih =>
      rintro front m back hsplit rfl
      have hm : m ∈ messages := by simp [hsplit]
      cases hp : m.parentId with
      | none => exact .root hm hp
      | some p =>
        obtain ⟨parent, hparent, rfl⟩ := List.mem_map.mp (h.parents front m back hsplit p hp)
        obtain ⟨before, after, rfl⟩ := List.append_of_mem hparent
        apply ToRoot.parent hm hp
        apply ih before.length _ before parent (after ++ m :: back) _ rfl
        · simp
        · rw [hsplit, List.append_assoc, List.cons_append]
  obtain ⟨front, back, hsplit⟩ := List.append_of_mem hm
  exact hall front.length front m back hsplit rfl

/-- A conversation that went on: nothing of it changed but what was appended. -/
structure Grown (c c' : Conversation μ) : Prop where

  id : c'.id = c.id
  messages : c.messages <+: c'.messages
  walkable : Walkable c → Walkable c'

theorem Grown.refl (c : Conversation μ) : Grown c c := ⟨rfl, List.prefix_rfl, fun h => h⟩

theorem Grown.trans (h : Grown c c') (h' : Grown c' c'') : Grown c c'' :=
  ⟨h'.id.trans h.id, h.messages.trans h'.messages, fun hc => h'.walkable (h.walkable hc)⟩

/-- What only other fields differ in. -/
theorem Grown.of_eq (hid : c'.id = c.id) (hm : c'.messages = c.messages)
    (hh : c'.headId = c.headId) : Grown c c' := by
  refine ⟨hid, hm ▸ List.prefix_rfl, fun h => ⟨by rw [hm]; exact h.forest, ?_⟩⟩
  rw [hm, hh]
  exact h.head

end Forest

section Requests

open Codec (bind_eq_ok)

variable {c c' : Conversation μ} {now : ℕ} {existing : List Text}
  {staged staged' : List (MessageNode μ)} {messages : List (NewMessage μ)}
  {message : NewMessage μ} {ids : List Text}

theorem check_ok (h : message.check ids = .ok ()) :
    message.id ∉ ids ∧ ∀ p, message.parentId = some p → p ∈ ids := by
  unfold NewMessage.check at h
  split_ifs at h with _ hid
  refine ⟨hid, ?_⟩
  rintro p hp
  by_contra hnot
  rw [hp] at h
  dsimp only at h
  rw [if_pos hnot] at h
  cases h

theorem stage_forest {old : List (MessageNode μ)} (hf : Forest (old ++ staged))
    (h : stage (old.map (·.id)) now staged messages = .ok staged') :
    Forest (old ++ staged') ∧ staged <+: staged' := by
  induction messages generalizing staged with
  | nil =>
    obtain rfl := Except.ok.inj h
    exact ⟨hf, List.prefix_rfl⟩
  | cons message messages ih =>
    unfold stage at h
    obtain ⟨_, hcheck, h⟩ := bind_eq_ok.mp h
    obtain ⟨hid, hparent⟩ := check_ok hcheck
    rw [← List.map_append] at hid hparent
    have hnext := hf.concat (m := message.node now) hid hparent
    rw [List.append_assoc] at hnext
    obtain ⟨hforest, hprefix⟩ := ih hnext h
    exact ⟨hforest, (List.prefix_append _ _).trans hprefix⟩

theorem appendMessages_grown (h : appendMessages c messages now = .ok c') : Grown c c' := by
  unfold appendMessages at h
  split_ifs at h
  obtain ⟨staged, hstage, h⟩ := bind_eq_ok.mp h
  obtain rfl := Except.ok.inj h
  refine ⟨rfl, List.prefix_append _ _, ?_⟩
  rintro hc
  constructor
  · have hstart : Forest (c.messages ++ []) := by
      rw [List.append_nil]
      exact hc.forest
    exact (stage_forest hstart hstage).1
  · rintro head hhead
    rw [List.map_append]
    exact List.mem_append_left _ (hc.head head hhead)

theorem setHead_grown {headId : Option Text} (h : setHead c headId = .ok c') : Grown c c' := by
  cases headId with
  | none =>
    obtain rfl := Except.ok.inj h
    exact .refl c
  | some head =>
    simp only [setHead] at h
    split_ifs at h with hempty hnot
    · obtain rfl := Except.ok.inj h
      exact ⟨rfl, List.prefix_rfl, fun hc => ⟨hc.forest, fun _ h => by cases h⟩⟩
    · obtain rfl := Except.ok.inj h
      refine ⟨rfl, List.prefix_rfl, fun hc => ⟨hc.forest, ?_⟩⟩
      rintro head' hhead
      obtain rfl := Option.some.inj hhead
      have hhas := Bool.eq_true_of_not_eq_false hnot
      obtain ⟨m, hm, heq⟩ := List.any_eq_true.mp hhas
      exact List.mem_map.mpr ⟨m, hm, eq_of_beq heq⟩

theorem deriveTitle_grown (c : Conversation μ) : Grown c (deriveTitle c).1 := by
  unfold deriveTitle
  split
  · exact .refl c
  · split
    · exact .refl c
    · exact .of_eq rfl rfl rfl

theorem prepared_walkable (serde : Serde μ β) {id : Text} {request : CreateRequest μ}
    (h : Store.prepared serde id now request = .ok c) : c.id = id ∧ Walkable c := by
  unfold Store.prepared at h
  obtain ⟨title, -, h⟩ := bind_eq_ok.mp h
  obtain ⟨appended, happend, h⟩ := bind_eq_ok.mp h
  obtain ⟨headed, hhead, h⟩ := bind_eq_ok.mp h
  obtain ⟨_, -, h⟩ := bind_eq_ok.mp h
  obtain rfl := Except.ok.inj h
  have hgrown := ((appendMessages_grown happend).trans (setHead_grown hhead)).trans
    (deriveTitle_grown headed)
  refine ⟨hgrown.id, hgrown.walkable ⟨.nil, ?_⟩⟩
  rintro head hhead
  cases hhead

theorem map_eq_ok {α β ε : Type} {x : Except ε α} {f : α → β} {b : β}
    (h : x.map f = .ok b) : ∃ a, x = .ok a ∧ f a = b := by
  cases x with
  | error e => cases h
  | ok a => exact ⟨a, rfl, Except.ok.inj h⟩

theorem withTitle_grown (c : Conversation μ) (title : Option Text) :
    Grown c (withTitle c title).1 := by
  unfold withTitle
  split
  · exact .of_eq rfl rfl rfl
  · exact .refl c

theorem withModel_grown (c : Conversation μ) (model : Option Text) :
    Grown c (withModel c model).1 := by
  unfold withModel
  split
  · exact .of_eq rfl rfl rfl
  · exact .refl c

theorem withAppended_grown {next : Conversation μ × Bool}
    (h : withAppended c messages now = .ok next) : Grown c next.1 := by
  unfold withAppended at h
  split at h
  · obtain rfl := Except.ok.inj h
    exact .refl c
  · obtain ⟨c', happend, rfl⟩ := map_eq_ok h
    exact appendMessages_grown happend

theorem withHead_grown {headId : Option Text} {next : Conversation μ × Bool}
    (h : withHead c headId = .ok next) : Grown c next.1 := by
  unfold withHead at h
  split at h
  · obtain ⟨c', hhead, rfl⟩ := map_eq_ok h
    exact setHead_grown hhead
  · obtain rfl := Except.ok.inj h
    exact .refl c

theorem updated_grown {request : UpdateRequest μ} {changed : Bool}
    (h : Store.updated c now request = .ok (c', changed)) : Grown c c' := by
  unfold Store.updated at h
  obtain ⟨title, -, h⟩ := bind_eq_ok.mp h
  obtain ⟨appended, happend, h⟩ := bind_eq_ok.mp h
  obtain ⟨headed, hhead, h⟩ := bind_eq_ok.mp h
  obtain ⟨rfl, -⟩ := Prod.mk.inj (Except.ok.inj h)
  exact ((((withTitle_grown c title).trans (withModel_grown _ _)).trans
    (withAppended_grown happend)).trans (withHead_grown hhead)).trans (deriveTitle_grown _)

end Requests

section Names

variable {id id' stem name : Text} {n : ℕ}

theorem isAsciiHexdigit_digitChar : ∀ n < 16, isAsciiHexdigit (Nat.digitChar n) = true := by decide

theorem hexdigit_of_mem {c : Char} (h : c ∈ Nat.toDigits 16 n) : isAsciiHexdigit c = true := by
  induction n using Nat.strong_induction_on with
  | _ n ih =>
    rw [Nat.toDigits_eq_if (by decide)] at h
    split at h
    · rename_i hlt
      rw [List.mem_singleton.mp h]
      exact isAsciiHexdigit_digitChar n hlt
    · rename_i hge
      rcases List.mem_append.mp h with h | h
      · exact ih (n / 16) (by omega) h
      · rw [List.mem_singleton.mp h]
        exact isAsciiHexdigit_digitChar _ (Nat.mod_lt _ (by decide))

theorem hexdigit_of_mem_hexPadded {width : ℕ} {c : Char} (h : c ∈ hexPadded width n) :
    isAsciiHexdigit c = true := by
  rcases List.mem_append.mp h with h | h
  · rw [List.eq_of_mem_replicate h]
    rfl
  · exact hexdigit_of_mem h

theorem length_hexPadded_le {width bound : ℕ} (hw : width ≤ bound) (hpos : 0 < bound)
    (h : n < 16 ^ bound) : (hexPadded width n).length ≤ bound := by
  have hdigits : (Nat.toDigits 16 n).length ≤ bound :=
    (Nat.length_toDigits_le_iff (by decide) hpos).mpr h
  rw [hexPadded, List.length_append, List.length_replicate]
  omega

theorem byteLen_of_hexdigits {t : Text} (h : ∀ c ∈ t, isAsciiHexdigit c = true) :
    Tool.byteLen t = t.length := by
  induction t with
  | nil => rfl
  | cons c t ih =>
    obtain ⟨hc, ht⟩ := List.forall_mem_cons.mp h
    have hsize : c.utf8Size = 1 := by
      rw [Char.utf8Size_eq_one_iff, UInt32.le_iff_toNat_le]
      simp [isAsciiHexdigit, Char.isDigit, Char.le_def, UInt32.le_iff_toNat_le] at hc
      simp
      omega
    have hrest := ih ht
    unfold Tool.byteLen at hrest ⊢
    rw [List.map_cons, List.sum_cons, hsize, hrest, List.length_cons, Nat.add_comm]

theorem isConversationId_next (stamp : ℕ) (h : n < 2 ^ 64) :
    isConversationId (nextConversationId stamp n) = true := by
  let rest := hexPadded 12 (stamp % 2 ^ 48) ++ hexPadded 6 n
  have hstrip : Tool.stripPrefix (nextConversationId stamp n) ID_PREFIX = some rest := by
    unfold Tool.stripPrefix nextConversationId
    rw [if_pos (List.isPrefixOf_iff_prefix.mpr (List.prefix_append _ _)), List.drop_left]
  have hdigits : ∀ c ∈ rest, isAsciiHexdigit c = true := by
    rintro c hc
    rcases List.mem_append.mp hc with hc | hc
    · exact hexdigit_of_mem_hexPadded hc
    · exact hexdigit_of_mem_hexPadded hc
  have hne : rest ≠ [] := by
    simp [rest, hexPadded, Nat.toDigits_ne_nil]
  have hlength : rest.length ≤ 32 := by
    have hstamp : stamp % 2 ^ 48 < 16 ^ 12 := Nat.mod_lt _ (by decide)
    have hfirst := length_hexPadded_le (Nat.le_refl 12) (by decide) hstamp
    have hcount : n < 16 ^ 16 := h
    have hsecond := length_hexPadded_le (by decide : 6 ≤ 16) (by decide) hcount
    rw [List.length_append]
    omega
  unfold isConversationId
  rw [hstrip]
  simpa [byteLen_of_hexdigits hdigits, hne, hlength] using hdigits

theorem fileFor_inj : fileFor id = fileFor id' ↔ id = id' := List.append_left_inj _

theorem fileFor_ne_tmpFor (id id' : Text) : fileFor id ≠ tmpFor id' := by
  intro h
  have hlast := congrArg List.getLast? h
  simp [fileFor, tmpFor] at hlast

theorem splitExtension_eq_json (hne : stem ≠ []) :
    splitExtension name = (stem, some "json".toList) ↔ name = fileFor stem := by
  constructor
  · intro h
    unfold splitExtension at h
    split at h
    · cases h
    · rename_i before after hsplit
      split at h
      · cases h
      · obtain ⟨rfl, hafter⟩ := Prod.mk.inj h
        obtain rfl := Option.some.inj hafter
        exact (rsplitOnce_eq_some.mp hsplit).1
  · rintro rfl
    have hsplit : rsplitOnce '.' (fileFor stem) = some (stem, "json".toList) :=
      rsplitOnce_eq_some.mpr ⟨rfl, by decide⟩
    unfold splitExtension
    rw [hsplit]
    exact if_neg hne

end Names

section Files

variable (serde : Serde μ β) {io : WriteIo β} {c : Conversation μ} {dir dir' : Dir β} {id : Text}
  {files : List (Text × β)} {minted : List Text}

/-- What a directory holds for an identifier: a file that can be read as that conversation. -/
def Dir.stored (dir : Dir β) (id : Text) : Option (Conversation μ) :=
  if isConversationId id = true then
    ((dir.file (fileFor id)).bind serde.fromStr).filter fun c => c.id = id
  else none

theorem stored_eq_some : dir.stored serde id = some c ↔ isConversationId id = true ∧ c.id = id ∧
    ∃ b, dir.file (fileFor id) = some b ∧ serde.fromStr b = some c := by
  unfold Dir.stored
  split
  · rename_i hid
    rw [Option.filter_eq_some_iff, Option.bind_eq_some_iff, decide_eq_true_iff]
    exact ⟨fun ⟨h, heq⟩ => ⟨hid, heq, h⟩, fun ⟨_, heq, h⟩ => ⟨h, heq⟩⟩
  · rename_i hid
    exact ⟨fun h => (nomatch h), fun h => absurd h.1 hid⟩

theorem file_eq_get (dir : Dir β) (name : Text) : dir.file name = Keyed.get (dir.getD []) name := by
  cases dir <;> rfl

theorem stored_congr (h : ∀ id, dir'.file (fileFor id) = dir.file (fileFor id)) (id : Text) :
    dir'.stored serde id = dir.stored serde id := by
  rw [Dir.stored, Dir.stored, h]

/-- How far a write came. A failure leaves another temporary file at most. -/
theorem persist_cases {r : StoreResult Unit} (h : persist serde io c dir = (r, dir')) :
    ((∃ e, r = .error e) ∧ (dir'.getD [] = dir.getD [] ∨
      ∃ b, dir'.getD [] = Keyed.insert (tmpFor c.id) b (dir.getD []) ∨
        dir'.getD [] = Keyed.erase (tmpFor c.id) (Keyed.insert (tmpFor c.id) b (dir.getD [])))) ∨
    ∃ b, serde.toVecPretty c = some b ∧ r = .ok () ∧ dir'.getD [] = Keyed.insert (fileFor c.id) b
      (Keyed.erase (tmpFor c.id) (Keyed.insert (tmpFor c.id) b (dir.getD []))) := by
  unfold persist at h
  split at h
  · obtain ⟨rfl, rfl⟩ := Prod.mk.inj h
    exact .inl ⟨⟨_, rfl⟩, .inl rfl⟩
  · dsimp only at h
    split at h
    · obtain ⟨rfl, rfl⟩ := Prod.mk.inj h
      exact .inl ⟨⟨_, rfl⟩, .inl rfl⟩
    · rename_i bytes hbytes
      split_ifs at h
      · obtain ⟨rfl, rfl⟩ := Prod.mk.inj h
        exact .inl ⟨⟨_, rfl⟩, .inl rfl⟩
      · obtain ⟨rfl, rfl⟩ := Prod.mk.inj h
        exact .inl ⟨⟨_, rfl⟩, .inr ⟨_, .inl rfl⟩⟩
      · obtain ⟨rfl, rfl⟩ := Prod.mk.inj h
        exact .inl ⟨⟨_, rfl⟩, .inr ⟨_, .inl rfl⟩⟩
      · obtain ⟨rfl, rfl⟩ := Prod.mk.inj h
        exact .inl ⟨⟨_, rfl⟩, .inr ⟨bytes, .inr rfl⟩⟩
      · obtain ⟨rfl, rfl⟩ := Prod.mk.inj h
        exact .inl ⟨⟨_, rfl⟩, .inr ⟨bytes, .inl rfl⟩⟩
      · obtain ⟨rfl, rfl⟩ := Prod.mk.inj h
        exact .inr ⟨bytes, hbytes, rfl, rfl⟩

theorem get_insert_tmp (id id' : Text) (b : β) (files : List (Text × β)) :
    Keyed.get (Keyed.insert (tmpFor id') b files) (fileFor id) = Keyed.get files (fileFor id) := by
  rw [Keyed.get_insert, if_neg (fileFor_ne_tmpFor id id')]

theorem get_erase_tmp (id id' : Text) (files : List (Text × β)) :
    Keyed.get (Keyed.erase (tmpFor id') files) (fileFor id) = Keyed.get files (fileFor id) :=
  Keyed.get_erase_of_ne (fileFor_ne_tmpFor id id')

theorem persist_error {e : StoreError} (h : persist serde io c dir = (.error e, dir')) (id : Text) :
    dir'.file (fileFor id) = dir.file (fileFor id) := by
  rw [file_eq_get, file_eq_get]
  rcases persist_cases serde h with ⟨-, heq | ⟨b, heq | heq⟩⟩ | ⟨b, -, hok, -⟩
  · rw [heq]
  · rw [heq, get_insert_tmp]
  · rw [heq, get_erase_tmp, get_insert_tmp]
  · cases hok

theorem persist_ok (h : persist serde io c dir = (.ok (), dir')) :
    ∃ b, serde.fromStr b = some c ∧
      ∀ id, dir'.file (fileFor id) = if id = c.id then some b else dir.file (fileFor id) := by
  rcases persist_cases serde h with ⟨⟨e, herror⟩, -⟩ | ⟨b, hb, -, heq⟩
  · cases herror
  · refine ⟨b, serde.lossless hb, fun id => ?_⟩
    rw [file_eq_get, file_eq_get, heq, Keyed.get_insert, get_erase_tmp, get_insert_tmp]
    simp only [fileFor_inj]

theorem stored_persist_ok (hid : isConversationId c.id = true)
    (h : persist serde io c dir = (.ok (), dir')) (id : Text) :
    dir'.stored serde id = if id = c.id then some c else dir.stored serde id := by
  obtain ⟨b, hb, hfile⟩ := persist_ok serde h
  split
  · rename_i heq
    subst heq
    refine (stored_eq_some serde).mpr ⟨hid, rfl, b, ?_, hb⟩
    rw [hfile, if_pos rfl]
  · rename_i hne
    rw [Dir.stored, Dir.stored, hfile, if_neg hne]

/-- Every file is a temporary one or holds the conversation it is named after. -/
structure Tidy (minted : List Text) (files : List (Text × β)) : Prop where

  functional : Keyed.Functional files

  named : ∀ x ∈ files, ∃ id ∈ minted, x.1 = tmpFor id ∨
    x.1 = fileFor id ∧ ∃ c, serde.fromStr x.2 = some c ∧ c.id = id ∧ Walkable c

variable {serde}

theorem Tidy.mono (h : Tidy serde minted files) {minted' : List Text} (hsub : minted ⊆ minted') :
    Tidy serde minted' files := by
  refine ⟨h.functional, fun x hx => ?_⟩
  obtain ⟨id, hid, hname⟩ := h.named x hx
  exact ⟨id, hsub hid, hname⟩

theorem Tidy.erase (h : Tidy serde minted files) (name : Text) :
    Tidy serde minted (Keyed.erase name files) :=
  ⟨h.functional.erase name, fun x hx => h.named x (Keyed.mem_erase.mp hx).1⟩

theorem Tidy.insert_tmp (h : Tidy serde minted files) (hid : id ∈ minted) (b : β) :
    Tidy serde minted (Keyed.insert (tmpFor id) b files) := by
  refine ⟨h.functional.insert _ b, fun x hx => ?_⟩
  rcases Keyed.mem_insert.mp hx with rfl | ⟨hx, -⟩
  · exact ⟨id, hid, .inl rfl⟩
  · exact h.named x hx

theorem Tidy.insert_file (h : Tidy serde minted files) (hid : c.id ∈ minted) (hc : Walkable c)
    {b : β} (hb : serde.fromStr b = some c) :
    Tidy serde minted (Keyed.insert (fileFor c.id) b files) := by
  refine ⟨h.functional.insert _ b, fun x hx => ?_⟩
  rcases Keyed.mem_insert.mp hx with rfl | ⟨hx, -⟩
  · exact ⟨c.id, hid, .inr ⟨rfl, c, hb, rfl, hc⟩⟩
  · exact h.named x hx

theorem Tidy.persist (h : Tidy serde minted (dir.getD [])) (hid : c.id ∈ minted) (hc : Walkable c)
    {r : StoreResult Unit} (hp : persist serde io c dir = (r, dir')) :
    Tidy serde minted (dir'.getD []) := by
  rcases persist_cases serde hp with ⟨-, heq | ⟨b, heq | heq⟩⟩ | ⟨b, hb, -, heq⟩
  · rwa [heq]
  · rw [heq]
    exact h.insert_tmp hid b
  · rw [heq]
    exact (h.insert_tmp hid b).erase _
  · rw [heq]
    exact ((h.insert_tmp hid b).erase _).insert_file hid hc (serde.lossless hb)

/-- A file of a conversation was stored under an identifier that was minted. -/
theorem Tidy.of_stored (h : Tidy serde minted (dir.getD [])) (hs : dir.stored serde id = some c) :
    id ∈ minted ∧ Walkable c := by
  obtain ⟨-, -, b, hb, hc⟩ := (stored_eq_some serde).mp hs
  rw [file_eq_get] at hb
  obtain ⟨id', hid', hname | ⟨hname, c', hc', -, hw⟩⟩ := h.named _ (Keyed.mem_of_lookup hb)
  · exact absurd hname (fileFor_ne_tmpFor id id')
  · obtain rfl := fileFor_inj.mp hname
    obtain rfl := Option.some.inj (hc.symm.trans hc')
    exact ⟨hid', hw⟩

end Files

section Loading

variable {serde : Serde μ β} {dir : Dir β} {read : Text → Option β} {entries : List Text}
  {map : Memory μ} {id name : Text} {c : Conversation μ}

theorem loadFiles_other (h : ∀ id, isConversationId id = true → name ≠ fileFor id) :
    loadFiles serde read (name :: entries) map = loadFiles serde read entries map := by
  rw [loadFiles]
  rcases hsplit : splitExtension name with ⟨stem, extension⟩
  refine if_pos ?_
  by_contra hnot
  obtain ⟨hext, hid⟩ := not_or.mp hnot
  obtain rfl := not_not.mp hext
  have hstem := Bool.eq_true_of_not_eq_false hid
  have hne : stem ≠ [] := by
    rintro rfl
    cases hstem
  exact h stem hstem ((splitExtension_eq_json hne).mp hsplit)

/-- One more conversation, if the file holds the one it is named after. -/
def loadOne (serde : Serde μ β) (id : Text) (text : β) (map : Memory μ) : Memory μ :=
  match serde.fromStr text with
  | some c => if c.id = id then Keyed.insert c.id c map else map
  | none => map

theorem loadFiles_file (hid : isConversationId id = true) :
    loadFiles serde read (fileFor id :: entries) map = match read (fileFor id) with
      | none => loadFiles serde read entries map
      | some text =>
          if (loadOne serde id text map).length ≥ MAX_CONVERSATIONS then loadOne serde id text map
          else loadFiles serde read entries (loadOne serde id text map) := by
  have hne : id ≠ [] := by
    rintro rfl
    cases hid
  have hnot : ¬ (some "json".toList ≠ some "json".toList ∨ isConversationId id = false) := by
    simp [hid]
  rw [loadFiles, (splitExtension_eq_json hne).mpr rfl]
  exact if_neg hnot

/-- What was loaded is stored. -/
structure Loaded (serde : Serde μ β) (dir : Dir β) (map : Memory μ) : Prop where

  functional : Keyed.Functional map
  stored : ∀ x ∈ map, dir.stored serde x.1 = some x.2
  length : map.length ≤ MAX_CONVERSATIONS

theorem Loaded.nil : Loaded serde dir [] :=
  ⟨List.nodup_nil, fun _ hx => (List.not_mem_nil hx).elim, Nat.zero_le _⟩

theorem loadOne_cases (hid : isConversationId id = true) {text : β}
    (hfile : dir.file (fileFor id) = some text) :
    (dir.stored serde id = none ∧ loadOne serde id text map = map) ∨
      ∃ c, dir.stored serde id = some c ∧ loadOne serde id text map = Keyed.insert id c map := by
  cases hc : serde.fromStr text with
  | none =>
    left
    simp [Dir.stored, loadOne, hid, hfile, hc]
  | some c =>
    by_cases heq : c.id = id
    · right
      refine ⟨c, (stored_eq_some serde).mpr ⟨hid, heq, text, hfile, hc⟩, ?_⟩
      simp [loadOne, hc, heq]
    · left
      simp [Dir.stored, loadOne, hid, hfile, hc, heq]

theorem Loaded.one (h : Loaded serde dir map) (hlt : map.length < MAX_CONVERSATIONS)
    (hid : isConversationId id = true) {text : β} (hfile : dir.file (fileFor id) = some text) :
    Loaded serde dir (loadOne serde id text map) := by
  rcases loadOne_cases hid hfile with ⟨-, heq⟩ | ⟨c, hc, heq⟩
  · rwa [heq]
  · rw [heq]
    refine ⟨h.functional.insert _ c, fun x hx => ?_, ?_⟩
    · rcases Keyed.mem_insert.mp hx with rfl | ⟨hx, -⟩
      · exact hc
      · exact h.stored x hx
    · have herase : (Keyed.erase id map).length ≤ map.length := List.length_filter_le _ _
      rw [Keyed.insert, List.length_cons]
      omega

theorem keys_loadOne {id' : Text} {text : β} (h : id' ∈ map.map Prod.fst) :
    id' ∈ (loadOne serde id text map).map Prod.fst := by
  unfold loadOne
  split
  · rename_i c _
    split
    · by_cases heq : id' = c.id
      · exact List.mem_map.mpr ⟨(c.id, c), Keyed.mem_insert.mpr (.inl rfl), heq.symm⟩
      · obtain ⟨x, hx, rfl⟩ := List.mem_map.mp h
        exact List.mem_map.mpr ⟨x, Keyed.mem_insert.mpr (.inr ⟨hx, heq⟩), rfl⟩
    · exact h
  · exact h

/-- Whether a file is loaded only depends on what it is called. -/
theorem loadFiles_induction (serde : Serde μ β) (read : Text → Option β)
    {P : List Text → Memory μ → Prop} (nil : ∀ map, P [] map)
    (other : ∀ name entries map, (∀ id, isConversationId id = true → name ≠ fileFor id) →
      P entries map → P (name :: entries) map)
    (unread : ∀ id entries map, isConversationId id = true → read (fileFor id) = none →
      P entries map → P (fileFor id :: entries) map)
    (full : ∀ id entries map text, isConversationId id = true → read (fileFor id) = some text →
      (loadOne serde id text map).length ≥ MAX_CONVERSATIONS → P (fileFor id :: entries) map)
    (next : ∀ id entries map text, isConversationId id = true → read (fileFor id) = some text →
      (loadOne serde id text map).length < MAX_CONVERSATIONS →
      P entries (loadOne serde id text map) → P (fileFor id :: entries) map) :
    ∀ entries map, P entries map := by
  intro entries
  induction entries with
  | nil => exact nil
  | cons name entries ih =>
    intro map
    by_cases h : ∃ id, isConversationId id = true ∧ name = fileFor id
    · obtain ⟨id, hid, rfl⟩ := h
      cases hread : read (fileFor id) with
      | none => exact unread id entries map hid hread (ih map)
      | some text =>
        rcases Nat.lt_or_ge (loadOne serde id text map).length MAX_CONVERSATIONS with hlt | hge
        · exact next id entries map text hid hread hlt (ih _)
        · exact full id entries map text hid hread hge
    · exact other name entries map (fun id hid heq => h ⟨id, hid, heq⟩) (ih map)

theorem loadFiles_loaded
    (hread : ∀ name text, read name = some text → dir.file name = some text)
    (h : Loaded serde dir map) (hlt : map.length < MAX_CONVERSATIONS) :
    Loaded serde dir (loadFiles serde read entries map) := by
  induction entries, map using loadFiles_induction serde read with
  | nil => exact h
  | other name entries map hname ih =>
    rw [loadFiles_other hname]
    exact ih h hlt
  | unread id entries map hid hnone ih =>
    rw [loadFiles_file hid, hnone]
    exact ih h hlt
  | full id entries map text hid htext hge =>
    rw [loadFiles_file hid, htext]
    dsimp only
    rw [if_pos hge]
    exact h.one hlt hid (hread _ _ htext)
  | next id entries map text hid htext hnext ih =>
    rw [loadFiles_file hid, htext]
    dsimp only
    rw [if_neg (Nat.not_le.mpr hnext)]
    exact ih (h.one hlt hid (hread _ _ htext)) hnext

theorem keys_loadFiles (h : id ∈ map.map Prod.fst) :
    id ∈ (loadFiles serde read entries map).map Prod.fst := by
  induction entries, map using loadFiles_induction serde read with
  | nil => exact h
  | other name entries map hname ih =>
    rw [loadFiles_other hname]
    exact ih h
  | unread id entries map hid hnone ih =>
    rw [loadFiles_file hid, hnone]
    exact ih h
  | full id entries map text hid htext hge =>
    rw [loadFiles_file hid, htext]
    dsimp only
    rw [if_pos hge]
    exact keys_loadOne h
  | next id entries map text hid htext hnext ih =>
    rw [loadFiles_file hid, htext]
    dsimp only
    rw [if_neg (Nat.not_le.mpr hnext)]
    exact ih (keys_loadOne h)

/-- Either the store is full, or every conversation among the files was loaded. -/
theorem loadFiles_covers (hc : dir.stored serde id = some c)
    (hall : ∀ name ∈ entries, read name = dir.file name) (hmem : fileFor id ∈ entries) :
    MAX_CONVERSATIONS ≤ (loadFiles serde read entries map).length ∨
      id ∈ (loadFiles serde read entries map).map Prod.fst := by
  obtain ⟨hid, -, b, hb, -⟩ := (stored_eq_some serde).mp hc
  induction entries, map using loadFiles_induction serde read with
  | nil => cases hmem
  | other name entries map hname ih =>
    rw [loadFiles_other hname]
    rcases List.mem_cons.mp hmem with rfl | hmem
    · exact absurd rfl (hname id hid)
    · exact ih (fun n hn => hall n (List.mem_cons_of_mem _ hn)) hmem
  | unread id' entries map hid' hnone ih =>
    rw [loadFiles_file hid', hnone]
    rcases List.mem_cons.mp hmem with heq | hmem
    · have hread := hall (fileFor id') List.mem_cons_self
      rw [hnone, ← heq, hb] at hread
      cases hread
    · exact ih (fun n hn => hall n (List.mem_cons_of_mem _ hn)) hmem
  | full id' entries map text hid' htext hge =>
    rw [loadFiles_file hid', htext]
    dsimp only
    rw [if_pos hge]
    exact .inl hge
  | next id' entries map text hid' htext hnext ih =>
    rw [loadFiles_file hid', htext]
    dsimp only
    rw [if_neg (Nat.not_le.mpr hnext)]
    rcases List.mem_cons.mp hmem with heq | hmem
    · obtain rfl := fileFor_inj.mp heq
      right
      apply keys_loadFiles
      have hfile := (hall (fileFor id) List.mem_cons_self).symm.trans htext
      rcases loadOne_cases hid hfile with ⟨hnone, -⟩ | ⟨c', -, hone⟩
      · rw [hc] at hnone
        cases hnone
      · rw [hone]
        exact List.mem_map.mpr ⟨(id, c'), Keyed.mem_insert.mpr (.inl rfl), rfl⟩
    · exact ih (fun n hn => hall n (List.mem_cons_of_mem _ hn)) hmem

/-- Every file there is is listed and read. -/
def Complete (io : ReadIo) (dir : Dir β) : Prop :=
  match dir with
  | none => True
  | some files => io.readDir = true ∧ io.entries.Perm (files.map Prod.fst) ∧
      ∀ name ∈ io.entries, io.readable name = true

theorem loadDir_loaded (io : ReadIo) (dir : Dir β) : Loaded serde dir (loadDir serde io dir) := by
  cases dir with
  | none => exact .nil
  | some files =>
    unfold loadDir
    dsimp only
    split
    · exact .nil
    · apply loadFiles_loaded
      · intro name text h
        split at h
        · exact h
        · cases h
      · exact .nil
      · exact Nat.zero_lt_succ _

theorem loadDir_covers {io : ReadIo} (hio : Complete io dir) (hc : dir.stored serde id = some c) :
    MAX_CONVERSATIONS ≤ (loadDir serde io dir).length ∨
      id ∈ (loadDir serde io dir).map Prod.fst := by
  obtain ⟨hid, -, b, hb, -⟩ := (stored_eq_some serde).mp hc
  cases dir with
  | none => cases hb
  | some files =>
    obtain ⟨hdir, hperm, hall⟩ := hio
    unfold loadDir
    dsimp only
    rw [if_neg (by simp [hdir])]
    apply loadFiles_covers hc
    · intro name hname
      rw [if_pos (hall name hname)]
      rfl
    · apply hperm.mem_iff.mpr
      exact Keyed.get_isSome_iff.mp (Option.isSome_of_eq_some hb)

end Loading

inductive Op (μ β : Type) where
  | create (stamp n now : ℕ) (request : CreateRequest μ) (io : WriteIo β)
  | update (id : Text) (appendedAt now : ℕ) (request : UpdateRequest μ) (io : WriteIo β)
  | delete (id : Text) (removable : Bool)
  | reopen (io : ReadIo)

/-- A store, and the identifiers that were minted for it. -/
structure World (μ β : Type) where
  store : Store μ β
  minted : List Text

section Steps

variable (serde : Serde μ β)

def Store.apply (s : Store μ β) : Op μ β → StoreResult Unit × Store μ β
  | .create stamp n now request io =>
      let (result, s) := s.create serde (nextConversationId stamp n) now request io
      (result.map fun _ => (), s)
  | .update id appendedAt now request io =>
      let (result, s) := s.update serde id appendedAt now request io
      (result.map fun _ => (), s)
  | .delete id removable => s.delete id removable
  | .reopen io => (.ok (), Store.open serde io s.dir)

/-- An identifier is minted once a conversation may be created at all. -/
def Op.mints (op : Op μ β) (s : Store μ β) : List Text :=
  match op with
  | .create stamp n _ _ _ =>
      if s.memory.length ≥ MAX_CONVERSATIONS then [] else [nextConversationId stamp n]
  | _ => []

def World.after (w : World μ β) (op : Op μ β) : World μ β :=
  ⟨(w.store.apply serde op).2, op.mints w.store ++ w.minted⟩

/-- Minted identifiers are unique; unless reading may fail, reopening reads every file. -/
def Op.Allowed (lossy : Bool) (w : World μ β) : Op μ β → Prop
  | .create stamp n _ _ _ => n < 2 ^ 64 ∧ nextConversationId stamp n ∉ w.minted
  | .reopen io => lossy = true ∨ Complete io w.store.dir
  | _ => True

/-- The operations of a run with their results. -/
inductive Run (lossy : Bool) :
    World μ β → List (Op μ β × StoreResult Unit) → World μ β → Prop
  | refl (w : World μ β) : Run lossy w [] w
  | step {w w' : World μ β} {events : List (Op μ β × StoreResult Unit)} {op : Op μ β}
      (h : Run lossy w events w') (hop : op.Allowed lossy w') :
      Run lossy w (events ++ [(op, (w'.store.apply serde op).1)]) (w'.after serde op)

/-- A store that was opened over an empty directory. -/
def Opened (w : World μ β) : Prop :=
  ∃ io dir, (dir = none ∨ dir = some []) ∧ w = ⟨Store.open serde io dir, []⟩

/-- What holds in every state, whatever fails. -/
structure Consistent (w : World μ β) : Prop where

  shaped : ∀ id ∈ w.minted, isConversationId id = true
  tidy : Tidy serde w.minted (w.store.dir.getD [])
  loaded : Loaded serde w.store.dir w.store.memory

/-- Memory holds every conversation there is a file for. -/
def Exact (s : Store μ β) : Prop := ∀ id, Keyed.get s.memory id = s.dir.stored serde id

variable {serde} {w w' : World μ β} {op : Op μ β} {lossy : Bool} {id : Text} {c : Conversation μ}

theorem Loaded.get {dir : Dir β} {map : Memory μ} (h : Loaded serde dir map)
    (hc : Keyed.get map id = some c) : dir.stored serde id = some c :=
  h.stored _ (Keyed.mem_of_lookup hc)

/-- What a commit changes: everything about one conversation, or nothing that can be read. -/
theorem commit_cases {s : Store μ β} {io : WriteIo β} {r : StoreResult (Conversation μ)}
    {s' : Store μ β} (hid : isConversationId c.id = true)
    (h : s.commit serde io c = (r, s')) :
    ((∃ e, r = .error e) ∧ s'.memory = s.memory ∧
      ∀ id, s'.dir.file (fileFor id) = s.dir.file (fileFor id)) ∨
    (r = .ok c ∧ s'.memory = Keyed.insert c.id c s.memory ∧
      ∀ id, s'.dir.stored serde id = if id = c.id then some c else s.dir.stored serde id) := by
  unfold Store.commit at h
  rcases hp : persist serde io c s.dir with ⟨_ | _, dir'⟩
  · rw [hp] at h
    obtain ⟨rfl, rfl⟩ := Prod.mk.inj h
    exact .inl ⟨⟨_, rfl⟩, rfl, persist_error serde hp⟩
  · rw [hp] at h
    obtain ⟨rfl, rfl⟩ := Prod.mk.inj h
    exact .inr ⟨rfl, rfl, stored_persist_ok serde hid hp⟩

theorem commit_tidy {s : Store μ β} {io : WriteIo β} {r : StoreResult (Conversation μ)}
    {s' : Store μ β} {minted : List Text} (ht : Tidy serde minted (s.dir.getD []))
    (hid : c.id ∈ minted) (hc : Walkable c) (h : s.commit serde io c = (r, s')) :
    Tidy serde minted (s'.dir.getD []) := by
  unfold Store.commit at h
  rcases hp : persist serde io c s.dir with ⟨_ | _, dir'⟩
  · rw [hp] at h
    obtain ⟨-, rfl⟩ := Prod.mk.inj h
    exact ht.persist hid hc hp
  · rw [hp] at h
    obtain ⟨-, rfl⟩ := Prod.mk.inj h
    exact ht.persist hid hc hp

/-- What an operation does to what can be read. -/
inductive Effect (serde : Serde μ β) (w : World μ β) (op : Op μ β) :
    StoreResult Unit → Store μ β → Prop
  | refused {s' : Store μ β} (e : StoreError) (hm : s'.memory = w.store.memory)
      (hf : ∀ id, s'.dir.file (fileFor id) = w.store.dir.file (fileFor id)) :
      Effect serde w op (.error e) s'
  | idle : Effect serde w op (.ok ()) w.store
  | written {s' : Store μ β} (c : Conversation μ) (hw : Walkable c)
      (hid : c.id ∈ op.mints w.store ++ w.minted)
      (hroom : w.store.memory.length < MAX_CONVERSATIONS ∨
        (Keyed.get w.store.memory c.id).isSome = true)
      (hkept : ∀ old, w.store.dir.stored serde c.id = some old → old.messages <+: c.messages)
      (hm : s'.memory = Keyed.insert c.id c w.store.memory)
      (hs : ∀ id, s'.dir.stored serde id =
        if id = c.id then some c else w.store.dir.stored serde id) :
      Effect serde w op (.ok ()) s'
  | deleted {s' : Store μ β} (id : Text) (removable : Bool) (hop : op = .delete id removable)
      (hm : s'.memory = Keyed.erase id w.store.memory)
      (hs : ∀ id', s'.dir.stored serde id' =
        if id' = id then none else w.store.dir.stored serde id') :
      Effect serde w op (.ok ()) s'
  | reopened {s' : Store μ β} (io : ReadIo) (hop : op = .reopen io)
      (hm : s'.memory = loadDir serde io w.store.dir) (hd : s'.dir = w.store.dir) :
      Effect serde w op (.ok ()) s'

theorem Effect.of_commit {s' : Store μ β} {io : WriteIo β} {r : StoreResult (Conversation μ)}
    (hc : Walkable c) (hid : c.id ∈ op.mints w.store ++ w.minted)
    (hshaped : isConversationId c.id = true)
    (hroom : w.store.memory.length < MAX_CONVERSATIONS ∨
      (Keyed.get w.store.memory c.id).isSome = true)
    (hkept : ∀ old, w.store.dir.stored serde c.id = some old → old.messages <+: c.messages)
    (h : w.store.commit serde io c = (r, s')) :
    Effect serde w op (r.map fun _ => ()) s' := by
  rcases commit_cases hshaped h with ⟨⟨e, rfl⟩, hm, hf⟩ | ⟨rfl, hm, hs⟩
  · exact .refused e hm hf
  · exact .written c hc hid hroom hkept hm hs

theorem Consistent.shaped_after (h : Consistent serde w) (hop : op.Allowed lossy w) :
    ∀ id ∈ op.mints w.store ++ w.minted, isConversationId id = true := by
  rintro id hid
  rcases List.mem_append.mp hid with hid | hid
  · cases op with
    | create stamp n now request io =>
      simp only [Op.mints] at hid
      split at hid
      · cases hid
      · rw [List.mem_singleton.mp hid]
        exact isConversationId_next stamp hop.1
    | update | delete | reopen => cases hid
  · exact h.shaped id hid

theorem create_effect (h : Consistent serde w) {stamp n now : ℕ} {request : CreateRequest μ}
    {io : WriteIo β} (hop : (Op.create stamp n now request io).Allowed lossy w) :
    let op := Op.create stamp n now request io
    Effect serde w op (w.store.apply serde op).1 (w.store.apply serde op).2 ∧
      Tidy serde (op.mints w.store ++ w.minted) ((w.store.apply serde op).2.dir.getD []) := by
  intro op
  have htidy : Tidy serde (op.mints w.store ++ w.minted) (w.store.dir.getD []) :=
    h.tidy.mono (List.subset_append_right _ _)
  simp only [op, Store.apply, Store.create]
  split
  · exact ⟨.refused _ rfl fun _ => rfl, htidy⟩
  · rename_i hroom
    split
    · exact ⟨.refused _ rfl fun _ => rfl, htidy⟩
    · rename_i c hprepared
      obtain ⟨hid, hc⟩ := prepared_walkable serde hprepared
      have hmints : c.id ∈ op.mints w.store ++ w.minted := by
        rw [hid]
        apply List.mem_append_left
        simp only [op, Op.mints, if_neg hroom]
        exact List.mem_singleton_self _
      have hshaped := h.shaped_after hop _ hmints
      rcases hcommit : w.store.commit serde io c with ⟨r, s'⟩
      refine ⟨Effect.of_commit hc hmints hshaped (.inl (Nat.lt_of_not_le hroom)) ?_ hcommit,
        commit_tidy htidy hmints hc hcommit⟩
      rintro old hold
      rw [hid] at hold
      exact absurd (h.tidy.of_stored hold).1 hop.2

theorem update_effect (h : Consistent serde w) {id : Text} {appendedAt now : ℕ}
    {request : UpdateRequest μ} {io : WriteIo β} :
    let op := Op.update id appendedAt now request io
    Effect serde w op (w.store.apply serde op).1 (w.store.apply serde op).2 ∧
      Tidy serde (op.mints w.store ++ w.minted) ((w.store.apply serde op).2.dir.getD []) := by
  intro op
  simp only [op, Store.apply, Store.update]
  split
  · exact ⟨.refused _ rfl fun _ => rfl, h.tidy⟩
  · rename_i current hcurrent
    have hstored := h.loaded.get hcurrent
    obtain ⟨hid, hwalk⟩ := h.tidy.of_stored hstored
    have hname : current.id = id := ((stored_eq_some serde).mp hstored).2.1
    split
    · exact ⟨.refused _ rfl fun _ => rfl, h.tidy⟩
    · exact ⟨.idle, h.tidy⟩
    · rename_i next hupdated
      have hgrown : Grown current { next with updatedAt := now } :=
        (updated_grown hupdated).trans (.of_eq rfl rfl rfl)
      split
      · exact ⟨.refused _ rfl fun _ => rfl, h.tidy⟩
      · rcases hcommit : w.store.commit serde io { next with updatedAt := now } with ⟨r, s'⟩
        have hnext : ({ next with updatedAt := now } : Conversation μ).id = id :=
          hgrown.id.trans hname
        have hmints : ({ next with updatedAt := now } : Conversation μ).id ∈ w.minted := by
          rw [hnext]
          exact hid
        refine ⟨Effect.of_commit (hgrown.walkable hwalk) hmints (h.shaped _ hmints) (.inr ?_) ?_
          hcommit, commit_tidy h.tidy hmints (hgrown.walkable hwalk) hcommit⟩
        · rw [hnext, hcurrent]
          rfl
        · rintro old hold
          rw [hnext, hstored] at hold
          obtain rfl := Option.some.inj hold
          exact hgrown.messages

theorem delete_effect (h : Consistent serde w) {id : Text} {removable : Bool} :
    let op : Op μ β := .delete id removable
    Effect serde w op (w.store.apply serde op).1 (w.store.apply serde op).2 ∧
      Tidy serde (op.mints w.store ++ w.minted) ((w.store.apply serde op).2.dir.getD []) := by
  intro op
  simp only [op, Store.apply, Store.delete]
  split
  · exact ⟨.refused _ rfl fun _ => rfl, h.tidy⟩
  · rename_i c hc
    have hname : c.id = id := ((stored_eq_some serde).mp (h.loaded.get hc)).2.1
    subst hname
    split
    · exact ⟨.refused _ rfl fun _ => rfl, h.tidy⟩
    · constructor
      · apply Effect.deleted c.id removable rfl rfl
        intro id'
        cases hdir : w.store.dir with
        | none => simp [Dir.stored, Dir.file]
        | some files =>
          by_cases heq : id' = c.id
          · subst heq
            simp [Dir.stored, Dir.file, Keyed.get_erase_self]
          · have hne : fileFor id' ≠ fileFor c.id := fun hf => heq (fileFor_inj.mp hf)
            simp [Dir.stored, Dir.file, heq, Keyed.get_erase_of_ne hne]
      · have herase := h.tidy.erase (fileFor c.id)
        cases hdir : w.store.dir with
        | none =>
          rw [hdir] at herase
          exact herase
        | some files =>
          rw [hdir] at herase
          exact herase

theorem apply_effect (h : Consistent serde w) (hop : op.Allowed lossy w) :
    Effect serde w op (w.store.apply serde op).1 (w.store.apply serde op).2 ∧
      Tidy serde (op.mints w.store ++ w.minted) ((w.store.apply serde op).2.dir.getD []) := by
  cases op with
  | create => exact create_effect h hop
  | update => exact update_effect h
  | delete => exact delete_effect h
  | reopen io => exact ⟨.reopened io rfl rfl rfl, h.tidy⟩

theorem Consistent.after (h : Consistent serde w) (hop : op.Allowed lossy w) :
    Consistent serde (w.after serde op) := by
  obtain ⟨heffect, htidy⟩ := apply_effect h hop
  refine ⟨h.shaped_after hop, htidy, ?_⟩
  change Loaded serde (w.store.apply serde op).2.dir (w.store.apply serde op).2.memory
  generalize (w.store.apply serde op).1 = r at heffect
  generalize (w.store.apply serde op).2 = s' at heffect
  cases heffect with
  | refused e hm hf =>
    rw [hm]
    refine ⟨h.loaded.functional, fun x hx => ?_, h.loaded.length⟩
    rw [stored_congr serde hf]
    exact h.loaded.stored x hx
  | idle => exact h.loaded
  | written c hw hid hroom hkept hm hs =>
    rw [hm]
    refine ⟨h.loaded.functional.insert _ c, fun x hx => ?_, ?_⟩
    · rcases Keyed.mem_insert.mp hx with rfl | ⟨hx, hne⟩
      · rw [hs, if_pos rfl]
      · rw [hs, if_neg hne]
        exact h.loaded.stored x hx
    · have hle := h.loaded.length
      rw [Keyed.insert, List.length_cons]
      rcases hroom with hlt | hsome
      · have herase : (Keyed.erase c.id w.store.memory).length ≤ w.store.memory.length :=
          List.length_filter_le _ _
        omega
      · obtain ⟨old, hold⟩ := Option.isSome_iff_exists.mp hsome
        have herase := Keyed.length_erase h.loaded.functional (Keyed.mem_of_lookup hold)
        omega
  | deleted id removable hop hm hs =>
    rw [hm]
    refine ⟨h.loaded.functional.erase id, fun x hx => ?_, ?_⟩
    · obtain ⟨hx, hne⟩ := Keyed.mem_erase.mp hx
      rw [hs, if_neg hne]
      exact h.loaded.stored x hx
    · exact (List.length_filter_le _ _).trans h.loaded.length
  | reopened io hop hm hd =>
    rw [hm, hd]
    exact loadDir_loaded io _

/-- A store that is full has loaded what memory held: there are no more files than that. -/
theorem Exact.reopened (h : Consistent serde w) (hexact : Exact serde w.store) {io : ReadIo}
    (hio : Complete io w.store.dir) (id : Text) :
    Keyed.get (loadDir serde io w.store.dir) id = Keyed.get w.store.memory id := by
  have hloaded : Loaded serde w.store.dir (loadDir serde io w.store.dir) := loadDir_loaded io _
  have hsound : ∀ {id c}, Keyed.get (loadDir serde io w.store.dir) id = some c →
      Keyed.get w.store.memory id = some c := by
    intro id c hc
    rw [hexact id]
    exact hloaded.get hc
  have hkeys : ∀ id, id ∈ (loadDir serde io w.store.dir).map Prod.fst →
      id ∈ w.store.memory.map Prod.fst := by
    intro id hid
    obtain ⟨c, hc⟩ := Option.isSome_iff_exists.mp (Keyed.get_isSome_iff.mpr hid)
    rw [← Keyed.get_isSome_iff, hsound hc]
    rfl
  cases hmem : Keyed.get w.store.memory id with
  | none =>
    cases hget : Keyed.get (loadDir serde io w.store.dir) id with
    | none => rfl
    | some c =>
      rw [hsound hget] at hmem
      cases hmem
  | some c =>
    have hstored := h.loaded.get hmem
    have hin : id ∈ (loadDir serde io w.store.dir).map Prod.fst := by
      rcases loadDir_covers hio hstored with hfull | hin
      · have hsub := List.subperm_of_subset hloaded.functional fun id hid => hkeys id hid
        have hperm := hsub.perm_of_length_le (by
          rw [List.length_map, List.length_map]
          exact h.loaded.length.trans hfull)
        rw [hperm.mem_iff, ← Keyed.get_isSome_iff, hmem]
        rfl
      · exact hin
    obtain ⟨c', hc'⟩ := Option.isSome_iff_exists.mp (Keyed.get_isSome_iff.mpr hin)
    rw [hc', ← hsound hc', hmem]

theorem Exact.after (h : Consistent serde w) (hexact : Exact serde w.store)
    (hop : op.Allowed false w) : Exact serde (w.after serde op).store := by
  obtain ⟨heffect, -⟩ := apply_effect h hop
  change Exact serde (w.store.apply serde op).2
  generalize (w.store.apply serde op).1 = r at heffect
  generalize (w.store.apply serde op).2 = s' at heffect
  intro id
  cases heffect with
  | refused e hm hf => rw [hm, stored_congr serde hf, hexact]
  | idle => exact hexact id
  | written c hw hid hroom hkept hm hs => rw [hm, hs, Keyed.get_insert, hexact]
  | deleted id' removable hop hm hs =>
    rw [hm, hs]
    split
    · rename_i heq
      rw [heq, Keyed.get_erase_self]
    · rename_i hne
      rw [Keyed.get_erase_of_ne hne, hexact]
  | reopened io hop' hm hd =>
    subst hop'
    rcases hop with hlossy | hio
    · cases hlossy
    · rw [hm, hd, hexact.reopened h hio, hexact]

/-- Nothing but a delete that succeeds takes a stored message away. -/
theorem kept_after (h : Consistent serde w) (hop : op.Allowed lossy w)
    (hc : w.store.dir.stored serde id = some c)
    (hdelete : ∀ removable, op = .delete id removable →
      (w.store.apply serde op).1 ≠ .ok ()) :
    ∃ c', (w.after serde op).store.dir.stored serde id = some c' ∧ c.messages <+: c'.messages := by
  obtain ⟨heffect, -⟩ := apply_effect h hop
  change ∃ c', (w.store.apply serde op).2.dir.stored serde id = some c' ∧ _
  generalize (w.store.apply serde op).1 = r at heffect hdelete
  generalize (w.store.apply serde op).2 = s' at heffect
  cases heffect with
  | refused e hm hf => exact ⟨c, by rw [stored_congr serde hf, hc], List.prefix_rfl⟩
  | idle => exact ⟨c, hc, List.prefix_rfl⟩
  | written c' hw hid hroom hkept hm hs =>
    rw [hs]
    split
    · rename_i heq
      subst heq
      exact ⟨c', rfl, hkept c hc⟩
    · exact ⟨c, hc, List.prefix_rfl⟩
  | deleted id' removable hop hm hs =>
    rw [hs]
    split
    · rename_i heq
      subst heq
      exact absurd rfl (hdelete removable hop)
    · exact ⟨c, hc, List.prefix_rfl⟩
  | reopened io hop hm hd => exact ⟨c, by rw [hd, hc], List.prefix_rfl⟩

end Steps

section Runs

variable {serde : Serde μ β} {w w' : World μ β} {lossy : Bool} {id : Text} {c : Conversation μ}
  {events : List (Op μ β × StoreResult Unit)}

theorem Opened.start (h : Opened serde w) : Consistent serde w ∧ Exact serde w.store := by
  obtain ⟨io, dir, hdir, rfl⟩ := h
  have hfiles : dir.getD [] = [] := by
    rcases hdir with rfl | rfl <;> rfl
  have hnone : ∀ id, Dir.stored serde dir id = none := by
    intro id
    rw [Dir.stored, file_eq_get, hfiles]
    split <;> rfl
  have hloaded : Loaded serde dir (loadDir serde io dir) := loadDir_loaded io dir
  have hmemory : loadDir serde io dir = [] := by
    rw [List.eq_nil_iff_forall_not_mem]
    intro x hx
    have hstored := hloaded.stored x hx
    rw [hnone] at hstored
    cases hstored
  refine ⟨⟨fun _ h => (List.not_mem_nil h).elim, ?_, hloaded⟩, fun id => ?_⟩
  · change Tidy serde [] (dir.getD [])
    rw [hfiles]
    exact ⟨List.nodup_nil, fun _ h => (List.not_mem_nil h).elim⟩
  · change Keyed.get (loadDir serde io dir) id = Dir.stored serde dir id
    rw [hmemory, hnone]
    rfl

theorem Run.consistent (h : Run serde lossy w events w') (hw : Consistent serde w) :
    Consistent serde w' := by
  induction h with
  | refl => exact hw
  | step _ hop ih => exact ih.after hop

theorem Run.exact (h : Run serde false w events w') (hw : Consistent serde w)
    (hexact : Exact serde w.store) : Exact serde w'.store := by
  induction h with
  | refl => exact hexact
  | step h hop ih => exact ih.after (h.consistent hw) hop

theorem Run.kept (h : Run serde lossy w events w') (hw : Consistent serde w)
    (hc : w.store.dir.stored serde id = some c)
    (hdelete : ∀ removable, (.delete id removable, .ok ()) ∉ events) :
    ∃ c', w'.store.dir.stored serde id = some c' ∧ c.messages <+: c'.messages := by
  induction h with
  | refl => exact ⟨c, hc, List.prefix_rfl⟩
  | @step w' events op h hop ih =>
    obtain ⟨c', hc', hprefix⟩ := ih fun removable hmem =>
      hdelete removable (List.mem_append_left _ hmem)
    obtain ⟨c'', hc'', hprefix'⟩ := kept_after (h.consistent hw) hop hc' (by
      rintro removable rfl hok
      apply hdelete removable
      rw [hok]
      exact List.mem_append_right _ (List.mem_singleton_self _))
    exact ⟨c'', hc'', hprefix.trans hprefix'⟩

/-- What the store promises in a state, and for whatever happens from there on. -/
structure Durable (serde : Serde μ β) (lossy : Bool) (w : World μ β) : Prop where

  walkable : ∀ id c, (Keyed.get w.store.memory id = some c ∨ w.store.dir.stored serde id = some c) →
    Walkable c ∧ ∀ m ∈ c.messages, ToRoot c.messages m

  held : ∀ id c, Keyed.get w.store.memory id = some c → w.store.dir.stored serde id = some c

  refused : ∀ op e s', op.Allowed lossy w → w.store.apply serde op = (.error e, s') →
    s'.memory = w.store.memory ∧ ∀ id, s'.dir.file (fileFor id) = w.store.dir.file (fileFor id)

  /-- As long as no file was left unread. -/
  reopened : lossy = false → ∀ io, Complete io w.store.dir → ∀ id,
    Keyed.get (Store.open serde io w.store.dir).memory id = Keyed.get w.store.memory id

  kept : ∀ events w', Run serde lossy w events w' → ∀ id c,
    w.store.dir.stored serde id = some c → (∀ removable, (.delete id removable, .ok ()) ∉ events) →
    ∃ c', w'.store.dir.stored serde id = some c' ∧ c.messages <+: c'.messages ∧
      (lossy = false → Keyed.get w'.store.memory id = some c')

/-- Whatever fails, in any order, over restarts. -/
theorem conversations_durable {w₀ : World μ β} (h₀ : Opened serde w₀)
    (h : Run serde lossy w₀ events w) : Durable serde lossy w := by
  obtain ⟨hstart, hexact⟩ := h₀.start
  have hw := h.consistent hstart
  constructor
  · rintro id c hc
    have hstored : w.store.dir.stored serde id = some c := by
      rcases hc with hc | hc
      · exact hw.loaded.get hc
      · exact hc
    have hwalk := (hw.tidy.of_stored hstored).2
    exact ⟨hwalk, fun m hm => hwalk.forest.toRoot hm⟩
  · exact fun id c hc => hw.loaded.get hc
  · rintro op e s' hop happly
    obtain ⟨heffect, -⟩ := apply_effect hw hop
    rw [happly] at heffect
    cases heffect with
    | refused e hm hf => exact ⟨hm, hf⟩
  · rintro rfl io hio id
    exact (h.exact hstart hexact).reopened hw hio id
  · rintro events' w' hrun id c hc hdelete
    obtain ⟨c', hc', hprefix⟩ := hrun.kept hw hc hdelete
    refine ⟨c', hc', hprefix, ?_⟩
    rintro rfl
    rw [hrun.exact hw (h.exact hstart hexact), hc']

end Runs

section One

def oneId : Text := "conv_000000000000000000".toList

/-- A conversation of one message. -/
def oneConversation : Conversation Unit where
  id := oneId
  title := some "hi".toList
  model := none
  createdAt := 0
  updatedAt := 0
  headId := none
  messages := [⟨"a".toList, none, "user".toList, "hi".toList, none, none, 0, none⟩]

def oneText : Text :=
  ["\x7b\n", "  \"id\": ", "\"conv_000000000000", "000000\",\n", "  \"title\": \"hi\",\n",
    "  \"model\": null,\n", "  \"created_at\": 0,\n", "  \"updated_at\": 0,\n",
    "  \"head_id\": null,\n", "  \"messages\": [\n", "    \x7b\n", "      \"id\": \"a\",\n",
    "      \"parent_id\"", ": null,\n", "      \"role\": ", "\"user\",\n", "      \"content\": ",
    "\"hi\",\n", "      \"created_at\"", ": 0\n", "    \x7d\n", "  ]\n\x7d"].flatMap String.toList

/-- What serialization does with that conversation. -/
def oneSerde : Serde Unit Text where
  toVec c := if c = oneConversation then some 188 else none
  toVecPretty c := if c = oneConversation then some oneText else none
  fromStr text := if text = oneText then some oneConversation else none
  lossless {c b} h := by
    split at h
    · rename_i hc
      obtain rfl := Option.some.inj h
      rw [if_pos rfl, hc]
    · cases h

def oneCreate : Op Unit Text :=
  .create 0 0 0
    ⟨none, none, none, [⟨"a".toList, none, "user".toList, "hi".toList, none, none, none⟩]⟩
    ⟨true, true, true, [], true, true, true⟩

def oneStart : World Unit Text := ⟨⟨[], none⟩, []⟩

theorem oneStart_opened : Opened oneSerde oneStart :=
  ⟨⟨true, [], fun _ => true⟩, none, .inl rfl, rfl⟩

theorem oneStart_run (lossy : Bool) :
    Run oneSerde lossy oneStart [(oneCreate, .ok ())] (oneStart.after oneSerde oneCreate) := by
  have hresult : (oneStart.store.apply oneSerde oneCreate).1 = .ok () := by decide +kernel
  rw [← hresult]
  exact (Run.refl oneStart).step ⟨by decide, List.not_mem_nil⟩

theorem conversations_durable_one :
    Keyed.get (oneStart.after oneSerde oneCreate).store.memory oneId = some oneConversation ∧
      Durable oneSerde false (oneStart.after oneSerde oneCreate) :=
  ⟨by decide +kernel, conversations_durable oneStart_opened (oneStart_run false)⟩

/-- A reopening that cannot read a file goes on without the conversation. -/
theorem conversations_durable_unread :
    ¬ ∀ (w₀ w : World Unit Text) (events : List (Op Unit Text × StoreResult Unit)),
      Opened oneSerde w₀ → Run oneSerde true w₀ events w → ∀ io, Complete io w.store.dir →
      ∀ id, Keyed.get (Store.open oneSerde io w.store.dir).memory id =
        Keyed.get w.store.memory id := by
  intro h
  let unread : Op Unit Text := .reopen ⟨true, [fileFor oneId], fun _ => false⟩
  have hop : unread.Allowed true (oneStart.after oneSerde oneCreate) := .inl rfl
  have hdir : (oneStart.after oneSerde oneCreate).store.dir = some [(fileFor oneId, oneText)] := by
    decide +kernel
  have hcomplete : Complete ⟨true, [fileFor oneId], fun _ => true⟩
      (oneStart.after oneSerde oneCreate).store.dir := by
    rw [hdir]
    exact ⟨rfl, .refl _, fun _ _ => rfl⟩
  have hget := h _ _ _ oneStart_opened ((oneStart_run true).step hop) _ hcomplete oneId
  revert hget
  decide +kernel

end One

end Frink.Server
