import Gavel.Cluster.Agent
import Gavel.Lib.Bytes

/-!
# Frames

The codec of the wire: every message is a frame, its encoded body behind a length prefix of four
bytes. The encoder of bodies is a library of its own and a parameter here.
-/

namespace Gavel.Cluster

/-- The serialisation library, at one type of message. -/
structure Postcard (α : Type) where
  toAllocvec : α → Option Bytes
  fromBytes : Bytes → Option α

inductive ProtocolError where
  | frameTooLarge (size : Nat)
  | malformed
  deriving DecidableEq

def ProtocolError.toString : ProtocolError → String
  | .frameTooLarge size => s!"frame of {size} bytes exceeds the {maxFrame} byte limit"
  | .malformed => "malformed frame"

/-- Bytes of length prefix in front of every frame. -/
def lengthPrefix : Nat := 4

/-- Read a length prefix, rejecting anything oversized. -/
def frameLen (bytes : Bytes) : Except ProtocolError Nat :=
  let size := Bytes.fromBeBytes bytes
  if maxFrame < size then .error (.frameTooLarge size) else .ok size

namespace Postcard

variable {α : Type} (codec : Postcard α)

/-- Encode one message, appended to the buffer; the result and the buffer afterwards. -/
def encodeFrame (message : α) (out : Bytes) : Except ProtocolError Unit × Bytes :=
  match codec.toAllocvec message with
  | none => (.error .malformed, out)
  | some body =>
      if maxFrame < body.length then (.error (.frameTooLarge body.length), out)
      else (.ok (), out ++ Bytes.toBeBytes (body.length % 2 ^ 32) ++ body)

/-- Decode one message from a frame body. -/
def decodeFrame (body : Bytes) : Except ProtocolError α :=
  match codec.fromBytes body with
  | some message => .ok message
  | none => .error .malformed

/-- Why reading a frame failed. -/
inductive ReadError where
  | invalid (why : ProtocolError)
  | unexpectedEof
  deriving DecidableEq

/-- Read one frame; `none` when the peer closed. -/
def readFrame (buf : Bytes) : Except ReadError (Option (α × Bytes)) :=
  if buf.length < lengthPrefix then .ok none
  else
    match frameLen (buf.take lengthPrefix) with
    | .error why => .error (.invalid why)
    | .ok len =>
        let rest := buf.drop lengthPrefix
        if rest.length < len then .error .unexpectedEof
        else
          match codec.decodeFrame (rest.take len) with
          | .error why => .error (.invalid why)
          | .ok message => .ok (some (message, rest.drop len))

theorem readFrame_shortens {buf rest : Bytes} {message : α}
    (h : codec.readFrame buf = .ok (some (message, rest))) : rest.length < buf.length := by
  unfold readFrame at h
  split at h
  · simp at h
  · rename_i hlen
    split at h
    · simp at h
    · dsimp only at h
      split at h
      · simp at h
      · split at h
        · simp at h
        · simp only [Except.ok.injEq, Option.some.injEq, Prod.mk.injEq] at h
          rw [← h.2]
          simp only [lengthPrefix, List.length_drop] at hlen ⊢
          omega

/-- Read frames until the peer closes: the messages, and the bytes left over. -/
def readFrames (buf : Bytes) : Except ReadError (List α × Bytes) :=
  match _h : codec.readFrame buf with
  | .error why => .error why
  | .ok none => .ok ([], buf)
  | .ok (some (message, rest)) => (readFrames rest).map fun r => (message :: r.1, r.2)
termination_by buf.length
decreasing_by exact codec.readFrame_shortens _h

/-- The buffer after each message was encoded into it in turn. -/
def encodeFrames (messages : List α) (out : Bytes) : Bytes :=
  messages.foldl (fun out message => (codec.encodeFrame message out).2) out

/-- The encoder takes the message. -/
def encodes (message : α) : Bool := (codec.encodeFrame message []).1.isOk

end Postcard

/-- Put one assignment in the buffer, or say why it cannot go. -/
def ship (codec : Postcard SupervisorMessage) (id : TaskId) (spec : TaskSpec) (input : Option Bytes)
    (out : Bytes) : Except String Unit × Bytes :=
  match WireTaskSpec.of spec input with
  | .error why => (.error why.toString, out)
  | .ok spec =>
      let encoded := codec.encodeFrame (.assign id spec) out
      match encoded.1 with
      | .error why => (.error why.toString, [])
      | .ok () => (.ok (), encoded.2)

end Gavel.Cluster
