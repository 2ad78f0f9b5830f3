import Gavel.Cluster.Protocol
import Gavel.Cluster.Theorems.Reporting

/-!
# The frame stream

What is appended to a buffer frame by frame is read back message by message, and the caps of encoder,
decoder and artifacts agree: nothing an assignment or a result may carry is refused by the encoder.
-/

namespace Gavel.Cluster

namespace Postcard

variable {α : Type} {codec : Postcard α} {m : α} {out : Bytes}

/-- The library encodes the message and decodes its own output. -/
def Carries (codec : Postcard α) (m : α) : Prop :=
  ∃ body, codec.toAllocvec m = some body ∧ codec.fromBytes body = some m

/-! ## One frame -/

/-- An encoder that fails leaves the buffer as it was. -/
theorem encodeFrame_error {why : ProtocolError} (h : (codec.encodeFrame m out).1 = .error why) :
    (codec.encodeFrame m out).2 = out := by
  unfold encodeFrame at h ⊢
  split
  · rfl
  · rename_i body hbody
    rw [hbody] at h
    dsimp only at h ⊢
    split
    · rfl
    · rename_i hle
      rw [if_neg hle] at h
      cases h

/-- An encoder that succeeds appends the length and the body. -/
theorem encodeFrame_ok (h : (codec.encodeFrame m out).1 = .ok ()) :
    ∃ body, codec.toAllocvec m = some body ∧ body.length ≤ maxFrame ∧
      (codec.encodeFrame m out).2 = out ++ Bytes.toBeBytes body.length ++ body := by
  unfold encodeFrame at h ⊢
  split at h
  · cases h
  · rename_i body hbody
    split at h
    · cases h
    · rename_i hle
      have hlt : body.length < 2 ^ 32 := lt_of_le_of_lt (Nat.le_of_not_lt hle) (by decide)
      refine ⟨body, hbody, Nat.le_of_not_lt hle, ?_⟩
      simp only [if_neg hle, Nat.mod_eq_of_lt hlt]

theorem encodeFrame_fits {body : Bytes} (hbody : codec.toAllocvec m = some body)
    (hle : body.length ≤ maxFrame) : (codec.encodeFrame m out).1 = .ok () := by
  simp only [encodeFrame, hbody, if_neg (Nat.not_lt.mpr hle)]

/-- Whether a message is encoded does not depend on the buffer. -/
theorem encodes_iff : codec.encodes m = true ↔ (codec.encodeFrame m out).1 = .ok () := by
  simp only [encodes, encodeFrame]
  split
  · simp [Except.isOk, Except.toBool]
  · split <;> simp [Except.isOk, Except.toBool]

theorem frameLen_toBeBytes {n : Nat} (h : n ≤ maxFrame) : frameLen (Bytes.toBeBytes n) = .ok n := by
  have hlt : n < 2 ^ 32 := lt_of_le_of_lt h (by decide)
  simp only [frameLen, Bytes.fromBeBytes_toBeBytes hlt, if_neg (Nat.not_lt.mpr h)]

theorem readFrame_frame {body rest : Bytes} (hle : body.length ≤ maxFrame)
    (hdec : codec.fromBytes body = some m) :
    codec.readFrame (Bytes.toBeBytes body.length ++ body ++ rest) = .ok (some (m, rest)) := by
  have htake : (Bytes.toBeBytes body.length ++ (body ++ rest)).take lengthPrefix =
      Bytes.toBeBytes body.length := List.take_left' rfl
  have hdrop : (Bytes.toBeBytes body.length ++ (body ++ rest)).drop lengthPrefix = body ++ rest :=
    List.drop_left' rfl
  rw [List.append_assoc, readFrame, if_neg (by simp [lengthPrefix]), htake, hdrop,
    frameLen_toBeBytes hle]
  simp [decodeFrame, hdec]

/-! ## A stream of frames -/

theorem encodeFrame_append (m : α) (out : Bytes) :
    (codec.encodeFrame m out).2 = out ++ (codec.encodeFrame m []).2 := by
  unfold encodeFrame
  split
  · simp
  · split <;> simp

theorem encodeFrames_append (messages : List α) (out : Bytes) :
    codec.encodeFrames messages out = out ++ codec.encodeFrames messages [] := by
  induction messages generalizing out with
  | nil => simp [encodeFrames]
  | cons m messages ih =>
      simp only [encodeFrames, List.foldl_cons] at ih ⊢
      rw [ih, ih (codec.encodeFrame m []).2, encodeFrame_append, List.append_assoc]

theorem readFrames_frame {buf rest : Bytes} (h : codec.readFrame buf = .ok (some (m, rest))) :
    codec.readFrames buf = (codec.readFrames rest).map fun r => (m :: r.1, r.2) := by
  rw [readFrames]
  split
  · rename_i hread
    rw [h] at hread
    cases hread
  · rename_i hread
    rw [h] at hread
    cases hread
  · rename_i hread
    rw [h] at hread
    cases hread
    rfl

/-- Reading returns what the encoder took, in order, and consumes the whole buffer. -/
theorem readFrames_encodeFrames {messages : List α} (h : ∀ m ∈ messages, codec.Carries m) :
    codec.readFrames (codec.encodeFrames messages []) = .ok (messages.filter codec.encodes, []) := by
  induction messages with
  | nil =>
      rw [readFrames]
      simp [encodeFrames, readFrame, lengthPrefix]
  | cons m messages ih =>
      have hrest := ih fun m hm => h m (List.mem_cons_of_mem _ hm)
      have hsplit : codec.encodeFrames (m :: messages) [] =
          (codec.encodeFrame m []).2 ++ codec.encodeFrames messages [] := by
        rw [← encodeFrames_append]
        rfl
      rw [hsplit]
      cases henc : codec.encodes m with
      | false =>
          have herr : ∃ why, (codec.encodeFrame m []).1 = .error why := by
            cases hres : (codec.encodeFrame m []).1 with
            | error why => exact ⟨why, rfl⟩
            | ok u => rw [encodes_iff.mpr hres] at henc; cases henc
          obtain ⟨why, herr⟩ := herr
          rw [encodeFrame_error herr, List.nil_append, hrest, List.filter_cons_of_neg (by simp [henc])]
      | true =>
          obtain ⟨body, hbody, hle, hout⟩ := encodeFrame_ok (encodes_iff.mp henc)
          obtain ⟨body', hbody', hdec⟩ := h m List.mem_cons_self
          rw [hbody] at hbody'
          cases hbody'
          rw [hout, List.nil_append, readFrames_frame (readFrame_frame hle hdec), hrest,
            List.filter_cons_of_pos henc]
          rfl

end Postcard

/-! ## What the library writes

Numbers are variable-length, an enumeration is the number of its variant and then its fields, bytes
are their number and then themselves.
-/

def Artifact.layout (artifact : Artifact) : Bytes :=
  Bytes.varint artifact.bytes.length ++ artifact.bytes ++ Bytes.varint artifact.digest.toNat

def WireTaskSpec.layout : WireTaskSpec → Bytes
  | .sleep millis => Bytes.varint 0 ++ Bytes.varint millis
  | .primes start stop => Bytes.varint 1 ++ Bytes.varint start ++ Bytes.varint stop
  | .analysis version algorithm part input =>
      Bytes.varint 2 ++ Bytes.varint version ++ Bytes.varint algorithm ++ Bytes.varint part ++
        input.layout

/-- The body of an assignment. -/
structure SupervisorLayout (codec : Postcard SupervisorMessage) : Prop where
  assign : ∀ task wire, codec.toAllocvec (.assign task wire) =
    some (Bytes.varint 2 ++ Bytes.varint task ++ wire.layout)

/-- The body of a result. -/
structure NodeLayout (codec : Postcard NodeMessage) : Prop where
  taskProduced : ∀ task artifact, codec.toAllocvec (.taskProduced task artifact) =
    some (Bytes.varint 2 ++ Bytes.varint task ++ artifact.layout)

/-- Every number of the spec is in the range of its field. -/
def TaskSpec.InRange : TaskSpec → Prop
  | .sleep millis => millis < 2 ^ 64
  | .primes start stop => start < 2 ^ 64 ∧ stop < 2 ^ 64
  | .analysis version algorithm part => version < 2 ^ 64 ∧ algorithm < 2 ^ 32 ∧ part < 2 ^ 32

/-! ## The size budget -/

section Budget

variable {task : TaskId} {artifact : Artifact} {spec : TaskSpec} {input : Option Bytes}
  {wire : WireTaskSpec}

theorem varint_tag {n : Nat} (h : n < 128) : (Bytes.varint n).length ≤ 1 := by
  rw [Bytes.varint_of_lt h]
  rfl

theorem Artifact.layout_length_le (h : artifact.bytes.length ≤ maxArtifact) :
    artifact.layout.length ≤ maxArtifact + 20 := by
  have hlen : (Bytes.varint artifact.bytes.length).length ≤ 10 :=
    Bytes.varint_length_le_ten (lt_of_le_of_lt h (by decide))
  have hdigest : (Bytes.varint artifact.digest.toNat).length ≤ 10 :=
    Bytes.varint_length_le_ten artifact.digest.toNat_lt
  simp only [Artifact.layout, List.length_append]
  omega

theorem WireTaskSpec.layout_length_le (hspec : spec.InRange)
    (h : WireTaskSpec.of spec input = .ok wire) : wire.layout.length ≤ maxArtifact + 60 := by
  cases spec with
  | sleep millis =>
      cases h
      have htag := varint_tag (n := 0) (by decide)
      have hmillis := Bytes.varint_length_le_ten hspec
      simp only [layout, List.length_append]
      omega
  | primes start stop =>
      cases h
      have htag := varint_tag (n := 1) (by decide)
      have hstart := Bytes.varint_length_le_ten hspec.1
      have hstop := Bytes.varint_length_le_ten hspec.2
      simp only [layout, List.length_append]
      omega
  | analysis version algorithm part =>
      obtain ⟨hversion, halgorithm, hpart⟩ := hspec
      simp only [WireTaskSpec.of] at h
      split at h
      · rename_i bytes
        split at h
        · cases h
        · rename_i hle
          cases h
          have htag := varint_tag (n := 2) (by decide)
          have hversion := Bytes.varint_length_le_ten hversion
          have halgorithm := Bytes.varint_length_le_ten (halgorithm.trans (by decide))
          have hpart := Bytes.varint_length_le_ten (hpart.trans (by decide))
          have hinput := Artifact.layout_length_le (show (Artifact.new bytes).bytes.length ≤ maxArtifact from
            Nat.le_of_not_lt hle)
          simp only [layout, List.length_append]
          omega
      · cases h

theorem assign_encodes {codec : Postcard SupervisorMessage} (hlayout : SupervisorLayout codec)
    (htask : task < 2 ^ 64) (hspec : spec.InRange) (h : WireTaskSpec.of spec input = .ok wire)
    (out : Bytes) : (codec.encodeFrame (.assign task wire) out).1 = .ok () := by
  apply Postcard.encodeFrame_fits (hlayout.assign task wire)
  have htag := varint_tag (n := 2) (by decide)
  have hid := Bytes.varint_length_le_ten htask
  have hwire := WireTaskSpec.layout_length_le hspec h
  have hframe : maxArtifact + 71 ≤ maxFrame := by decide
  simp only [List.length_append]
  omega

theorem taskProduced_encodes {codec : Postcard NodeMessage} (hlayout : NodeLayout codec)
    (htask : task < 2 ^ 64) (h : artifact.bytes.length ≤ maxArtifact) (out : Bytes) :
    (codec.encodeFrame (.taskProduced task artifact) out).1 = .ok () := by
  apply Postcard.encodeFrame_fits (hlayout.taskProduced task artifact)
  have htag := varint_tag (n := 2) (by decide)
  have hid := Bytes.varint_length_le_ten htask
  have hartifact := Artifact.layout_length_le h
  have hframe : maxArtifact + 31 ≤ maxFrame := by decide
  simp only [List.length_append]
  omega

end Budget

/-! ## What a worker produces -/

/-- An artifact in the message is within the cap. -/
def NodeMessage.Fits : NodeMessage → Prop
  | .taskProduced _ artifact => artifact.bytes.length ≤ maxArtifact
  | _ => True

namespace Agent

variable {a : Agent} {now : Millis}

theorem results_fit (r : Running) : ∀ m ∈ r.results, m.Fits := by
  intro m hm
  unfold Running.results at hm
  split at hm
  · simp only [List.mem_singleton] at hm
    rw [hm]
    trivial
  · split at hm
    · simp only [List.mem_singleton] at hm
      rw [hm]
      trivial
    · rename_i hle
      simp only [List.mem_cons, List.not_mem_nil, or_false] at hm
      rcases hm with rfl | rfl
      · exact Nat.le_of_not_lt hle
      · trivial
  · cases hm

theorem poll_fits : ∀ m ∈ sends (a.poll now).1, m.Fits := by
  intro m hm
  simp only [poll, sends_append, sends_wakeIn, List.append_nil, List.mem_append] at hm
  rcases hm with hm | hm
  · unfold finish at hm
    split at hm
    · split at hm
      · rw [sends_map_send] at hm
        exact results_fit _ m hm
      · cases hm
    · cases hm
  · unfold beat at hm
    split at hm
    · split at hm
      · simp only [sends_send, sends_nil, List.mem_singleton] at hm
        rw [hm]
        trivial
      · cases hm
    · cases hm

theorem accept_fits {task : TaskId} {wire : WireTaskSpec} :
    ∀ m ∈ sends (a.accept task wire now).1, m.Fits := by
  intro m hm
  unfold accept at hm
  split at hm
  · cases hm
  · split at hm
    · split at hm
      · cases hm
      · simp only [sends_send, sends_nil, List.mem_singleton] at hm
        rw [hm]
        trivial
    · split at hm
      · simp only [sends_send, sends_nil, List.mem_cons, List.not_mem_nil, or_false] at hm
        rcases hm with rfl | rfl <;> trivial
      · split at hm
        · simp only [sends_send, sends_nil, List.mem_cons, List.not_mem_nil, or_false] at hm
          rcases hm with rfl | rfl <;> trivial
        · simp only [sends_send, List.mem_cons] at hm
          rcases hm with rfl | hm
          · trivial
          · exact poll_fits m hm

theorem call_fits (c : AgentCall) : ∀ m ∈ sends (a.call c).1, m.Fits := by
  cases c with
  | setFreeMemory => simp [call]
  | poll now => exact poll_fits
  | handle message now =>
      cases message with
      | assign => exact accept_fits
      | rejected | shutdown => simp [call, handle, sends]
      | welcome | pauseHeartbeat | injectFailures | setDelay => exact poll_fits

theorem converse_fits (calls : List AgentCall) : ∀ m ∈ (a.converse calls).1, m.Fits := by
  induction calls generalizing a with
  | nil => simp [converse]
  | cons c calls ih =>
      intro m hm
      rcases List.mem_append.mp hm with hm | hm
      · exact call_fits c m hm
      · exact ih m hm

end Agent

/-! ## The stream -/

/-- Frames are read back as they were written, a failed encoding leaves no trace, and whatever the
size checks let through is encoded. -/
theorem frame_stream {α : Type} (codec : Postcard α) {node : Postcard NodeMessage}
    {supervisor : Postcard SupervisorMessage} (hnode : NodeLayout node)
    (hsupervisor : SupervisorLayout supervisor) :
    (∀ messages : List α, (∀ m ∈ messages, codec.Carries m) →
      codec.readFrames (codec.encodeFrames messages []) =
        .ok (messages.filter codec.encodes, []) ∧
      ((∀ m ∈ messages, codec.encodes m = true) →
        codec.readFrames (codec.encodeFrames messages []) = .ok (messages, []))) ∧
    (∀ m out why, (codec.encodeFrame m out).1 = .error why → (codec.encodeFrame m out).2 = out) ∧
    (∀ m out, (codec.encodeFrame m out).1 = .ok () → ∃ head body : Bytes,
      (codec.encodeFrame m out).2 = out ++ head ++ body ∧ head.length = lengthPrefix ∧
      frameLen head = .ok body.length) ∧
    (∀ task spec input wire out, task < 2 ^ 64 → spec.InRange → WireTaskSpec.of spec input = .ok wire →
      (supervisor.encodeFrame (.assign task wire) out).1 = .ok () ∧
      (ship supervisor task spec input out).1 = .ok ()) ∧
    (∀ (a : Agent) calls task artifact out, task < 2 ^ 64 →
      .taskProduced task artifact ∈ (a.converse calls).1 →
      (node.encodeFrame (.taskProduced task artifact) out).1 = .ok ()) := by
  refine ⟨?_, ?_, ?_, ?_, ?_⟩
  · intro messages hcarries
    have hread := Postcard.readFrames_encodeFrames hcarries
    refine ⟨hread, fun hall => ?_⟩
    rw [hread, List.filter_eq_self.mpr hall]
  · intro m out why herr
    exact Postcard.encodeFrame_error herr
  · intro m out hok
    obtain ⟨body, -, hle, hout⟩ := Postcard.encodeFrame_ok hok
    exact ⟨_, body, hout, Bytes.toBeBytes_length _, Postcard.frameLen_toBeBytes hle⟩
  · intro task spec input wire out htask hspec hwire
    have hok := assign_encodes hsupervisor htask hspec hwire out
    exact ⟨hok, by simp only [ship, hwire, hok]⟩
  · intro a calls task artifact out htask hmem
    exact taskProduced_encodes hnode htask (Agent.converse_fits calls _ hmem) out

/-- The library on starts of tasks and on artifacts of two bytes, as far as numbers of one byte go. -/
def shortNode : Postcard NodeMessage where
  toAllocvec
    | .taskProduced task artifact => some (Bytes.varint 2 ++ Bytes.varint task ++ artifact.layout)
    | .taskStarted task => some (Bytes.varint 3 ++ Bytes.varint task)
    | _ => none
  fromBytes
    | [3, task] => some (.taskStarted task.toNat)
    | [2, task, 2, a, b, 0] => some (.taskProduced task.toNat ⟨[a, b], 0⟩)
    | _ => none

/-- The library on assignments. -/
def assignments : Postcard SupervisorMessage where
  toAllocvec
    | .assign task wire => some (Bytes.varint 2 ++ Bytes.varint task ++ wire.layout)
    | _ => none
  fromBytes _ := none

/-- Two tasks start and one of them produces two bytes between. -/
def shortMessages : List NodeMessage :=
  [.taskStarted 7, .taskStarted 9, .taskProduced 7 ⟨[1, 2], 0⟩, .taskStarted 100]

theorem frame_stream_short :
    shortNode.readFrames (shortNode.encodeFrames shortMessages []) = .ok (shortMessages, []) ∧
    (ship assignments 7 (.analysis 1 1 0) (some [1, 2, 3]) []).1 = .ok () := by
  have hstarted {task : Nat} (h : task < 128) :
      shortNode.toAllocvec (.taskStarted task) = some [3, UInt8.ofNat task] := by
    simp only [shortNode, Bytes.varint_of_lt (show 3 < 128 by decide), Bytes.varint_of_lt h]
    rfl
  have hproduced : shortNode.toAllocvec (.taskProduced 7 ⟨[1, 2], 0⟩) = some [2, 7, 2, 1, 2, 0] := by
    have hdigest : Bytes.varint (0 : UInt64).toNat = [0] := Bytes.varint_of_lt (by decide)
    simp only [shortNode, Artifact.layout, List.length_cons, List.length_nil, hdigest,
      Bytes.varint_of_lt (show 2 < 128 by decide), Bytes.varint_of_lt (show 7 < 128 by decide)]
    rfl
  have hencodes {m : NodeMessage} {body : Bytes} (hbody : shortNode.toAllocvec m = some body)
      (hle : body.length ≤ maxFrame) : shortNode.encodes m = true :=
    Postcard.encodes_iff.mpr (show (shortNode.encodeFrame m []).1 = .ok () from
      Postcard.encodeFrame_fits hbody hle)
  have hstream := frame_stream shortNode (show NodeLayout shortNode from ⟨fun _ _ => rfl⟩)
    (show SupervisorLayout assignments from ⟨fun _ _ => rfl⟩)
  constructor
  · apply (hstream.1 shortMessages ?_).2
    · simp only [shortMessages, List.forall_mem_cons]
      exact ⟨hencodes (hstarted (by decide)) (by decide), hencodes (hstarted (by decide)) (by decide),
        hencodes hproduced (by decide), hencodes (hstarted (by decide)) (by decide), by simp⟩
    · simp only [shortMessages, List.forall_mem_cons]
      exact ⟨⟨_, hstarted (by decide), rfl⟩, ⟨_, hstarted (by decide), rfl⟩, ⟨_, hproduced, rfl⟩,
        ⟨_, hstarted (by decide), rfl⟩, by simp⟩
  · exact (hstream.2.2.2.1 7 (.analysis 1 1 0) (some [1, 2, 3]) _ [] (by decide)
      ⟨by decide, by decide, by decide⟩ rfl).2

end Gavel.Cluster
