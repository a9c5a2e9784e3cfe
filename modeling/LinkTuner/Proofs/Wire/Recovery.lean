import LinkTuner.Proofs.Wire.Answers

/-!
# Reading on after a fault

A client meets faults at three places: a header can announce too many bytes, a payload can hold no
decision, and the stream can end inside a frame. The first two take up one frame and nothing after
it, the third takes up all that is left. Main statement: in any stream and after any number of
turns, a fault that counts as recoverable is confined to one frame of the stream, and the turns
after it are those of the stream without that frame; after any other fault nothing more is read.
-/

namespace LinkTuner.Wire

/-! ## One turn -/

/-- What a client makes of a complete frame. -/
def Frame.received : Frame → Except Fault (Option Decision)
  | .oversized n => .error (.tooLarge n)
  | .payload bytes =>
    match Decision.decode bytes with
    | .ok d => .ok (some d)
    | .error cause => .error (.malformed cause)

/-- What a client makes of the end of a stream. -/
def Ending.received : Ending → Except Fault (Option Decision)
  | .clean => .ok none
  | ending => .error (.broken ending)

section

variable {f : Frame} {e : Ending} {bytes left : List UInt8} {fault : Fault}

theorem receive_of_spells (h : f.Spells bytes) (rest : List UInt8) :
    receive (bytes ++ rest) = (f.received, rest) := by
  rw [receive, next_of_spells h]
  cases f with
  | oversized n => rfl
  | payload body =>
      simp only [Frame.received]
      cases Decision.decode body <;> rfl

theorem receive_of_leaves (h : e.Leaves left) : receive left = (e.received, []) := by
  rw [receive, next_of_leaves h]
  cases e <;> rfl

@[simp] theorem receive_nil : receive [] = (.ok none, []) := rfl

/-- A turn uses up the first frame, or all that is left of the stream. -/
theorem receive_cases (stream : List UInt8) :
    (∃ (f : Frame) (bytes rest : List UInt8), f.Spells bytes ∧ stream = bytes ++ rest ∧
      receive stream = (f.received, rest)) ∨
    ∃ e : Ending, receive stream = (e.received, []) := by
  obtain ⟨f, bytes, rest, hspells, rfl⟩ | ⟨e, hleaves⟩ := beginsFrame_or_leaves stream
  · exact .inl ⟨f, bytes, rest, hspells, rfl, receive_of_spells hspells rest⟩
  · exact .inr ⟨e, receive_of_leaves hleaves⟩

/-- Whatever is wrong with a complete frame, the messages after it can still be read. -/
theorem Frame.isRecoverable_of_received (h : f.received = .error fault) :
    fault.isRecoverable = true := by
  cases f with
  | oversized n =>
      cases h
      rfl
  | payload body =>
      rw [Frame.received] at h
      split at h
      · cases h
      · cases h
        rfl

theorem Ending.not_isRecoverable_of_received (h : e.received = .error fault) :
    fault.isRecoverable = false := by
  cases e <;> cases h <;> rfl

/-- A decision that was written for a device with a name that travels is received as it was. -/
theorem Decision.Arrives.received_payload {d : Decision} (h : d.Arrives) :
    (Frame.payload (bytesOf d.encode)).received = .ok (some d) := by
  simp only [Frame.received, h.decoded]

end

/-! ## Turns in a row -/

theorem receiveTimes_succ {stream rest : List UInt8} {reply : Except Fault (Option Decision)}
    (h : receive stream = (reply, rest)) (turns : ℕ) :
    receiveTimes (turns + 1) stream =
      (reply :: (receiveTimes turns rest).1, (receiveTimes turns rest).2) := by
  rw [receiveTimes, h]

/-- At its end a stream stays at its end. -/
@[simp] theorem receiveTimes_nil (turns : ℕ) :
    receiveTimes turns [] = (List.replicate turns (.ok none), []) := by
  induction turns with
  | zero => rfl
  | succ turns ih => rw [receiveTimes_succ receive_nil, ih, List.replicate_succ]

/-- One turn for each frame, whatever the frames hold and whatever follows them. -/
theorem receiveTimes_of_decomposes {stream left : List UInt8} {frames : List Frame}
    (h : Decomposes stream frames left) :
    receiveTimes frames.length stream = (frames.map Frame.received, left) := by
  obtain ⟨parts, hparts, rfl⟩ := h
  induction hparts with
  | nil => rfl
  | cons hspells _ ih =>
      rw [List.flatten_cons, List.append_assoc, List.length_cons,
        receiveTimes_succ (receive_of_spells hspells _), ih, List.map_cons]

theorem receiveTimes_add_of_decomposes {stream left : List UInt8} {frames : List Frame}
    (h : Decomposes stream frames left) (turns : ℕ) :
    receiveTimes (frames.length + turns) stream =
      (frames.map Frame.received ++ (receiveTimes turns left).1, (receiveTimes turns left).2) := by
  rw [receiveTimes_add, receiveTimes_of_decomposes h]

/-- A stream that has ended before a turn brings no fault in it. So the turns before a fault have
each used up a frame, and the fault is that of the next frame or of the end of the stream. -/
theorem exists_of_fault {turns : ℕ} {stream : List UInt8} {fault : Fault}
    (h : (receiveTimes (turns + 1) stream).1[turns]? = some (.error fault)) :
    ∃ (frames : List Frame) (parts : List (List UInt8)) (rest : List UInt8),
      frames.length = turns ∧ List.Forall₂ Frame.Spells frames parts ∧
      stream = parts.flatten ++ rest ∧ (receive rest).1 = .error fault := by
  induction turns generalizing stream with
  | zero =>
      have hreceive : receive stream = ((receive stream).1, (receive stream).2) := rfl
      rw [receiveTimes_succ hreceive] at h
      exact ⟨[], [], stream, rfl, .nil, rfl, Option.some.inj h⟩
  | succ turns ih =>
      obtain ⟨f, bytes, rest, hspells, rfl, hreceive⟩ | ⟨e, hreceive⟩ := receive_cases stream
      · rw [receiveTimes_succ hreceive, List.getElem?_cons_succ] at h
        obtain ⟨frames, parts, later, hlength, hparts, rfl, hfault⟩ := ih h
        exact ⟨f :: frames, bytes :: parts, later, by simp [hlength], .cons hspells hparts,
          by simp, hfault⟩
      · rw [receiveTimes_succ hreceive, List.getElem?_cons_succ, receiveTimes_nil,
          List.getElem?_replicate_of_lt (Nat.lt_succ_self turns)] at h
        cases h

/-! ## Faults -/

/-- A frame that brings nothing but a fault, after so many frames and before the rest of the
stream. -/
structure SetAside (stream : List UInt8) (turns : ℕ) (fault : Fault)
    (before bad rest : List UInt8) : Prop where
  split : stream = before ++ (bad ++ rest)
  /-- The bytes are those of one frame, and the fault is what is made of it. -/
  spells : ∃ f : Frame, f.Spells bad ∧ f.received = .error fault
  /-- As many frames as turns stand before it. -/
  before_frames : ∃ frames, Decomposes before frames [] ∧ frames.length = turns
  /-- Turns on the stream. -/
  reads (more : ℕ) : receiveTimes (turns + 1 + more) stream =
    ((receiveTimes turns stream).1 ++ .error fault :: (receiveTimes more rest).1,
      (receiveTimes more rest).2)
  /-- Turns on the stream without the frame. -/
  reads_without (more : ℕ) : receiveTimes (turns + more) (before ++ rest) =
    ((receiveTimes turns stream).1 ++ (receiveTimes more rest).1, (receiveTimes more rest).2)

/-- Turns that use up a frame and bring a fault can be taken from the run as the frame can be taken
from the stream. -/
theorem setAside_of_spells {frames : List Frame} {parts : List (List UInt8)}
    {f : Frame} {bad : List UInt8} {fault : Fault} (hparts : List.Forall₂ Frame.Spells frames parts)
    (hspells : f.Spells bad) (hfault : f.received = .error fault) (rest : List UInt8) :
    SetAside (parts.flatten ++ (bad ++ rest)) frames.length fault parts.flatten bad rest := by
  have hfirst : Decomposes (parts.flatten ++ (bad ++ rest)) frames (bad ++ rest) :=
    ⟨parts, hparts, rfl⟩
  refine ⟨rfl, ⟨f, hspells, hfault⟩, ⟨frames, ⟨parts, hparts, (List.append_nil _).symm⟩, rfl⟩,
    fun more => ?_, fun more => ?_⟩
  · rw [Nat.add_right_comm, Nat.add_assoc, receiveTimes_add_of_decomposes hfirst,
      receiveTimes_of_decomposes hfirst, receiveTimes_succ (receive_of_spells hspells rest), hfault]
  · rw [receiveTimes_add_of_decomposes ⟨parts, hparts, rfl⟩, receiveTimes_of_decomposes hfirst]

/-- In any stream, the fault that a client meets after any number of turns is recoverable or not
according to what it leaves behind. A recoverable one is that of one frame, which all turns before
it lead up to: from there the client goes on exactly as on the stream without the frame, and it
receives the frames that follow one by one, each decision that a controller wrote as it was. After
any other fault the stream is used up, and no turn brings a decision again. -/
theorem recoverable_faults_are_confined_to_a_frame {turns : ℕ} {stream : List UInt8} {fault : Fault}
    (h : (receiveTimes (turns + 1) stream).1[turns]? = some (.error fault)) :
    (fault.isRecoverable = true → ∃ before bad rest, SetAside stream turns fault before bad rest ∧
      (∀ frames left, Decomposes rest frames left →
        receiveTimes frames.length rest = (frames.map Frame.received, left)) ∧
      ∀ d : Decision, Travels d.device →
        (Frame.payload (bytesOf d.encode)).Spells d.frame ∧
        (Frame.payload (bytesOf d.encode)).received = .ok (some d)) ∧
    (fault.isRecoverable = false → ∀ more, receiveTimes (turns + 1 + more) stream =
      ((receiveTimes (turns + 1) stream).1 ++ List.replicate more (.ok none), [])) := by
  obtain ⟨frames, parts, rest, rfl, hparts, rfl, hfault⟩ := exists_of_fault h
  obtain ⟨f, bad, later, hspells, rfl, hreceive⟩ | ⟨e, hreceive⟩ := receive_cases rest
  · -- A frame is at fault.
    rw [hreceive] at hfault
    have hrecoverable := Frame.isRecoverable_of_received hfault
    refine ⟨fun _ => ⟨_, bad, later, setAside_of_spells hparts hspells hfault later,
      fun frames left => receiveTimes_of_decomposes, fun d hd => ?_⟩, fun hnot => ?_⟩
    · exact ⟨.payload hd.arrives.fits, hd.arrives.received_payload⟩
    · rw [hrecoverable] at hnot
      cases hnot
  · -- The stream ends.
    rw [hreceive] at hfault
    have hnot := Ending.not_isRecoverable_of_received hfault
    refine ⟨fun hrecoverable => ?_, fun _ more => ?_⟩
    · rw [hnot] at hrecoverable
      cases hrecoverable
    · have hlast : (receiveTimes (frames.length + 1) (parts.flatten ++ rest)).2 = [] := by
        rw [receiveTimes_add_of_decomposes ⟨parts, hparts, rfl⟩, receiveTimes_succ hreceive]
        simp
      rw [receiveTimes_add, hlast, receiveTimes_nil]

/-- A decision, a payload with one field, another decision, and an end inside a frame. -/
theorem recoverable_faults_are_confined_to_a_frame_mixedStream :
    let stream : List UInt8 :=
      [0, 0, 0, 3, 97, 44, 49, 0, 0, 0, 1, 120, 0, 0, 0, 3, 97, 44, 50, 0, 0, 0, 5, 97]
    let fault : Fault := .malformed (.decisionFields 1)
    (receiveTimes 2 stream).1[1]? = some (.error fault) ∧
      (∃ before bad rest, SetAside stream 1 fault before bad rest) ∧
      (receiveTimes 4 stream).1[3]? = some (.error (.broken .insidePayload)) ∧
      ∀ more, receiveTimes (4 + more) stream =
        ((receiveTimes 4 stream).1 ++ List.replicate more (.ok none), []) := by
  intro stream fault
  have hmalformed : (receiveTimes 2 stream).1[1]? = some (.error fault) := rfl
  have hbroken : (receiveTimes 4 stream).1[3]? = some (.error (.broken .insidePayload)) := rfl
  obtain ⟨before, bad, rest, haside, -⟩ :=
    (recoverable_faults_are_confined_to_a_frame hmalformed).1 rfl
  exact ⟨hmalformed, ⟨before, bad, rest, haside⟩, hbroken,
    (recoverable_faults_are_confined_to_a_frame hbroken).2 rfl⟩

end LinkTuner.Wire
