import LinkTuner.Controller.Session
import LinkTuner.Proofs.Controller.Malformed
import LinkTuner.Proofs.Wire.Framing

/-!
# Reading the frames of a session

One loop reads the frames of a session, while everything else goes on at the desk: decisions are
prepared and concluded, other sessions report, sessions begin and end. A schedule is any order of
turns of the loop, failures of the connection and calls by others. Main statement: the loop hands
over the observations that the frames of the stream hold, in the order of the stream; every other
frame is counted and has no other effect, so that the stream without those frames, read by the same
turns without theirs, makes the same decisions and leaves the same desk but for that count; and only
the end of the stream or a failure ends the loop.
-/

namespace LinkTuner

/-! ## Streams without unusable frames -/

namespace Wire

/-- Whether a frame holds an observation. -/
def Frame.isUsable (f : Frame) : Bool := f.observation.toOption.isSome

/-- The stream without the frames that hold no observation. -/
def usablePart (stream : List UInt8) : List UInt8 :=
  match _h : next stream with
  | .error _ => stream
  | .ok (f, rest) =>
    (if f.isUsable then stream.take (stream.length - rest.length) else []) ++ usablePart rest
termination_by stream.length
decreasing_by exact length_of_next ‹_›

theorem usablePart_of_error {stream : List UInt8} {e : Ending} (h : next stream = .error e) :
    usablePart stream = stream := by
  rw [usablePart]
  split
  next => rfl
  next h' =>
    rw [h] at h'
    cases h'

theorem usablePart_of_spells {f : Frame} {bytes : List UInt8} (h : f.Spells bytes)
    (rest : List UInt8) :
    usablePart (bytes ++ rest) = (if f.isUsable then bytes else []) ++ usablePart rest := by
  have hnext := next_of_spells h rest
  rw [usablePart]
  split
  next h' =>
    rw [hnext] at h'
    cases h'
  next h' =>
    rw [hnext] at h'
    cases h'
    simp

/-- Just the unusable frames are missing, and the stream ends in the same way. -/
theorem readAll_usablePart (stream : List UInt8) :
    readAll (usablePart stream) =
      ((readAll stream).1.filter Frame.isUsable, (readAll stream).2) := by
  obtain ⟨frames, left, e, h⟩ := exists_reads stream
  induction h with
  | ended h =>
      rw [usablePart_of_error h, readAll_of_error h]
      rfl
  | @frame stream rest left f frames e h _ ih =>
      rw [readAll_of_ok h]
      obtain ⟨bytes, hspells, rfl⟩ := next_eq_ok_iff.mp h
      rw [usablePart_of_spells hspells]
      cases husable : f.isUsable with
      | true =>
          rw [if_pos rfl, readAll_of_ok (next_of_spells hspells _), ih,
            List.filter_cons_of_pos husable]
      | false => rw [if_neg Bool.false_ne_true, List.nil_append, ih,
          List.filter_cons_of_neg (Bool.eq_false_iff.mp husable)]

end Wire

/-! ## The loop -/

/-- What ends a session from outside. -/
inductive Failure where
  /-- The connection fails. -/
  | transport
  /-- Nobody is there to write the answers. -/
  | writer

/-- How a loop ended. -/
inductive Closing where
  | stream (e : Wire.Ending)
  | failure (cause : Failure)

/-- One thing that happened at the desk: a frame was read, or somebody else made a call. -/
inductive Entry where
  | frame (f : Wire.Frame) (now : Time)
  | other (call : Call)

namespace Entry

/-- The call that an entry is at the desk. -/
def call (session : SessionId) : Entry → Call
  | .frame f now =>
    match f.observation with
    | .ok o => .accept session o now
    | .error _ => .malformed
  | .other call => call

/-- The call of the loop. -/
def own? (session : SessionId) : Entry → Option Call
  | .frame f now => some ((Entry.frame f now).call session)
  | .other _ => none

/-- The frame that was read. -/
def frame? : Entry → Option Wire.Frame
  | .frame f _ => some f
  | .other _ => none

/-- The call of somebody else. -/
def other? : Entry → Option Call
  | .frame _ _ => none
  | .other call => some call

/-- Whether an entry is more than an unusable frame. -/
def isUsable : Entry → Bool
  | .frame f _ => f.isUsable
  | .other _ => true

end Entry

/-- A session while it is served. -/
structure ReadLoop (P : Type) where
  desk : Desk P
  /-- The bytes up to the end of the stream that are not read yet. -/
  stream : List UInt8
  closing : Option Closing
  log : List Entry
  /-- The answers that were sent, with their tickets. -/
  sent : List (Nat × Wire.Decision)

/-- What can happen while a session is served. -/
inductive ReadLoop.Act where
  /-- The loop takes its turn: the next frame has arrived, or the stream has ended without one. -/
  | turn (now : Time)
  | stop (cause : Failure)
  | call (c : Call)

namespace ReadLoop

namespace Act

def isTurn : Act → Bool
  | .turn _ => true
  | _ => false

def call? : Act → Option Call
  | .call c => some c
  | _ => none

end Act

variable {P : Type}

/-- A session that begins at a desk. -/
def start (d : Desk P) (stream : List UInt8) : ReadLoop P := ⟨d, stream, none, [], []⟩

/-- The frames that were read. -/
def frames (l : ReadLoop P) : List Wire.Frame := l.log.filterMap Entry.frame?

/-- What the loop called. -/
def ownCalls (l : ReadLoop P) (session : SessionId) : List Call :=
  l.log.filterMap (Entry.own? session)

/-- What the others called. -/
def otherCalls (l : ReadLoop P) : List Call := l.log.filterMap Entry.other?

/-- One frame is taken in. -/
def take (l : ReadLoop P) (session : SessionId) (now : Time) (f : Wire.Frame)
    (rest : List UInt8) : ReadLoop P :=
  let received := l.desk.controller.receive session f now
  { l with
    desk := l.desk.enter received.controller received.result
    stream := rest
    log := l.log ++ [.frame f now] }

/-- One turn of the loop. -/
def turn (l : ReadLoop P) (session : SessionId) (now : Time) : ReadLoop P :=
  match l.closing with
  | some _ => l
  | none =>
    match Wire.next l.stream with
    | .error e => { l with closing := some (.stream e) }
    | .ok (f, rest) => l.take session now f rest

theorem frames_take (l : ReadLoop P) (session : SessionId) (now : Time) (f : Wire.Frame)
    (rest : List UInt8) : (l.take session now f rest).frames = l.frames ++ [f] :=
  List.filterMap_append

theorem otherCalls_take (l : ReadLoop P) (session : SessionId) (now : Time) (f : Wire.Frame)
    (rest : List UInt8) : (l.take session now f rest).otherCalls = l.otherCalls :=
  List.filterMap_append.trans (List.append_nil _)

theorem turn_of_closing {l : ReadLoop P} (h : l.closing.isSome = true) (session : SessionId)
    (now : Time) : l.turn session now = l := by
  unfold turn
  cases hend : l.closing with
  | none => simp [hend] at h
  | some how => rfl

theorem turn_of_error {l : ReadLoop P} {e : Wire.Ending} (hend : l.closing = none)
    (h : Wire.next l.stream = .error e) (session : SessionId) (now : Time) :
    l.turn session now = { l with closing := some (.stream e) } := by
  simp [turn, hend, h]

theorem turn_of_ok {l : ReadLoop P} {f : Wire.Frame} {rest : List UInt8} (hend : l.closing = none)
    (h : Wire.next l.stream = .ok (f, rest)) (session : SessionId) (now : Time) :
    l.turn session now = l.take session now f rest := by
  simp [turn, hend, h]

variable [Learner P]

def step (session : SessionId) (l : ReadLoop P) : Act → ReadLoop P
  | .turn now => l.turn session now
  | .stop cause => { l with closing := l.closing.orElse fun _ => some (.failure cause) }
  | .call c =>
    { l with
      desk := l.desk.step c
      log := l.log ++ [.other c]
      sent := l.sent ++ (l.desk.sentBy c).toList }

/-- The session after many acts. -/
def run (session : SessionId) (l : ReadLoop P) (acts : List Act) : ReadLoop P :=
  acts.foldl (step session) l

/-- Taking in a frame is a call: an observation is handed over, and any other frame is counted. -/
theorem enter_receive (d : Desk P) (session : SessionId) (f : Wire.Frame) (now : Time) :
    d.enter (d.controller.receive session f now).controller
        (d.controller.receive session f now).result =
      d.step ((Entry.frame f now).call session) := by
  simp only [Controller.receive, Entry.call]
  cases f.observation <;> rfl

theorem desk_take (l : ReadLoop P) (session : SessionId) (now : Time) (f : Wire.Frame)
    (rest : List UInt8) :
    (l.take session now f rest).desk = l.desk.step ((Entry.frame f now).call session) :=
  enter_receive l.desk session f now

/-- Turns one after another take in frames as those that arrived together are. -/
theorem controller_run_turns (session : SessionId) (now : Time) {l : ReadLoop P}
    (hend : l.closing = none) {stream left : List UInt8} {frames : List Wire.Frame}
    {e : Wire.Ending} (h : Wire.Reads stream frames left e) (hstream : l.stream = stream) :
    (l.run session (List.replicate frames.length (.turn now))).desk.controller =
      (l.desk.controller.receiveAll session now frames).controller := by
  induction h generalizing l with
  | ended h => rfl
  | @frame stream rest left f frames e hnext _ ih =>
      subst hstream
      have hturn : l.run session (List.replicate (frames.length + 1) (.turn now)) =
          (l.take session now f rest).run session (List.replicate frames.length (.turn now)) := by
        rw [← turn_of_ok hend hnext]
        rfl
      rw [List.length_cons, hturn, ih (l := l.take session now f rest) hend rfl]
      simp [take, Controller.receiveAll]

/-! ## What is read -/

theorem frames_call (session : SessionId) (l : ReadLoop P) (c : Call) :
    (l.step session (.call c)).frames = l.frames :=
  List.filterMap_append.trans (List.append_nil _)

theorem otherCalls_call (session : SessionId) (l : ReadLoop P) (c : Call) :
    (l.step session (.call c)).otherCalls = l.otherCalls ++ [c] :=
  List.filterMap_append

/-- What every schedule keeps: the frames that were read are the first ones of the stream, what
happened at the desk is what the log says, and the loop goes on until there is a reason to end. -/
structure Kept (session : SessionId) (d : Desk P) (stream : List UInt8) (acts : List Act)
    (l : ReadLoop P) : Prop where
  frames_eq : (Wire.readAll stream).1 = l.frames ++ (Wire.readAll l.stream).1
  ending_eq : (Wire.readAll stream).2 = (Wire.readAll l.stream).2
  desk_eq : l.desk = d.run (l.log.map (Entry.call session))
  others_eq : l.otherCalls = acts.filterMap Act.call?
  going : l.closing = none →
    (∀ cause, .stop cause ∉ acts) ∧ l.frames.length = acts.countP Act.isTurn
  ended : ∀ e, l.closing = some (.stream e) →
    Wire.next l.stream = .error e ∧ l.frames.length < acts.countP Act.isTurn
  failed : ∀ cause, l.closing = some (.failure cause) → .stop cause ∈ acts

theorem kept_start (session : SessionId) (d : Desk P) (stream : List UInt8) :
    Kept session d stream [] (start d stream) where
  frames_eq := rfl
  ending_eq := rfl
  desk_eq := rfl
  others_eq := rfl
  going _ := by simp [frames, start]
  ended e h := by simp [start] at h
  failed cause h := by simp [start] at h

namespace Kept

variable {session : SessionId} {d : Desk P} {stream : List UInt8} {acts : List Act}
  {l : ReadLoop P}

theorem call (h : Kept session d stream acts l) (c : Call) :
    Kept session d stream (acts ++ [.call c]) (l.step session (.call c)) := by
  have hturns : (acts ++ [Act.call c]).countP Act.isTurn = acts.countP Act.isTurn := by
    simp [Act.isTurn]
  constructor
  · rw [frames_call]
    exact h.frames_eq
  · exact h.ending_eq
  · simp [ReadLoop.step, h.desk_eq, Desk.run, Entry.call]
  · rw [otherCalls_call, h.others_eq, List.filterMap_append]
    rfl
  · intro hend
    obtain ⟨hstop, hframes⟩ := h.going hend
    refine ⟨fun cause hmem => ?_, ?_⟩
    · exact hstop cause (by simpa using hmem)
    · rw [frames_call, hturns]
      exact hframes
  · intro e hend
    rw [frames_call, hturns]
    exact h.ended e hend
  · intro cause hend
    exact List.mem_append_left _ (h.failed cause hend)

theorem stop (h : Kept session d stream acts l) (cause : Failure) :
    Kept session d stream (acts ++ [.stop cause]) (l.step session (.stop cause)) := by
  have hturns : (acts ++ [Act.stop cause]).countP Act.isTurn = acts.countP Act.isTurn := by
    simp [Act.isTurn]
  have hothers : (acts ++ [Act.stop cause]).filterMap Act.call? = acts.filterMap Act.call? :=
    List.filterMap_append.trans (List.append_nil _)
  refine ⟨h.frames_eq, h.ending_eq, h.desk_eq, h.others_eq.trans hothers.symm, ?_, ?_, ?_⟩
  · intro hend
    cases hbefore : l.closing <;> simp [ReadLoop.step, hbefore] at hend
  · intro e hend
    rw [hturns]
    cases hbefore : l.closing with
    | none => simp [ReadLoop.step, hbefore] at hend
    | some how =>
        simp only [ReadLoop.step, hbefore, Option.orElse_some] at hend
        exact h.ended e (hbefore.trans hend)
  · intro cause' hend
    cases hbefore : l.closing with
    | none =>
        simp only [ReadLoop.step, hbefore, Option.orElse_none, Option.some.injEq,
          Closing.failure.injEq] at hend
        exact List.mem_append_right _ (by simp [hend])
    | some how =>
        simp only [ReadLoop.step, hbefore, Option.orElse_some] at hend
        exact List.mem_append_left _ (h.failed cause' (hbefore.trans hend))

theorem turn (h : Kept session d stream acts l) (now : Time) :
    Kept session d stream (acts ++ [.turn now]) (l.turn session now) := by
  have hturns : (acts ++ [Act.turn now]).countP Act.isTurn = acts.countP Act.isTurn + 1 := by
    simp [Act.isTurn]
  have hothers : (acts ++ [Act.turn now]).filterMap Act.call? = acts.filterMap Act.call? :=
    List.filterMap_append.trans (List.append_nil _)
  cases hend : l.closing with
  | some how =>
      rw [turn_of_closing (by rw [hend]; rfl)]
      refine ⟨h.frames_eq, h.ending_eq, h.desk_eq, h.others_eq.trans hothers.symm, ?_, ?_, ?_⟩
      · intro hnone
        rw [hend] at hnone
        cases hnone
      · intro e hended
        obtain ⟨hnext, hlt⟩ := h.ended e hended
        exact ⟨hnext, by omega⟩
      · intro cause hfailed
        exact List.mem_append_left _ (h.failed cause hfailed)
  | none =>
      obtain ⟨hstop, hframes⟩ := h.going hend
      cases hnext : Wire.next l.stream with
      | error e =>
          rw [turn_of_error hend hnext]
          refine ⟨h.frames_eq, h.ending_eq, h.desk_eq, h.others_eq.trans hothers.symm, ?_, ?_, ?_⟩
          · intro hnone
            cases hnone
          · rintro _ ⟨⟩
            refine ⟨hnext, ?_⟩
            rw [hturns, ← hframes]
            exact Nat.lt_succ_self _
          · intro cause hfailed
            cases hfailed
      | ok first =>
          obtain ⟨f, rest⟩ := first
          rw [turn_of_ok hend hnext]
          have hread := Wire.readAll_of_ok hnext
          constructor
          · rw [frames_take, h.frames_eq, hread, List.append_assoc]
            rfl
          · rw [h.ending_eq, hread]
            rfl
          · rw [desk_take, h.desk_eq]
            simp [take, Desk.run]
          · rw [otherCalls_take, hothers]
            exact h.others_eq
          · intro _
            refine ⟨fun cause hmem => ?_, ?_⟩
            · exact hstop cause (by simpa using hmem)
            · rw [frames_take, List.length_append, hframes, hturns]
              rfl
          · intro e hended
            cases hend.symm.trans hended
          · intro cause hfailed
            cases hend.symm.trans hfailed

theorem step (h : Kept session d stream acts l) (act : Act) :
    Kept session d stream (acts ++ [act]) (l.step session act) := by
  cases act with
  | turn now => exact h.turn now
  | stop cause => exact h.stop cause
  | call c => exact h.call c

theorem run (session : SessionId) (d : Desk P) (stream : List UInt8) (acts : List Act) :
    Kept session d stream acts ((start d stream).run session acts) := by
  induction acts using List.reverseRecOn with
  | nil => exact kept_start session d stream
  | append_singleton acts act ih =>
      rw [ReadLoop.run, List.foldl_append]
      exact ih.step act

end Kept

/-! ## What is counted -/

/-- A frame hands over its observation or counts as malformed. -/
theorem call_frame_cases (session : SessionId) (f : Wire.Frame) (now : Time) :
    (∃ o, f.observation.toOption = some o ∧ f.isUsable = true ∧
        (Entry.frame f now).call session = .accept session o now) ∨
      f.observation.toOption = none ∧ f.isUsable = false ∧
        (Entry.frame f now).call session = .malformed := by
  simp only [Wire.Frame.isUsable, Entry.call]
  cases f.observation with
  | ok o => exact .inl ⟨o, rfl, rfl, rfl⟩
  | error fault => exact .inr ⟨rfl, rfl, rfl⟩

section Counts

variable (session : SessionId) (l : ReadLoop P)

omit [Learner P]

/-- The calls at the desk are those of the loop and those of the others. -/
theorem countP_log (q : Call → Bool) :
    (l.log.map (Entry.call session)).countP q =
      (l.ownCalls session).countP q + l.otherCalls.countP q := by
  unfold ownCalls otherCalls
  induction l.log with
  | nil => rfl
  | cons entry rest ih =>
      cases entry with
      | frame f now =>
          have hown : Entry.own? session (.frame f now) = some ((Entry.frame f now).call session) :=
            rfl
          have hother : Entry.other? (.frame f now) = none := rfl
          rw [List.map_cons, List.countP_cons, ih, List.filterMap_cons_some hown,
            List.filterMap_cons_none hother, List.countP_cons]
          omega
      | other c =>
          have hown : Entry.own? session (.other c) = none := rfl
          have hother : Entry.other? (.other c) = some c := rfl
          rw [List.map_cons, List.countP_cons, ih, List.filterMap_cons_none hown,
            List.filterMap_cons_some hother, List.countP_cons, Nat.add_assoc]
          rfl

/-- The loop hands over the observations of the frames in their order. -/
theorem observations_ownCalls :
    (l.ownCalls session).filterMap Call.observation? =
      l.frames.filterMap fun f => f.observation.toOption := by
  simp only [ownCalls, frames, List.filterMap_filterMap]
  congr 1
  funext entry
  cases entry with
  | other c => rfl
  | frame f now =>
      show ((Entry.frame f now).call session).observation? = f.observation.toOption
      rcases call_frame_cases session f now with ⟨o, ho, -, hcall⟩ | ⟨hnone, -, hcall⟩
      · rw [hcall, ho]
        rfl
      · rw [hcall, hnone]
        rfl

/-- The loop counts the unusable frames as malformed. -/
theorem malformed_ownCalls :
    (l.ownCalls session).countP Call.isMalformed = l.frames.countP fun f => !f.isUsable := by
  simp only [ownCalls, frames, List.countP_filterMap]
  congr 1
  funext entry
  cases entry with
  | other c => rfl
  | frame f now =>
      show ((Entry.frame f now).call session).isMalformed = !f.isUsable
      rcases call_frame_cases session f now with ⟨o, -, husable, hcall⟩ | ⟨-, husable, hcall⟩
      · rw [hcall, husable]
        rfl
      · rw [hcall, husable]
        rfl

/-- Every frame that was read is an observation handed over or a malformed message. -/
theorem length_frames :
    l.frames.length = (l.frames.filterMap fun f => f.observation.toOption).length +
      l.frames.countP fun f => !f.isUsable := by
  rw [List.length_filterMap_eq_countP, List.length_eq_countP_add_countP Wire.Frame.isUsable]
  simp only [Bool.not_eq_true, Bool.decide_eq_false]
  rfl

end Counts

/-- What a session with a given stream does after some acts. -/
structure Exact (session : SessionId) (d : Desk P) (stream : List UInt8) (acts : List Act)
    (l : ReadLoop P) : Prop where
  /-- The frames that were read are the first ones of the stream. -/
  frames_eq : (Wire.readAll stream).1 = l.frames ++ (Wire.readAll l.stream).1
  /-- Each of them is one call of the loop, and the others make their calls. -/
  desk_eq : l.desk = d.run (l.log.map (Entry.call session))
  handed_eq : (l.ownCalls session).filterMap Call.observation? =
    l.frames.filterMap fun f => f.observation.toOption
  others_eq : l.otherCalls = acts.filterMap Act.call?
  length_eq : l.frames.length = ((l.ownCalls session).filterMap Call.observation?).length +
    (l.ownCalls session).countP Call.isMalformed
  observations_eq : l.desk.controller.counters.observations =
    d.controller.counters.observations +
      ((l.ownCalls session).filterMap Call.observation?).length +
      (l.otherCalls.filterMap Call.observation?).length
  malformed_eq : l.desk.controller.counters.malformed =
    d.controller.counters.malformed + l.frames.countP (fun f => !f.isUsable) +
      l.otherCalls.countP Call.isMalformed
  going_iff : l.closing = none ↔ (∀ cause, .stop cause ∉ acts) ∧
    acts.countP Act.isTurn ≤ (Wire.readAll stream).1.length
  ended : ∀ e, l.closing = some (.stream e) →
    l.frames = (Wire.readAll stream).1 ∧ e = (Wire.readAll stream).2
  failed : ∀ cause, l.closing = some (.failure cause) → .stop cause ∈ acts

theorem Kept.frames_of_ended {session : SessionId} {d : Desk P} {stream : List UInt8}
    {acts : List Act} {l : ReadLoop P} (h : Kept session d stream acts l) {e : Wire.Ending}
    (hended : l.closing = some (.stream e)) :
    l.frames = (Wire.readAll stream).1 ∧ e = (Wire.readAll stream).2 := by
  have hrest := Wire.readAll_of_error (h.ended e hended).1
  rw [h.frames_eq, h.ending_eq, hrest]
  exact ⟨(List.append_nil _).symm, rfl⟩

theorem Kept.exact {session : SessionId} {d : Desk P} {stream : List UInt8} {acts : List Act}
    {l : ReadLoop P} (h : Kept session d stream acts l) : Exact session d stream acts l where
  frames_eq := h.frames_eq
  desk_eq := h.desk_eq
  handed_eq := observations_ownCalls session l
  others_eq := h.others_eq
  length_eq := by
    rw [observations_ownCalls, malformed_ownCalls]
    exact length_frames l
  observations_eq := by
    rw [h.desk_eq, Desk.observations_run, List.length_filterMap_eq_countP, countP_log,
      List.length_filterMap_eq_countP, List.length_filterMap_eq_countP, Nat.add_assoc]
  malformed_eq := by
    rw [h.desk_eq, Desk.malformed_run, countP_log, malformed_ownCalls, Nat.add_assoc]
  going_iff := by
    constructor
    · intro hend
      obtain ⟨hstop, hturns⟩ := h.going hend
      refine ⟨hstop, ?_⟩
      rw [← hturns, h.frames_eq, List.length_append]
      exact Nat.le_add_right _ _
    · rintro ⟨hstop, hturns⟩
      cases hend : l.closing with
      | none => rfl
      | some how =>
          cases how with
          | failure cause => exact absurd (h.failed cause hend) (hstop cause)
          | stream e =>
              have hlt := (h.ended e hend).2
              rw [(h.frames_of_ended hend).1] at hlt
              omega
  ended _ hended := h.frames_of_ended hended
  failed := h.failed

/-! ## Leaving out unusable frames -/

/-- Whether an act is a turn that reads an unusable frame. -/
def passesOver (l : ReadLoop P) : Act → Bool
  | .turn _ =>
    match l.closing, Wire.next l.stream with
    | none, .ok (f, _) => !f.isUsable
    | _, _ => false
  | _ => false

omit [Learner P] in
theorem exists_of_passesOver {l : ReadLoop P} {act : Act} (h : l.passesOver act = true) :
    ∃ now f rest, act = .turn now ∧ l.closing = none ∧ Wire.next l.stream = .ok (f, rest) ∧
      f.isUsable = false := by
  cases act with
  | turn now =>
      cases hend : l.closing with
      | some how => simp [passesOver, hend] at h
      | none =>
          cases hnext : Wire.next l.stream with
          | error e => simp [passesOver, hend, hnext] at h
          | ok first =>
              have husable : first.1.isUsable = false := by simpa [passesOver, hend, hnext] using h
              exact ⟨now, first.1, first.2, rfl, rfl, rfl, husable⟩
  | stop cause => cases h
  | call c => cases h

/-- The acts without the turns that read an unusable frame. -/
def withoutUnusable (session : SessionId) (l : ReadLoop P) : List Act → List Act
  | [] => []
  | act :: acts =>
    let rest := withoutUnusable session (l.step session act) acts
    if l.passesOver act then rest else act :: rest

/-- Two sessions that differ by the unusable frames of the first one and by nothing else. -/
structure Cleaned (l l' : ReadLoop P) : Prop where
  stream_eq : l'.stream = Wire.usablePart l.stream
  closing_eq : l'.closing = l.closing
  log_eq : l'.log = l.log.filter Entry.isUsable
  sent_eq : l'.sent = l.sent
  desk_eq : l.desk = l'.desk.withMalformed
    (l'.desk.controller.counters.malformed + l.frames.countP fun f => !f.isUsable)

omit [Learner P] in
theorem cleaned_start (d : Desk P) (stream : List UInt8) :
    Cleaned (start d stream) (start d (Wire.usablePart stream)) :=
  ⟨rfl, rfl, rfl, rfl, rfl⟩

namespace Cleaned

variable {l l' : ReadLoop P} {session : SessionId}

/-- A turn that reads an unusable frame changes nothing but the count. -/
theorem pass (h : Cleaned l l') {act : Act} (hpass : l.passesOver act = true) :
    Cleaned (l.step session act) l' := by
  obtain ⟨now, f, rest, rfl, hend, hnext, husable⟩ := exists_of_passesOver hpass
  obtain ⟨bytes, hspells, hstream⟩ := Wire.next_eq_ok_iff.mp hnext
  have hstep : l.step session (.turn now) = l.take session now f rest :=
    turn_of_ok hend hnext session now
  rw [hstep]
  constructor
  · rw [h.stream_eq, hstream, Wire.usablePart_of_spells hspells, husable]
    rfl
  · exact h.closing_eq
  · have hlog : [Entry.frame f now].filter Entry.isUsable = [] := by simp [Entry.isUsable, husable]
    simp only [take, List.filter_append, hlog, List.append_nil]
    exact h.log_eq
  · exact h.sent_eq
  · have hcall : (Entry.frame f now).call session = .malformed := by
      rcases call_frame_cases session f now with ⟨o, -, hok, -⟩ | ⟨-, -, hcall⟩
      · rw [husable] at hok
        cases hok
      · exact hcall
    have hcount : (l.take session now f rest).frames.countP (fun f => !f.isUsable) =
        l.frames.countP (fun f => !f.isUsable) + 1 := by
      rw [frames_take, List.countP_append]
      simp [husable]
    rw [desk_take, hcall, hcount, h.desk_eq, Desk.step_withMalformed]
    rfl

theorem turn (h : Cleaned l l') {now : Time} (hpass : l.passesOver (.turn now) = false) :
    Cleaned (l.turn session now) (l'.turn session now) := by
  cases hend : l.closing with
  | some how =>
      rw [turn_of_closing (by rw [hend]; rfl), turn_of_closing (by rw [h.closing_eq, hend]; rfl)]
      exact h
  | none =>
      have hend' : l'.closing = none := h.closing_eq.trans hend
      cases hnext : Wire.next l.stream with
      | error e =>
          have hnext' : Wire.next l'.stream = .error e := by
            rw [h.stream_eq, Wire.usablePart_of_error hnext, hnext]
          rw [turn_of_error hend hnext, turn_of_error hend' hnext']
          exact ⟨h.stream_eq, rfl, h.log_eq, h.sent_eq, h.desk_eq⟩
      | ok first =>
          obtain ⟨f, rest⟩ := first
          have husable : f.isUsable = true := by simpa [passesOver, hend, hnext] using hpass
          obtain ⟨bytes, hspells, hstream⟩ := Wire.next_eq_ok_iff.mp hnext
          have hstream' : l'.stream = bytes ++ Wire.usablePart rest := by
            rw [h.stream_eq, hstream, Wire.usablePart_of_spells hspells, husable]
            rfl
          have hnext' : Wire.next l'.stream = .ok (f, Wire.usablePart rest) := by
            rw [hstream']
            exact Wire.next_of_spells hspells _
          rw [turn_of_ok hend hnext, turn_of_ok hend' hnext']
          constructor
          · rfl
          · exact h.closing_eq
          · have hlog : [Entry.frame f now].filter Entry.isUsable = [.frame f now] := by
              simp [Entry.isUsable, husable]
            simp only [take, List.filter_append, hlog, h.log_eq]
          · exact h.sent_eq
          · have hcount : (l.take session now f rest).frames.countP (fun f => !f.isUsable) =
                l.frames.countP fun f => !f.isUsable := by
              rw [frames_take, List.countP_append]
              simp [husable]
            rw [hcount, desk_take, desk_take]
            exact Desk.step_of_eq_withMalformed h.desk_eq _

theorem call (h : Cleaned l l') (c : Call) :
    Cleaned (l.step session (.call c)) (l'.step session (.call c)) := by
  constructor
  · exact h.stream_eq
  · exact h.closing_eq
  · have hlog : [Entry.other c].filter Entry.isUsable = [.other c] := rfl
    simp only [ReadLoop.step, List.filter_append, hlog, h.log_eq]
  · have hsent : l.desk.sentBy c = l'.desk.sentBy c := by
      rw [h.desk_eq, Desk.sentBy_withMalformed]
    simp only [ReadLoop.step, h.sent_eq, hsent]
  · rw [frames_call]
    exact Desk.step_of_eq_withMalformed h.desk_eq c

/-- Every other act does the same in both sessions. -/
theorem step (h : Cleaned l l') {act : Act} (hpass : l.passesOver act = false) :
    Cleaned (l.step session act) (l'.step session act) := by
  cases act with
  | turn now => exact h.turn hpass
  | call c => exact h.call c
  | stop cause =>
      refine ⟨h.stream_eq, ?_, h.log_eq, h.sent_eq, h.desk_eq⟩
      simp only [ReadLoop.step, h.closing_eq]

theorem run (h : Cleaned l l') (acts : List Act) :
    Cleaned (l.run session acts) (l'.run session (l.withoutUnusable session acts)) := by
  induction acts generalizing l l' with
  | nil => exact h
  | cons act acts ih =>
      rw [withoutUnusable]
      cases hpass : l.passesOver act with
      | true =>
          rw [if_pos rfl]
          exact ih (h.pass hpass)
      | false =>
          rw [if_neg Bool.false_ne_true]
          exact ih (h.step hpass)

end Cleaned

/-- Only turns are left out, and the rest keeps its order. -/
theorem withoutUnusable_sublist (session : SessionId) (l : ReadLoop P) (acts : List Act) :
    (l.withoutUnusable session acts).Sublist acts ∧
      (l.withoutUnusable session acts).filter (fun act => !act.isTurn) =
        acts.filter fun act => !act.isTurn := by
  induction acts generalizing l with
  | nil => exact ⟨.slnil, rfl⟩
  | cons act acts ih =>
      obtain ⟨hsublist, hothers⟩ := ih (l.step session act)
      rw [withoutUnusable]
      cases hpass : l.passesOver act with
      | true =>
          obtain ⟨now, f, rest, rfl, -⟩ := exists_of_passesOver hpass
          exact ⟨hsublist.cons _, hothers⟩
      | false =>
          refine ⟨hsublist.cons_cons act, ?_⟩
          simp only [Bool.false_eq_true, if_false, List.filter_cons, hothers]

end ReadLoop

/-- Whatever a session is sent, whenever its loop takes its turns and whatever else happens
meanwhile, the loop hands over the observations that the frames hold, in their order, and counts
every other frame; only the end of the stream or a failure ends it. Without those other frames the
same happens, but for their number. -/
theorem unusable_frames_are_only_counted {P : Type} [Learner P] (session : SessionId) (d : Desk P)
    (stream : List UInt8) (acts : List ReadLoop.Act) :
    let l := ReadLoop.start d stream
    let l' := ReadLoop.start d (Wire.usablePart stream)
    (l.run session acts).Exact session d stream acts ∧
      (l.run session acts).Cleaned (l'.run session (l.withoutUnusable session acts)) ∧
      (l.withoutUnusable session acts).Sublist acts ∧
      (l.withoutUnusable session acts).filter (fun act => !act.isTurn) =
        acts.filter (fun act => !act.isTurn) ∧
      Wire.readAll (Wire.usablePart stream) =
        ((Wire.readAll stream).1.filter Wire.Frame.isUsable, (Wire.readAll stream).2) := by
  intro l l'
  have hkept := ReadLoop.Kept.run session d stream acts
  obtain ⟨hsublist, hothers⟩ := ReadLoop.withoutUnusable_sublist session l acts
  refine ⟨hkept.exact, ?_, hsublist, hothers, Wire.readAll_usablePart stream⟩
  exact (ReadLoop.cleaned_start d stream).run acts

end LinkTuner
