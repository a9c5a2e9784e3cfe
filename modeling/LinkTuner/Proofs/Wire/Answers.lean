import LinkTuner.Controller.Session
import LinkTuner.Proofs.Wire.Framing
import LinkTuner.Proofs.Wire.Messages
import LinkTuner.Wire.Client

/-!
# Answers on their way to a client

The controller writes its decisions one after another, and a client reads them from the stream. Main
statement: a decision for a device that an observation was read of is never too long to be written,
and a client reads the decisions that were written, in their order, and then the end of the stream.
-/

namespace LinkTuner.Wire

/-- Writing decisions one after another, up to the first that cannot be written. -/
def writeAll : List Decision → Except Fault (List UInt8)
  | [] => .ok []
  | d :: ds => do
    let frame ← write (bytesOf d.encode)
    let frames ← writeAll ds
    return frame ++ frames

/-- What a client reads from a stream in so many turns, and the bytes after that. -/
def receiveTimes : ℕ → List UInt8 → List (Except Fault (Option Decision)) × List UInt8
  | 0, stream => ([], stream)
  | turns + 1, stream =>
    let (first, rest) := receive stream
    let (others, left) := receiveTimes turns rest
    (first :: others, left)

theorem receiveTimes_add (m n : ℕ) (stream : List UInt8) :
    receiveTimes (m + n) stream =
      ((receiveTimes m stream).1 ++ (receiveTimes n (receiveTimes m stream).2).1,
        (receiveTimes n (receiveTimes m stream).2).2) := by
  induction m generalizing stream with
  | zero => simp [receiveTimes]
  | succ m ih =>
      rw [Nat.succ_add, receiveTimes, receiveTimes]
      simp [ih]

/-! ## One decision -/

/-- The frame of a decision. -/
def Decision.frame (d : Decision) : List UInt8 :=
  header (bytesOf d.encode).length ++ bytesOf d.encode

/-- A decision that is written as one frame and read from it as it was. -/
structure Decision.Arrives (d : Decision) : Prop where
  fits : (bytesOf d.encode).length ≤ maxPayload
  written : write (bytesOf d.encode) = .ok d.frame
  frame?_eq : d.frame? = some d.frame
  decoded : Decision.decode (bytesOf d.encode) = .ok d

variable {d : Decision}

theorem Travels.arrives (h : Travels d.device) : d.Arrives := by
  have hfits : (bytesOf d.encode).length ≤ maxPayload :=
    (d.length_encode_le h).trans (by decide)
  have hencode : encode? (bytesOf d.encode) = some d.frame := if_neg (Nat.not_lt.mpr hfits)
  exact ⟨hfits, by rw [write, hencode], hencode, Decision.decode_encode h⟩

namespace Decision.Arrives

theorem next_frame (h : d.Arrives) (rest : List UInt8) :
    next (d.frame ++ rest) = .ok (.payload (bytesOf d.encode), rest) :=
  next_of_spells (.payload h.fits) rest

theorem receive_frame (h : d.Arrives) (rest : List UInt8) :
    receive (d.frame ++ rest) = (.ok (some d), rest) := by
  rw [receive, h.next_frame]
  simp only [h.decoded]

end Decision.Arrives

/-! ## Decisions in a row -/

section

variable {ds : List Decision}

theorem writeAll_eq (h : ∀ d ∈ ds, d.Arrives) : writeAll ds = .ok (ds.flatMap Decision.frame) := by
  induction ds with
  | nil => rfl
  | cons d ds ih =>
      obtain ⟨hd, hds⟩ := List.forall_mem_cons.mp h
      rw [writeAll, hd.written, ih hds]
      rfl

theorem reads_frames (h : ∀ d ∈ ds, d.Arrives) :
    Reads (ds.flatMap Decision.frame) (ds.map fun d => .payload (bytesOf d.encode)) [] .clean := by
  induction ds with
  | nil => exact .ended rfl
  | cons d ds ih =>
      obtain ⟨hd, hds⟩ := List.forall_mem_cons.mp h
      rw [List.flatMap_cons]
      exact .frame (hd.next_frame _) (ih hds)

theorem receiveTimes_frames (h : ∀ d ∈ ds, d.Arrives) (rest : List UInt8) :
    receiveTimes ds.length (ds.flatMap Decision.frame ++ rest) =
      (ds.map fun d => .ok (some d), rest) := by
  induction ds with
  | nil => rfl
  | cons d ds ih =>
      obtain ⟨hd, hds⟩ := List.forall_mem_cons.mp h
      rw [List.flatMap_cons, List.append_assoc, List.length_cons, receiveTimes, hd.receive_frame]
      simp only [ih hds, List.map_cons]

end

/-- Decisions for devices of observations that were read, whatever their actions and sequence
numbers: each fits into a frame and is read from its bytes as it was. So none is refused when they
are written in a row, and a client gets them all, in their order, whatever follows them; where
nothing follows, it then learns of the end. -/
theorem decisions_reach_the_client (ds : List Decision)
    (h : ∀ d ∈ ds, ∃ payload o, Observation.decode payload = .ok o ∧ d.device = o.device) :
    (∀ d ∈ ds, d.Arrives) ∧
      ∃ stream, writeAll ds = .ok stream ∧
        readAll stream = (ds.map fun d => .payload (bytesOf d.encode), .clean) ∧
        (∀ more, receiveTimes ds.length (stream ++ more) = (ds.map fun d => .ok (some d), more)) ∧
        receiveTimes (ds.length + 1) stream =
          ((ds.map fun d => .ok (some d)) ++ [.ok none], []) := by
  have harrives : ∀ d ∈ ds, d.Arrives := by
    intro d hd
    obtain ⟨payload, o, hdecode, hdevice⟩ := h d hd
    exact Travels.arrives (hdevice ▸ Observation.travels_of_decode hdecode)
  refine ⟨harrives, ds.flatMap Decision.frame, writeAll_eq harrives,
    (reads_frames harrives).readAll_eq, receiveTimes_frames harrives, ?_⟩
  have hall := receiveTimes_frames harrives []
  rw [List.append_nil] at hall
  rw [receiveTimes_add, hall]
  rfl

/-- The longest name, the greatest action and the greatest sequence number, and after them an answer
without a sequence number to a padded observation. -/
theorem decisions_reach_the_client_longest :
    let name := List.replicate DeviceId.maxLength 'x'
    let first : Decision := ⟨⟨String.ofList name⟩, ⟨4294967295⟩, some 18446744073709551615⟩
    let second : Decision := ⟨⟨"ed-4"⟩, ⟨0⟩, none⟩
    let ascii (cs : List Char) : List UInt8 := cs.map fun c => UInt8.ofNat c.toNat
    (∃ o, Observation.decode (ascii (name ++ [','])) = .ok o ∧ first.device = o.device) ∧
      (∃ o, Observation.decode (ascii " ed-4 ,- ,fail\r\n".toList) = .ok o ∧
        second.device = o.device) ∧
      ∃ stream, writeAll [first, second] = .ok stream ∧
        receiveTimes 3 stream = ([.ok (some first), .ok (some second), .ok none], []) := by
  intro name first second ascii
  have hfirst : ∃ o, Observation.decode (ascii (name ++ [','])) = .ok o ∧ first.device = o.device :=
    ⟨⟨first.device, none, ⟨none, none⟩, none⟩, rfl, rfl⟩
  have hsecond : ∃ o, Observation.decode (ascii " ed-4 ,- ,fail\r\n".toList) = .ok o ∧
      second.device = o.device :=
    ⟨⟨second.device, none, ⟨some 0.0, none⟩, none⟩, rfl, rfl⟩
  have hread : ∀ d ∈ [first, second],
      ∃ payload o, Observation.decode payload = .ok o ∧ d.device = o.device := by
    rw [List.forall_mem_cons, List.forall_mem_singleton]
    exact ⟨⟨_, hfirst⟩, ⟨_, hsecond⟩⟩
  obtain ⟨stream, hstream, -, -, hall⟩ := (decisions_reach_the_client [first, second] hread).2
  exact ⟨hfirst, hsecond, stream, hstream, hall⟩

end LinkTuner.Wire
