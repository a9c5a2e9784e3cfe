/-!
# Frames

A frame is a length of four bytes, the most significant first, and as many bytes of payload. A
payload longer than `maxPayload` is passed over but does not end the stream. A stream that ends
inside a header is taken for one that ends before it; one that ends inside a payload is broken.

`encode` writes a frame and `next` reads one from the bytes that are there, so nothing depends on
how the bytes arrive.
-/

namespace LinkTuner.Wire

/-- The longest payload that is written or kept. -/
def maxPayload : Nat := 4096

/-- One frame as it is received. -/
inductive Frame where
  | payload (bytes : List UInt8)
  /-- A payload that was too long, of which only the length is known. -/
  | oversized (length : Nat)
  deriving DecidableEq, Repr

/-- How a stream ends before its next frame is complete. -/
inductive Ending where
  | clean
  | insidePayload
  | insideOversized
  deriving DecidableEq, Repr

/-- Four bytes of a length. -/
def header (n : Nat) : List UInt8 :=
  [UInt8.ofNat (n / 0x1000000), UInt8.ofNat (n / 0x10000), UInt8.ofNat (n / 0x100), UInt8.ofNat n]

/-- The length that four bytes give. -/
def lengthOf (a b c d : UInt8) : Nat :=
  a.toNat * 0x1000000 + b.toNat * 0x10000 + c.toNat * 0x100 + d.toNat

/-- The bytes of a frame, unless the payload is too long. -/
def encode? (payload : List UInt8) : Option (List UInt8) :=
  if maxPayload < payload.length then none else some (header payload.length ++ payload)

/-- The first frame of a stream and the bytes after it, or how the stream ends. -/
def next : List UInt8 → Except Ending (Frame × List UInt8)
  | a :: b :: c :: d :: rest =>
    let n := lengthOf a b c d
    let body := rest.take n
    if maxPayload < n then
      if body.length < n then .error .insideOversized else .ok (.oversized n, rest.drop n)
    else if body.length < n then .error .insidePayload
    else .ok (.payload body, rest.drop n)
  | _ => .error .clean

/-- How many bytes a stream lacks until its next header or, after that, its next frame is there. -/
def missing : List UInt8 → Nat
  | a :: b :: c :: d :: rest => lengthOf a b c d - rest.length
  | bytes => 4 - bytes.length

theorem length_of_next {bytes rest : List UInt8} {f : Frame}
    (h : next bytes = .ok (f, rest)) : rest.length < bytes.length := by
  unfold next at h
  split at h
  · rename_i a b c d tail
    simp only at h
    split at h <;> split at h <;> simp at h
    all_goals
      obtain ⟨-, rfl⟩ := h
      simp only [List.length_drop, List.length_cons]
      omega
  · simp at h

/-- All frames of a stream and how it ends. -/
def readAll (bytes : List UInt8) : List Frame × Ending :=
  match _h : next bytes with
  | .error ending => ([], ending)
  | .ok (f, rest) =>
    let (frames, ending) := readAll rest
    (f :: frames, ending)
termination_by bytes.length
decreasing_by exact length_of_next ‹_›

/-- The complete frames at the beginning of a stream and the bytes that are left. -/
def framesOf (bytes : List UInt8) : List Frame × List UInt8 :=
  match _h : next bytes with
  | .error _ => ([], bytes)
  | .ok (f, rest) =>
    let (frames, left) := framesOf rest
    (f :: frames, left)
termination_by bytes.length
decreasing_by exact length_of_next ‹_›

end LinkTuner.Wire
