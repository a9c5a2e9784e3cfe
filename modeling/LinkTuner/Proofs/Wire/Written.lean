import LinkTuner.Proofs.Wire.Framing

/-!
# Streams that were written

Payloads are written to a stream one after another, and between them the stream can hold frames that
are too long to be written here. Whatever the bytes of the payloads look like, reading gives back
those that were not refused, each at its place, and says of the others how long they are.
-/

namespace LinkTuner.Wire

/-- A frame of another writer, whose payload is too long but can still be announced. -/
structure LongBody where
  bytes : List UInt8
  long : maxPayload < bytes.length
  announced : bytes.length < UInt32.size

/-- What is put on a stream. -/
inductive Entry where
  | payload (bytes : List UInt8)
  | foreign (body : LongBody)

namespace Entry

/-- Putting an entry at the end of a stream: what is answered, and the stream with it. -/
def put (stream : List UInt8) : Entry → Except Fault Unit × List UInt8
  | payload bytes =>
    match write bytes with
    | .ok frame => (.ok (), stream ++ frame)
    | .error fault => (.error fault, stream)
  | foreign body => (.ok (), stream ++ header body.bytes.length ++ body.bytes)

/-- Putting entries on a stream one after another. -/
def putAll (stream : List UInt8) : List Entry → List (Except Fault Unit) × List UInt8
  | [] => ([], stream)
  | e :: es =>
    let (answer, stream) := e.put stream
    let (answers, stream) := putAll stream es
    (answer :: answers, stream)

/-- The answer to an entry: only a payload that is too long is refused. -/
def answer : Entry → Except Fault Unit
  | payload bytes => if maxPayload < bytes.length then .error (.tooLarge bytes.length) else .ok ()
  | foreign _ => .ok ()

/-- The bytes of an entry. -/
def bytes : Entry → List UInt8
  | payload bytes => if maxPayload < bytes.length then [] else header bytes.length ++ bytes
  | foreign body => header body.bytes.length ++ body.bytes

/-- The frame that an entry is received as. -/
def frame? : Entry → Option Frame
  | payload bytes => if maxPayload < bytes.length then none else some (.payload bytes)
  | foreign body => some (.oversized body.bytes.length)

theorem put_eq (stream : List UInt8) (e : Entry) :
    e.put stream = (e.answer, stream ++ e.bytes) := by
  cases e with
  | payload bytes =>
      simp only [put, write, encode?, answer, Entry.bytes]
      split_ifs <;> simp
  | foreign body => simp [put, answer, Entry.bytes]

theorem putAll_eq (stream : List UInt8) (es : List Entry) :
    putAll stream es = (es.map answer, stream ++ es.flatMap Entry.bytes) := by
  induction es generalizing stream with
  | nil => simp [putAll]
  | cons e es ih => simp [putAll, put_eq, ih]

/-- An entry is the bytes of one frame or no bytes at all. -/
theorem frame?_cases (e : Entry) :
    (∃ f, e.frame? = some f ∧ f.Spells e.bytes) ∨ e.frame? = none ∧ e.bytes = [] := by
  cases e with
  | payload bytes =>
      by_cases hlong : maxPayload < bytes.length
      · exact .inr ⟨if_pos hlong, if_pos hlong⟩
      · refine .inl ⟨.payload bytes, if_neg hlong, ?_⟩
        rw [Entry.bytes, if_neg hlong]
        exact .payload (by omega)
  | foreign body => exact .inl ⟨_, rfl, .oversized body.long body.announced⟩

/-- Entries are read in their order, and then whatever follows them. -/
theorem reads_append (es : List Entry) {rest left : List UInt8} {frames : List Frame} {e : Ending}
    (h : Reads rest frames left e) :
    Reads (es.flatMap Entry.bytes ++ rest) (es.filterMap frame? ++ frames) left e := by
  induction es with
  | nil => exact h
  | cons entry es ih =>
      rw [List.flatMap_cons, List.append_assoc]
      obtain ⟨f, hf, hspells⟩ | ⟨hnone, hbytes⟩ := entry.frame?_cases
      · rw [List.filterMap_cons_some hf]
        exact .frame (next_of_spells hspells _) ih
      · rw [List.filterMap_cons_none hnone, hbytes]
        exact ih

end Entry

/-- Exactly the payloads that are too long are refused, and they leave no byte. Reading the stream
gives the other payloads unchanged and the foreign frames by their lengths, in the order in which
they were put there, and then the clean end. -/
theorem written_frames_read_back (es : List Entry) :
    (Entry.putAll [] es).1 = es.map Entry.answer ∧
      (Entry.putAll [] es).2 = es.flatMap Entry.bytes ∧
      readAll (Entry.putAll [] es).2 = (es.filterMap Entry.frame?, .clean) := by
  have hreads := Entry.reads_append es reads_nil
  rw [List.append_nil, List.append_nil] at hreads
  rw [Entry.putAll_eq, List.nil_append]
  exact ⟨rfl, rfl, hreads.readAll_eq⟩

end LinkTuner.Wire
