import LinkTuner.Proofs.Wire.Framing

/-!
# Streams that are cut short

A stream of complete frames is cut somewhere, and only what lies before the cut is read. The cut can
lie between two frames, inside the four bytes of a header, or behind a header whose payload it takes
a part of. Main statement: the frames before the cut are read in each case, and the kind of ending
tells a cut behind a header, in a payload that is kept or in one that is passed over. A cut inside a
header is not told from one between two frames.
-/

namespace LinkTuner.Wire

/-- A frame with the bytes that it takes. -/
structure SpelledFrame where
  frame : Frame
  bytes : List UInt8
  spells : frame.Spells bytes

namespace SpelledFrame

/-- The bytes of frames one after another. -/
def stream (fs : List SpelledFrame) : List UInt8 := fs.flatMap SpelledFrame.bytes

/-- The number of bytes before the frame in place `i`; behind the last frame, all of them. -/
def offset (fs : List SpelledFrame) (i : Nat) : Nat := (stream (fs.take i)).length

/-- A cut in place `k` goes through the frame `f` in place `i`: it keeps the first `m` of its bytes,
which are not all of them. -/
structure CutsInto (fs : List SpelledFrame) (k i m : Nat) (f : SpelledFrame) : Prop where
  place : fs[i]? = some f
  position : k = offset fs i + m
  loses : m < f.bytes.length

/-- The cut lies between two frames, or at one end of the stream. -/
def Between (fs : List SpelledFrame) (k : Nat) : Prop := ∃ i, k = offset fs i

/-- The cut takes some but not all of the bytes of a header. -/
def InsideHeader (fs : List SpelledFrame) (k : Nat) : Prop :=
  ∃ i m f, CutsInto fs k i m f ∧ 0 < m ∧ m < 4

/-- The cut takes some of a payload that would be kept, and nothing of its header. -/
def InsidePayload (fs : List SpelledFrame) (k : Nat) : Prop :=
  ∃ i m f, CutsInto fs k i m f ∧ 4 ≤ m ∧ ∃ body, f.frame = .payload body

/-- The cut takes some of a payload that would be passed over, and nothing of its header. -/
def InsideOversized (fs : List SpelledFrame) (k : Nat) : Prop :=
  ∃ i m f, CutsInto fs k i m f ∧ 4 ≤ m ∧ ∃ n, f.frame = .oversized n

variable {fs : List SpelledFrame} {f g : SpelledFrame} {i j k m n : Nat}

/-! ## Positions -/

@[simp] theorem stream_cons (f : SpelledFrame) (fs : List SpelledFrame) :
    stream (f :: fs) = f.bytes ++ stream fs := rfl

@[simp] theorem stream_append (fs gs : List SpelledFrame) :
    stream (fs ++ gs) = stream fs ++ stream gs := List.flatMap_append

theorem offset_of_length_le (h : fs.length ≤ i) : offset fs i = (stream fs).length := by
  rw [offset, List.take_of_length_le h]

theorem offset_succ (h : fs[i]? = some f) : offset fs (i + 1) = offset fs i + f.bytes.length := by
  simp [offset, List.take_add_one, h, stream]

theorem offset_mono (h : i ≤ j) : offset fs i ≤ offset fs j := by
  obtain ⟨between, hbetween⟩ : fs.take i <+: fs.take j := List.take_prefix_take_left h
  rw [offset, offset, ← hbetween, stream_append, List.length_append]
  exact Nat.le_add_right _ _

/-- What lies before a cut that goes through a frame. -/
theorem CutsInto.take_stream (h : CutsInto fs k i m f) :
    (stream fs).take k = stream (fs.take i) ++ f.bytes.take m := by
  have hsplit : fs = fs.take i ++ f :: fs.drop (i + 1) := by
    obtain ⟨hlt, hf⟩ := List.getElem?_eq_some_iff.mp h.place
    rw [← hf, List.getElem_cons_drop, List.take_append_drop]
  have hbefore : (stream (fs.take i)).length ≤ k := h.position ▸ Nat.le_add_right _ _
  have hkept : k - (stream (fs.take i)).length = m := by
    have hposition := h.position
    rw [offset] at hposition
    omega
  calc (stream fs).take k
      = (stream (fs.take i) ++ (f.bytes ++ stream (fs.drop (i + 1)))).take k := by
        rw [← stream_cons, ← stream_append, ← hsplit]
    _ = stream (fs.take i) ++ (f.bytes ++ stream (fs.drop (i + 1))).take m := by
        rw [List.take_append, List.take_of_length_le hbefore, hkept]
    _ = stream (fs.take i) ++ f.bytes.take m := by
        rw [List.take_append_of_le_length (Nat.le_of_lt h.loses)]

theorem CutsInto.next_offset (h : CutsInto fs k i m f) : k < offset fs (i + 1) := by
  rw [h.position, offset_succ h.place]
  exact Nat.add_lt_add_left h.loses _

theorem CutsInto.lt_length (h : CutsInto fs k i m f) : k < (stream fs).length := by
  have hmono : offset fs (i + 1) ≤ offset fs (max (i + 1) fs.length) :=
    offset_mono (Nat.le_max_left _ _)
  rw [offset_of_length_le (Nat.le_max_right _ _)] at hmono
  exact Nat.lt_of_lt_of_le h.next_offset hmono

theorem CutsInto.le (h : CutsInto fs k i m f) (h' : CutsInto fs k j n g) : i ≤ j := by
  by_contra hlt
  have hmono : offset fs (j + 1) ≤ offset fs i := offset_mono (by omega)
  have hnext := h'.next_offset
  have hposition := h.position
  omega

/-- A cut goes through one frame at most. -/
theorem CutsInto.unique (h : CutsInto fs k i m f) (h' : CutsInto fs k j n g) :
    i = j ∧ m = n ∧ f = g := by
  obtain rfl : i = j := Nat.le_antisymm (h.le h') (h'.le h)
  have hposition := h.position.symm.trans h'.position
  exact ⟨rfl, by omega, Option.some.inj (h.place.symm.trans h'.place)⟩

/-- A cut before the end of the stream goes through some frame. -/
theorem exists_cutsInto (h : k < (stream fs).length) : ∃ i m f, CutsInto fs k i m f := by
  induction fs generalizing k with
  | nil => simp [stream] at h
  | cons g fs ih =>
      rcases Nat.lt_or_ge k g.bytes.length with hlt | hge
      · exact ⟨0, k, g, rfl, by simp [offset, stream], hlt⟩
      · rw [stream_cons, List.length_append] at h
        obtain ⟨i, m, f, hplace, hposition, hloses⟩ := ih (k := k - g.bytes.length) (by omega)
        refine ⟨i + 1, m, f, by simpa using hplace, ?_, hloses⟩
        have hoffset : offset (g :: fs) (i + 1) = g.bytes.length + offset fs i := by
          simp [offset, stream]
        omega

theorem CutsInto.between_iff (h : CutsInto fs k i m f) : Between fs k ↔ m = 0 := by
  constructor
  · rintro ⟨j, hj⟩
    have hposition := h.position
    have hnext := h.next_offset
    rcases Nat.lt_or_ge i j with hlt | hge
    · have hmono : offset fs (i + 1) ≤ offset fs j := offset_mono hlt
      omega
    · have hmono : offset fs j ≤ offset fs i := offset_mono hge
      omega
  · rintro rfl
    exact ⟨i, h.position⟩

/-- What some frame has that the cut goes through, this one has. -/
theorem CutsInto.exists_iff (h : CutsInto fs k i m f) {p : Nat → SpelledFrame → Prop} :
    (∃ j n g, CutsInto fs k j n g ∧ p n g) ↔ p m f := by
  constructor
  · rintro ⟨j, n, g, hcuts, hp⟩
    obtain ⟨-, rfl, rfl⟩ := h.unique hcuts
    exact hp
  · intro hp
    exact ⟨i, m, f, h, hp⟩

/-! ## Reading up to a cut -/

/-- How a stream ends that breaks off in the frame behind its first `m` bytes. -/
def ending (f : SpelledFrame) (m : Nat) : Ending :=
  if m < 4 then .clean
  else match f.frame with
    | .payload _ => .insidePayload
    | .oversized _ => .insideOversized

/-- A frame that lost some of what it announces. -/
theorem take_header_append {n m : Nat} (h : 4 ≤ m) (body : List UInt8) :
    (header n ++ body).take m = header n ++ body.take (m - 4) := by
  rw [List.take_append, length_header, List.take_of_length_le (length_header n ▸ h)]

theorem leaves_take (h : m < f.bytes.length) : (f.ending m).Leaves (f.bytes.take m) := by
  rcases Nat.lt_or_ge m 4 with hfew | hfour
  · rw [ending, if_pos hfew]
    exact .clean (by rw [List.length_take]; omega)
  · have hlacks {body : List UInt8} (hm : m < (header body.length ++ body).length) :
        (body.take (m - 4)).length < body.length := by
      rw [List.length_append, length_header] at hm
      rw [List.length_take]
      omega
    obtain ⟨frame, bytes, hspells⟩ := f
    rw [ending, if_neg (Nat.not_lt.mpr hfour)]
    cases hspells with
    | payload hfits =>
        rw [take_header_append hfour]
        exact .insidePayload hfits (hlacks h)
    | oversized hlong hsize =>
        rw [take_header_append hfour]
        exact .insideOversized hlong hsize (hlacks h)

/-- Frames are read in their order, and then whatever follows them. -/
theorem reads_stream {rest left : List UInt8} {frames : List Frame} {e : Ending}
    (h : Reads rest frames left e) (fs : List SpelledFrame) :
    Reads (stream fs ++ rest) (fs.map SpelledFrame.frame ++ frames) left e := by
  induction fs with
  | nil => exact h
  | cons f fs ih =>
      rw [stream_cons, List.append_assoc]
      exact .frame (next_of_spells f.spells _) ih

/-- The frames before a cut are read, and the frame it goes through says how the stream ends. -/
theorem CutsInto.readAll_eq (h : CutsInto fs k i m f) :
    readAll ((stream fs).take k) = ((fs.take i).map SpelledFrame.frame, f.ending m) := by
  have hreads := reads_stream (.ended (next_of_leaves (leaves_take h.loses))) (fs.take i)
  rw [List.append_nil] at hreads
  rw [h.take_stream, hreads.readAll_eq]

theorem readAll_stream (fs : List SpelledFrame) :
    readAll (stream fs) = (fs.map SpelledFrame.frame, .clean) := by
  have hreads := reads_stream reads_nil fs
  rw [List.append_nil, List.append_nil] at hreads
  exact hreads.readAll_eq

theorem ending_cases (f : SpelledFrame) (m : Nat) :
    m < 4 ∧ f.ending m = .clean ∨
      4 ≤ m ∧ (∃ body, f.frame = .payload body) ∧ f.ending m = .insidePayload ∨
      4 ≤ m ∧ (∃ n, f.frame = .oversized n) ∧ f.ending m = .insideOversized := by
  rcases Nat.lt_or_ge m 4 with hfew | hfour
  · exact .inl ⟨hfew, if_pos hfew⟩
  · right
    rw [ending, if_neg (Nat.not_lt.mpr hfour)]
    cases f.frame with
    | payload body => exact .inl ⟨hfour, ⟨body, rfl⟩, rfl⟩
    | oversized n => exact .inr ⟨hfour, ⟨n, rfl⟩, rfl⟩

/-- How a cut stream ends. -/
structure EndsBy (fs : List SpelledFrame) (k : Nat) (e : Ending) : Prop where
  clean : e = .clean ↔ Between fs k ∨ InsideHeader fs k
  insidePayload : e = .insidePayload ↔ InsidePayload fs k
  insideOversized : e = .insideOversized ↔ InsideOversized fs k
  told : (e = .clean ↔ Between fs k) ↔ ¬InsideHeader fs k

theorem CutsInto.endsBy (h : CutsInto fs k i m f) : EndsBy fs k (f.ending m) := by
  have hbetween := h.between_iff
  have hheader : InsideHeader fs k ↔ 0 < m ∧ m < 4 := h.exists_iff
  have hpayload : InsidePayload fs k ↔ 4 ≤ m ∧ ∃ body, f.frame = .payload body := h.exists_iff
  have hoversized : InsideOversized fs k ↔ 4 ≤ m ∧ ∃ n, f.frame = .oversized n := h.exists_iff
  obtain ⟨hfew, he⟩ | ⟨hfour, ⟨body, hframe⟩, he⟩ | ⟨hfour, ⟨n, hframe⟩, he⟩ := f.ending_cases m
  · constructor
    · simp only [he, true_iff, hbetween, hheader]; omega
    · simp only [he, reduceCtorEq, false_iff, hpayload]; omega
    · simp only [he, reduceCtorEq, false_iff, hoversized]; omega
    · simp only [he, true_iff, hbetween, hheader]; omega
  · constructor
    · simp only [he, reduceCtorEq, false_iff, hbetween, hheader]; omega
    · simp [he, hpayload, hfour, hframe]
    · simp [he, hoversized, hframe]
    · simp only [he, reduceCtorEq, false_iff, hbetween, hheader]; omega
  · constructor
    · simp only [he, reduceCtorEq, false_iff, hbetween, hheader]; omega
    · simp [he, hpayload, hframe]
    · simp [he, hoversized, hfour, hframe]
    · simp only [he, reduceCtorEq, false_iff, hbetween, hheader]; omega

theorem endsBy_stream (fs : List SpelledFrame) : EndsBy fs (stream fs).length .clean := by
  have hbetween : Between fs (stream fs).length :=
    ⟨fs.length, (offset_of_length_le (Nat.le_refl _)).symm⟩
  have hnone {i m : Nat} {f : SpelledFrame} : ¬CutsInto fs (stream fs).length i m f := fun h =>
    Nat.lt_irrefl _ h.lt_length
  constructor <;>
    simp [hbetween, hnone, InsideHeader, InsidePayload, InsideOversized]

/-- The frames that a cut leaves whole. -/
def Whole (fs : List SpelledFrame) (k : Nat) (whole : List SpelledFrame) : Prop :=
  ∃ i ≤ fs.length, whole = fs.take i ∧ ∀ j ≤ fs.length, j ≤ i ↔ offset fs j ≤ k

theorem CutsInto.whole (h : CutsInto fs k i m f) : Whole fs k (fs.take i) := by
  obtain ⟨hlt, -⟩ := List.getElem?_eq_some_iff.mp h.place
  refine ⟨i, Nat.le_of_lt hlt, rfl, fun j _ => ?_⟩
  have hposition := h.position
  have hnext := h.next_offset
  constructor
  · intro hle
    have hmono : offset fs j ≤ offset fs i := offset_mono hle
    omega
  · intro hle
    by_contra hgt
    have hmono : offset fs (i + 1) ≤ offset fs j := offset_mono (by omega)
    omega

theorem whole_stream (fs : List SpelledFrame) : Whole fs (stream fs).length fs := by
  refine ⟨fs.length, Nat.le_refl _, List.take_length.symm, fun j hj => ⟨fun _ => ?_, fun _ => hj⟩⟩
  exact offset_of_length_le (Nat.le_refl fs.length) ▸ offset_mono hj

/-- Wherever a stream of frames is cut, exactly the frames that the cut leaves whole are read. A cut
inside a payload breaks the stream, in the way of its frame. The clean end is found between two
frames, where it is meant to be, and inside a header, where it is not. -/
theorem cut_told_unless_inside_header (fs : List SpelledFrame) {k : Nat}
    (hk : k ≤ (stream fs).length) :
    ∃ whole ending, readAll ((stream fs).take k) = (whole.map SpelledFrame.frame, ending) ∧
      Whole fs k whole ∧ EndsBy fs k ending := by
  rcases Nat.eq_or_lt_of_le hk with rfl | hlt
  · refine ⟨fs, .clean, ?_, whole_stream fs, endsBy_stream fs⟩
    rw [List.take_length, readAll_stream]
  · obtain ⟨i, m, f, hcuts⟩ := exists_cutsInto hlt
    exact ⟨fs.take i, f.ending m, hcuts.readAll_eq, hcuts.whole, hcuts.endsBy⟩

/-- A frame of one letter. -/
def letter : SpelledFrame := ⟨.payload [0x61], header 1 ++ [0x61], .payload (by decide)⟩

/-- A frame that is passed over. -/
def long : SpelledFrame where
  frame := .oversized (List.replicate 5000 (0x78 : UInt8)).length
  bytes := header (List.replicate 5000 (0x78 : UInt8)).length ++ List.replicate 5000 0x78
  spells := by
    apply Frame.Spells.oversized <;> rw [List.length_replicate] <;> decide

theorem length_long : long.bytes.length = 5004 := by
  rw [long, List.length_append, length_header, List.length_replicate]

/-- The second frame has its header and three bytes of what it announces. -/
theorem cut_told_unless_inside_header_long :
    12 ≤ (stream [letter, long]).length ∧
      (readAll ((stream [letter, long]).take 12)).2 = .insideOversized := by
  have hcuts : CutsInto [letter, long] 12 1 7 _ := ⟨rfl, rfl, length_long ▸ by decide⟩
  have hle : 12 ≤ (stream [letter, long]).length := Nat.le_of_lt hcuts.lt_length
  obtain ⟨whole, ending, hread, -, hends⟩ := cut_told_unless_inside_header [letter, long] hle
  refine ⟨hle, ?_⟩
  rw [hread]
  exact hends.insideOversized.mpr ⟨1, 7, _, hcuts, by decide, _, rfl⟩

/-- A stream that ends inside the header of its second frame seems to end before it. -/
theorem cut_header_ends_clean :
    (readAll ((stream [letter, long]).take 7)).2 = .clean ∧ ¬Between [letter, long] 7 := by
  have hcuts : CutsInto [letter, long] 7 1 2 _ := ⟨rfl, rfl, length_long ▸ by decide⟩
  rw [hcuts.readAll_eq, hcuts.between_iff]
  exact ⟨rfl, by decide⟩

end SpelledFrame

end LinkTuner.Wire
