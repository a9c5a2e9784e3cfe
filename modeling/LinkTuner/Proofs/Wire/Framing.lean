import LinkTuner.Wire.Fault
import Mathlib.Data.List.Forall2

/-!
# Frames and streams

A stream is a sequence of frames and what is left after the last complete one. `Spells` says which
bytes a frame takes and `Decomposes` how frames make up the beginning of a stream. No two frames
begin the same stream, so reading can only find the frames that were put there: what it returns is
the longest decomposition, wherever the stream ends and whatever the payloads hold.
-/

namespace LinkTuner.Wire

/-! ## Headers -/

theorem lengthOf_lt (a b c d : UInt8) : lengthOf a b c d < UInt32.size := by
  have ha := a.toNat_lt
  have hb := b.toNat_lt
  have hc := c.toNat_lt
  have hd := d.toNat_lt
  simp only [lengthOf, UInt32.size]
  omega

@[simp] theorem length_header (n : Nat) : (header n).length = 4 := rfl

theorem header_lengthOf (a b c d : UInt8) : header (lengthOf a b c d) = [a, b, c, d] := by
  have ha := a.toNat_lt
  have hb := b.toNat_lt
  have hc := c.toNat_lt
  have hd := d.toNat_lt
  simp only [header, lengthOf, List.cons.injEq, ← UInt8.toNat_inj, UInt8.toNat_ofNat', and_true]
  omega

theorem lengthOf_header {n : Nat} (h : n < UInt32.size) :
    lengthOf (UInt8.ofNat (n / 0x1000000)) (UInt8.ofNat (n / 0x10000)) (UInt8.ofNat (n / 0x100))
      (UInt8.ofNat n) = n := by
  simp only [lengthOf, UInt8.toNat_ofNat', UInt32.size] at h ⊢
  omega

/-- A stream begins with a header or is shorter than one. -/
theorem header_cases (stream : List UInt8) :
    stream.length < 4 ∨ ∃ n, n < UInt32.size ∧ ∃ rest, stream = header n ++ rest := by
  match stream with
  | a :: b :: c :: d :: rest =>
    refine .inr ⟨lengthOf a b c d, lengthOf_lt a b c d, rest, ?_⟩
    rw [header_lengthOf]
    rfl
  | [] | [_] | [_, _] | [_, _, _] => exact .inl (by simp)

/-- Reading behind a header. -/
theorem next_header {n : Nat} (h : n < UInt32.size) (rest : List UInt8) :
    next (header n ++ rest) =
      if maxPayload < n then
        if rest.length < n then .error .insideOversized else .ok (.oversized n, rest.drop n)
      else if rest.length < n then .error .insidePayload
      else .ok (.payload (rest.take n), rest.drop n) := by
  have hbody : (rest.take n).length < n ↔ rest.length < n := by
    rw [List.length_take]
    omega
  simp only [header, List.cons_append, List.nil_append, next, lengthOf_header h, hbody]

theorem size_of_le_maxPayload {n : Nat} (h : n ≤ maxPayload) : n < UInt32.size :=
  Nat.lt_of_le_of_lt h (by decide)

/-! ## The first frame -/

/-- The bytes that a frame takes: a header and as many bytes as it announces. -/
inductive Frame.Spells : Frame → List UInt8 → Prop where
  | payload {body : List UInt8} (hfits : body.length ≤ maxPayload) :
      Spells (.payload body) (header body.length ++ body)
  | oversized {body : List UInt8} (hlong : maxPayload < body.length)
      (hsize : body.length < UInt32.size) :
      Spells (.oversized body.length) (header body.length ++ body)

/-- What is left of a stream that ends before its next frame is complete: less than a header, or a
header and fewer bytes than it announces. -/
inductive Ending.Leaves : Ending → List UInt8 → Prop where
  | clean {left : List UInt8} (h : left.length < 4) : Leaves .clean left
  | insidePayload {n : Nat} {body : List UInt8} (hfits : n ≤ maxPayload) (h : body.length < n) :
      Leaves .insidePayload (header n ++ body)
  | insideOversized {n : Nat} {body : List UInt8} (hlong : maxPayload < n)
      (hsize : n < UInt32.size) (h : body.length < n) :
      Leaves .insideOversized (header n ++ body)

/-- The stream begins with a complete frame. -/
def BeginsFrame (stream : List UInt8) : Prop :=
  ∃ (f : Frame) (bytes rest : List UInt8), f.Spells bytes ∧ stream = bytes ++ rest

theorem Frame.Spells.four_le {f : Frame} {bytes : List UInt8} (h : f.Spells bytes) :
    4 ≤ bytes.length := by
  cases h <;> simp

/-- The first frame is read whatever follows it. -/
theorem next_of_spells {f : Frame} {bytes : List UInt8} (h : f.Spells bytes) (rest : List UInt8) :
    next (bytes ++ rest) = .ok (f, rest) := by
  cases h with
  | payload hfits =>
      rw [List.append_assoc, next_header (size_of_le_maxPayload hfits), if_neg (by omega),
        if_neg (by simp), List.take_left, List.drop_left]
  | oversized hlong hsize =>
      rw [List.append_assoc, next_header hsize, if_pos hlong, if_neg (by simp), List.drop_left]

theorem next_of_leaves {e : Ending} {left : List UInt8} (h : e.Leaves left) :
    next left = .error e := by
  cases h with
  | clean h =>
      match left, h with
      | [], _ | [_], _ | [_, _], _ | [_, _, _], _ => rfl
  | insidePayload hfits h =>
      rw [next_header (size_of_le_maxPayload hfits), if_neg (by omega), if_pos h]
  | insideOversized hlong hsize h => rw [next_header hsize, if_pos hlong, if_pos h]

/-- A stream begins with a complete frame or ends before that. -/
theorem beginsFrame_or_leaves (stream : List UInt8) :
    BeginsFrame stream ∨ ∃ e : Ending, e.Leaves stream := by
  obtain hshort | ⟨n, hn, rest, rfl⟩ := header_cases stream
  · exact .inr ⟨.clean, .clean hshort⟩
  · rcases Nat.lt_or_ge rest.length n with hlack | hfull
    · rcases Nat.lt_or_ge maxPayload n with hlong | hfits
      · exact .inr ⟨.insideOversized, .insideOversized hlong hn hlack⟩
      · exact .inr ⟨.insidePayload, .insidePayload hfits hlack⟩
    · -- As many bytes as are announced, and the rest.
      obtain ⟨body, tail, hbody, rfl⟩ : ∃ body tail, body.length = n ∧ rest = body ++ tail :=
        ⟨rest.take n, rest.drop n, List.length_take_of_le hfull,
          (List.take_append_drop n rest).symm⟩
      subst hbody
      rw [← List.append_assoc]
      rcases Nat.lt_or_ge maxPayload body.length with hlong | hfits
      · exact .inl ⟨_, _, tail, .oversized hlong hn, rfl⟩
      · exact .inl ⟨_, _, tail, .payload hfits, rfl⟩

theorem next_eq_ok_iff {stream rest : List UInt8} {f : Frame} :
    next stream = .ok (f, rest) ↔ ∃ bytes, f.Spells bytes ∧ stream = bytes ++ rest := by
  constructor
  · intro h
    obtain ⟨f', bytes, rest', hspells, rfl⟩ | ⟨e, hleaves⟩ := beginsFrame_or_leaves stream
    · rw [next_of_spells hspells] at h
      cases h
      exact ⟨bytes, hspells, rfl⟩
    · rw [next_of_leaves hleaves] at h
      cases h
  · rintro ⟨bytes, hspells, rfl⟩
    exact next_of_spells hspells rest

theorem next_eq_error_iff {stream : List UInt8} {e : Ending} :
    next stream = .error e ↔ e.Leaves stream := by
  refine ⟨fun h => ?_, next_of_leaves⟩
  obtain ⟨f, bytes, rest, hspells, rfl⟩ | ⟨e', hleaves⟩ := beginsFrame_or_leaves stream
  · rw [next_of_spells hspells] at h
    cases h
  · rw [next_of_leaves hleaves] at h
    cases h
    exact hleaves

/-- A stream that ends does not begin with a complete frame. -/
theorem Ending.Leaves.not_beginsFrame {e : Ending} {left : List UInt8} (h : e.Leaves left) :
    ¬BeginsFrame left := by
  rintro ⟨f, bytes, rest, hspells, rfl⟩
  have hnext := next_of_leaves h
  rw [next_of_spells hspells] at hnext
  cases hnext

/-! ## Reading to the end -/

/-- Reading one frame after another until there is none: the frames, what is left and how the stream
ends there. -/
inductive Reads : List UInt8 → List Frame → List UInt8 → Ending → Prop where
  | ended {left : List UInt8} {e : Ending} (h : next left = .error e) : Reads left [] left e
  | frame {stream rest left : List UInt8} {f : Frame} {frames : List Frame} {e : Ending}
      (h : next stream = .ok (f, rest)) (tail : Reads rest frames left e) :
      Reads stream (f :: frames) left e

/-- The stream is the bytes of the frames one after another and what follows them. -/
def Decomposes (stream : List UInt8) (frames : List Frame) (left : List UInt8) : Prop :=
  ∃ parts, List.Forall₂ Frame.Spells frames parts ∧ stream = parts.flatten ++ left

theorem reads_nil : Reads [] [] [] .clean := .ended rfl

theorem decomposes_nil (left : List UInt8) : Decomposes left [] left :=
  ⟨[], .nil, rfl⟩

theorem Decomposes.cons {bytes rest left : List UInt8} {f : Frame} {frames : List Frame}
    (hspells : f.Spells bytes) (h : Decomposes rest frames left) :
    Decomposes (bytes ++ rest) (f :: frames) left := by
  obtain ⟨parts, hparts, rfl⟩ := h
  exact ⟨bytes :: parts, .cons hspells hparts, by simp⟩

theorem readAll_of_ok {stream rest : List UInt8} {f : Frame} (h : next stream = .ok (f, rest)) :
    readAll stream = (f :: (readAll rest).1, (readAll rest).2) := by
  rw [readAll]
  split
  next h' =>
    rw [h] at h'
    cases h'
  next h' =>
    rw [h] at h'
    cases h'
    rfl

theorem readAll_of_error {stream : List UInt8} {e : Ending} (h : next stream = .error e) :
    readAll stream = ([], e) := by
  rw [readAll]
  split
  next h' =>
    rw [h] at h'
    cases h'
    rfl
  next h' =>
    rw [h] at h'
    cases h'

theorem framesOf_of_ok {stream rest : List UInt8} {f : Frame} (h : next stream = .ok (f, rest)) :
    framesOf stream = (f :: (framesOf rest).1, (framesOf rest).2) := by
  rw [framesOf]
  split
  next h' =>
    rw [h] at h'
    cases h'
  next h' =>
    rw [h] at h'
    cases h'
    rfl

theorem framesOf_of_error {stream : List UInt8} {e : Ending} (h : next stream = .error e) :
    framesOf stream = ([], stream) := by
  rw [framesOf]
  split
  next => rfl
  next h' =>
    rw [h] at h'
    cases h'

namespace Reads

variable {stream left : List UInt8} {frames : List Frame} {e : Ending}

theorem readAll_eq (h : Reads stream frames left e) : readAll stream = (frames, e) := by
  induction h with
  | ended h => exact readAll_of_error h
  | frame h _ ih => rw [readAll_of_ok h, ih]

theorem framesOf_eq (h : Reads stream frames left e) : framesOf stream = (frames, left) := by
  induction h with
  | ended h => exact framesOf_of_error h
  | frame h _ ih => rw [framesOf_of_ok h, ih]

theorem leaves (h : Reads stream frames left e) : e.Leaves left := by
  induction h with
  | ended h => exact next_eq_error_iff.mp h
  | frame _ _ ih => exact ih

theorem decomposes (h : Reads stream frames left e) : Decomposes stream frames left := by
  induction h with
  | ended _ => exact decomposes_nil _
  | frame h _ ih =>
      obtain ⟨bytes, hspells, rfl⟩ := next_eq_ok_iff.mp h
      exact ih.cons hspells

/-- Each frame takes its header at least. -/
theorem four_mul_length_le (h : Reads stream frames left e) :
    4 * frames.length + left.length ≤ stream.length := by
  induction h with
  | ended _ => simp
  | frame h _ ih =>
      obtain ⟨bytes, hspells, rfl⟩ := next_eq_ok_iff.mp h
      have hheader := hspells.four_le
      simp only [List.length_cons, List.length_append]
      omega

/-- Reading finds every frame that the stream can be said to begin with. -/
theorem exists_more (h : Reads stream frames left e) {frames' : List Frame}
    {left' : List UInt8} (h' : Decomposes stream frames' left') :
    ∃ more, frames = frames' ++ more ∧ Reads left' more left e := by
  obtain ⟨parts, hparts, rfl⟩ := h'
  induction hparts generalizing frames with
  | nil => exact ⟨frames, rfl, h⟩
  | cons hspells _ ih =>
      rw [List.flatten_cons, List.append_assoc] at h
      have hnext := next_of_spells hspells
      cases h with
      | ended h =>
          rw [hnext] at h
          cases h
      | frame h tail =>
          rw [hnext] at h
          cases h
          obtain ⟨more, rfl, hmore⟩ := ih tail
          exact ⟨more, rfl, hmore⟩

/-- What follows some of the frames ends with what is left after all of them. -/
theorem left_isSuffix (h : Reads stream frames left e) : left <:+ stream := by
  obtain ⟨parts, -, rfl⟩ := h.decomposes
  exact List.suffix_append _ _

end Reads

/-- Reading comes to an end. -/
theorem exists_reads (stream : List UInt8) : ∃ frames left e, Reads stream frames left e := by
  induction hlength : stream.length using Nat.strongRecOn generalizing stream with
  | ind n ih =>
      subst hlength
      cases hnext : next stream with
      | error e => exact ⟨[], stream, e, .ended hnext⟩
      | ok first =>
          obtain ⟨f, rest⟩ := first
          obtain ⟨frames, left, e, htail⟩ := ih rest.length (length_of_next hnext) rest rfl
          exact ⟨f :: frames, left, e, .frame hnext htail⟩

/-- The frames are those that a stream begins with, as many as there are. -/
structure LongestDecomposition (stream : List UInt8) (frames : List Frame) (left : List UInt8) :
    Prop where
  decomposes : Decomposes stream frames left
  stops : ¬BeginsFrame left
  longest {frames' : List Frame} {left' : List UInt8} (h : Decomposes stream frames' left') :
    frames' <+: frames ∧ left <:+ left'
  unique {frames' : List Frame} {left' : List UInt8} (h : Decomposes stream frames' left')
    (hstops : ¬BeginsFrame left') : frames' = frames ∧ left' = left

theorem Reads.longestDecomposition {stream left : List UInt8} {frames : List Frame} {e : Ending}
    (h : Reads stream frames left e) : LongestDecomposition stream frames left where
  decomposes := h.decomposes
  stops := h.leaves.not_beginsFrame
  longest h' := by
    obtain ⟨more, rfl, hmore⟩ := h.exists_more h'
    exact ⟨List.prefix_append _ _, hmore.left_isSuffix⟩
  unique h' hstops := by
    obtain ⟨more, rfl, hmore⟩ := h.exists_more h'
    cases hmore with
    | ended _ => exact ⟨(List.append_nil _).symm, rfl⟩
    | frame hnext _ =>
        obtain ⟨bytes, hspells, rfl⟩ := next_eq_ok_iff.mp hnext
        exact absurd ⟨_, bytes, _, hspells, rfl⟩ hstops

/-- Every stream is read to its end in at most one turn for each four bytes and one more. What comes
out is the one longest decomposition of the stream into complete frames, and how the stream ends
says what kind of incomplete frame is left. -/
theorem reading_finds_longest_decomposition (stream : List UInt8) :
    ∃ frames left ending,
      (∀ frames' left' ending', Reads stream frames' left' ending' ↔
        frames' = frames ∧ left' = left ∧ ending' = ending) ∧
      readAll stream = (frames, ending) ∧ framesOf stream = (frames, left) ∧
      4 * frames.length + left.length ≤ stream.length ∧
      LongestDecomposition stream frames left ∧ ending.Leaves left := by
  obtain ⟨frames, left, ending, h⟩ := exists_reads stream
  refine ⟨frames, left, ending, fun frames' left' ending' => ⟨fun h' => ?_, ?_⟩, h.readAll_eq,
    h.framesOf_eq, h.four_mul_length_le, h.longestDecomposition, h.leaves⟩
  · have hreadAll := h'.readAll_eq
    have hframesOf := h'.framesOf_eq
    rw [h.readAll_eq] at hreadAll
    rw [h.framesOf_eq] at hframesOf
    cases hreadAll
    cases hframesOf
    exact ⟨rfl, rfl, rfl⟩
  · rintro ⟨rfl, rfl, rfl⟩
    exact h

end LinkTuner.Wire
