import LinkTuner.Proofs.Json.Tokens

/-!
# Values read back from their compact text

A value is read back from its text whatever closes it: an array or an object is when its elements
are. Main statement: for such a value, reading its text alone gives the value.
-/

namespace LinkTuner.Json

open Decimal (isDigit withSign Literal ExponentText)

/-- A value whose text is read up to its end and begins neither with white space nor like the end of
an array. -/
structure Reads (v : Value) : Prop where
  head : ∃ c cs, render v = c :: cs ∧ isSpace c = false ∧ c ≠ ']'
  append : ∀ {fuel : ℕ} {rest : List Char}, Closes rest → (render v).length ≤ fuel →
    readValue (fuel + 1) (render v ++ rest) = some (v, rest)

theorem skip_cons {c : Char} (h : isSpace c = false) (cs : List Char) :
    skip (c :: cs) = c :: cs := by
  simp [skip, h]

theorem takeWord_append (word rest : List Char) : takeWord word (word ++ rest) = some rest := by
  simp [takeWord]

/-! ## Values without parts -/

theorem Reads.null : Reads .null where
  head := ⟨'n', _, rfl, rfl, by decide⟩
  append {fuel rest} _ _ := by
    have hword := takeWord_append "ull".toList rest
    rw [render, show "null".toList = 'n' :: "ull".toList from rfl, List.cons_append, readValue,
      skip_cons rfl]
    simp only [hword, Option.map_some]

theorem Reads.bool (b : Bool) : Reads (.bool b) := by
  cases b with
  | true =>
      refine ⟨⟨'t', _, rfl, rfl, by decide⟩, fun {fuel rest} _ _ => ?_⟩
      have hword := takeWord_append "rue".toList rest
      rw [render, show "true".toList = 't' :: "rue".toList from rfl, List.cons_append, readValue,
        skip_cons rfl]
      simp only [hword, Option.map_some]
  | false =>
      refine ⟨⟨'f', _, rfl, rfl, by decide⟩, fun {fuel rest} _ _ => ?_⟩
      have hword := takeWord_append "alse".toList rest
      rw [render, show "false".toList = 'f' :: "alse".toList from rfl, List.cons_append, readValue,
        skip_cons rfl]
      simp only [hword, Option.map_some]

theorem stringText_append (s : String) (rest : List Char) :
    stringText (some s) ++ rest = '"' :: (s.toList.flatMap escapeChar ++ '"' :: rest) := by
  simp [stringText]

theorem Reads.text (s : String) : Reads (.text s) where
  head := ⟨'"', _, by rw [Value.text, render, stringText]; rfl, rfl, by decide⟩
  append {fuel rest} _ _ := by
    rw [Value.text, render, stringText_append, readValue, skip_cons rfl]
    simp only [readString_append, Option.map_some]

/-- Nothing else begins with a sign or a digit. -/
theorem readValue_of_takeNumber {fuel : ℕ} {c : Char} {cs text rest : List Char}
    (hc : c = '-' ∨ isDigit c = true) (h : takeNumber (c :: cs) = some (text, rest)) :
    readValue (fuel + 1) (c :: cs) = some (.number (String.ofList text), rest) := by
  have hother (d : Char) (hd : ¬(d = '-' ∨ isDigit d = true)) : c ≠ d := fun heq => hd (heq ▸ hc)
  have hspace : isSpace c = false := by
    simp [isSpace, hother ' ' (by decide), hother '\t' (by decide), hother '\n' (by decide),
      hother '\r' (by decide)]
  rw [readValue, skip_cons hspace]
  split
  · exact absurd (List.cons.inj ‹_›).1 (hother '"' (by decide))
  · exact absurd (List.cons.inj ‹_›).1 (hother '[' (by decide))
  · exact absurd (List.cons.inj ‹_›).1 (hother '\x7b' (by decide))
  · exact absurd (List.cons.inj ‹_›).1 (hother 'n' (by decide))
  · exact absurd (List.cons.inj ‹_›).1 (hother 't' (by decide))
  · exact absurd (List.cons.inj ‹_›).1 (hother 'f' (by decide))
  · rw [h, Option.map_some]

theorem Reads.number {l : Literal} {tail : List Char} (h : l.Proper)
    (htail : ExponentText l.exponent tail) :
    Reads (.number (String.ofList (withSign l.negative (l.mantissa ++ tail)))) := by
  obtain ⟨d, ds, hds⟩ := List.exists_cons_of_ne_nil h.whole_ne_nil
  have hd : isDigit d = true := h.whole d (hds ▸ List.mem_cons_self)
  have hhead : ∃ c cs, withSign l.negative (l.mantissa ++ tail) = c :: cs ∧
      (c = '-' ∨ isDigit c = true) := by
    cases l.negative with
    | true => exact ⟨'-', _, rfl, .inl rfl⟩
    | false =>
        refine ⟨d, ds ++ ((if l.fraction = [] then [] else '.' :: l.fraction) ++ tail), ?_, .inr hd⟩
        simp [withSign, Literal.mantissa, hds]
  obtain ⟨c, cs, htext, hc⟩ := hhead
  have hother (e : Char) (he : ¬(e = '-' ∨ isDigit e = true)) : c ≠ e := fun heq => he (heq ▸ hc)
  constructor
  · refine ⟨c, cs, by rw [render, String.toList_ofList, htext], ?_, hother ']' (by decide)⟩
    simp [isSpace, hother ' ' (by decide), hother '\t' (by decide), hother '\n' (by decide),
      hother '\r' (by decide)]
  · intro fuel rest hrest _
    have hnumber := takeNumber_append h htail hrest
    rw [render, String.toList_ofList]
    rw [htext, List.cons_append] at hnumber ⊢
    exact readValue_of_takeNumber hc hnumber

/-! ## Arrays and objects -/

section

variable {fuel : ℕ} {k : String} {v : Value} {cs cs' rest : List Char}

theorem readElements_close (hv : readValue fuel cs = some (v, ']' :: rest)) :
    readElements (fuel + 1) cs = some ([v], rest) := by
  simp only [readElements, hv, bind, Option.bind_some, skip_cons (show isSpace ']' = false from rfl)]
  rfl

theorem readElements_comma {vs : List Value} (hv : readValue fuel cs = some (v, ',' :: cs'))
    (hvs : readElements fuel cs' = some (vs, rest)) :
    readElements (fuel + 1) cs = some (v :: vs, rest) := by
  simp only [readElements, hv, hvs, bind, Option.bind_some,
    skip_cons (show isSpace ',' = false from rfl)]
  rfl

theorem readMembers_close (hv : readValue fuel cs = some (v, '\x7d' :: rest)) :
    readMembers (fuel + 1) (stringText (some k) ++ ':' :: cs) = some ([(some k, v)], rest) := by
  rw [stringText_append, readMembers, skip_cons rfl]
  simp only [readString_append, hv, bind, Option.bind_some,
    skip_cons (show isSpace ':' = false from rfl), skip_cons (show isSpace '\x7d' = false from rfl)]
  rfl

theorem readMembers_comma {ms : List (Option String × Value)}
    (hv : readValue fuel cs = some (v, ',' :: cs'))
    (hms : readMembers fuel cs' = some (ms, rest)) :
    readMembers (fuel + 1) (stringText (some k) ++ ':' :: cs) = some ((some k, v) :: ms, rest) := by
  rw [stringText_append, readMembers, skip_cons rfl]
  simp only [readString_append, hv, hms, bind, Option.bind_some,
    skip_cons (show isSpace ':' = false from rfl), skip_cons (show isSpace ',' = false from rfl)]
  rfl

/-- Elements are read up to the bracket that closes them. -/
theorem readElements_append {vs : List Value} (h : ∀ v ∈ vs, Reads v) (hne : vs ≠ [])
    (hfuel : (renderElements vs).length < fuel) :
    readElements (fuel + 1) (renderElements vs ++ ']' :: rest) = some (vs, rest) := by
  induction vs generalizing fuel with
  | nil => exact absurd rfl hne
  | cons v vs ih =>
      obtain ⟨fuel, rfl⟩ := Nat.exists_eq_add_one_of_ne_zero (Nat.ne_zero_of_lt hfuel)
      have hv := h v List.mem_cons_self
      cases vs with
      | nil =>
          rw [renderElements] at hfuel ⊢
          exact readElements_close (hv.append (closes_cons (by simp) rest) (by omega))
      | cons w ws =>
          rw [renderElements, List.length_append, List.length_cons] at hfuel
          have hws := @ih fuel (fun v hv => h v (List.mem_cons_of_mem _ hv)) (by simp) (by omega)
          rw [renderElements, List.append_assoc, List.cons_append]
          exact readElements_comma (hv.append (closes_cons (by simp) _) (by omega)) hws

/-- Members are read up to the brace that closes them. -/
theorem readMembers_append {ms : List (Option String × Value)}
    (h : ∀ m ∈ ms, m.1.isSome = true ∧ Reads m.2) (hne : ms ≠ [])
    (hfuel : (renderMembers ms).length < fuel) :
    readMembers (fuel + 1) (renderMembers ms ++ '\x7d' :: rest) = some (ms, rest) := by
  induction ms generalizing fuel with
  | nil => exact absurd rfl hne
  | cons m ms ih =>
      obtain ⟨fuel, rfl⟩ := Nat.exists_eq_add_one_of_ne_zero (Nat.ne_zero_of_lt hfuel)
      obtain ⟨name, v⟩ := m
      obtain ⟨hname, hv⟩ : name.isSome = true ∧ Reads v := h (name, v) List.mem_cons_self
      obtain ⟨k, rfl⟩ := Option.isSome_iff_exists.mp hname
      cases ms with
      | nil =>
          rw [renderMembers, List.length_append, List.length_cons] at hfuel
          rw [renderMembers, List.append_assoc, List.cons_append]
          exact readMembers_close (hv.append (closes_cons (by simp) rest) (by omega))
      | cons m ms =>
          simp only [renderMembers, List.length_append, List.length_cons] at hfuel
          have hms := @ih fuel (fun m hm => h m (List.mem_cons_of_mem _ hm)) (by simp) (by omega)
          simp only [renderMembers, List.append_assoc, List.cons_append]
          exact readMembers_comma (hv.append (closes_cons (by simp) _) (by omega)) hms

end

/-- What elements begin with. -/
theorem head_renderElements {v : Value} (h : Reads v) (vs : List Value) :
    ∃ c cs, renderElements (v :: vs) = c :: cs ∧ isSpace c = false ∧ c ≠ ']' := by
  obtain ⟨c, cs, htext, hspace, hc⟩ := h.head
  cases vs with
  | nil => exact ⟨c, cs, htext, hspace, hc⟩
  | cons w ws =>
      exact ⟨c, cs ++ ',' :: renderElements (w :: ws), by rw [renderElements, htext]; rfl, hspace, hc⟩

theorem Reads.array {vs : List Value} (h : ∀ v ∈ vs, Reads v) : Reads (.array vs) where
  head := ⟨'[', _, by rw [render]; rfl, rfl, by decide⟩
  append {fuel rest} _ hfuel := by
    simp only [render, List.length_append, List.length_cons, List.length_nil] at hfuel
    rw [render, List.append_assoc, List.singleton_append, List.cons_append, readValue, skip_cons rfl]
    cases vs with
    | nil => simp [renderElements, skip_cons (show isSpace ']' = false from rfl)]
    | cons v vs =>
        obtain ⟨fuel, rfl⟩ := Nat.exists_eq_add_one_of_ne_zero (Nat.ne_zero_of_lt hfuel)
        have helements : readElements (fuel + 1) (renderElements (v :: vs) ++ ']' :: rest) =
            some (v :: vs, rest) := readElements_append h (by simp) (by omega)
        obtain ⟨c, cs, htext, hspace, hc⟩ := head_renderElements (h v List.mem_cons_self) vs
        rw [htext, List.cons_append] at helements ⊢
        simp only [skip_cons hspace]
        split
        · exact absurd (List.cons.inj ‹_›).1 hc
        · rw [helements, Option.map_some]

/-- What members begin with. -/
theorem head_renderMembers (m : Option String × Value) (ms : List (Option String × Value)) :
    ∃ cs, renderMembers (m :: ms) = '"' :: cs := by
  obtain ⟨k, v⟩ := m
  cases ms with
  | nil => exact ⟨_, rfl⟩
  | cons m ms => exact ⟨_, rfl⟩

theorem Reads.object {ms : List (Option String × Value)}
    (h : ∀ m ∈ ms, m.1.isSome = true ∧ Reads m.2) : Reads (.object ms) where
  head := ⟨'\x7b', _, by rw [render]; rfl, rfl, by decide⟩
  append {fuel rest} _ hfuel := by
    simp only [render, List.length_append, List.length_cons, List.length_nil] at hfuel
    rw [render, List.append_assoc, List.singleton_append, List.cons_append, readValue, skip_cons rfl]
    cases ms with
    | nil => simp [renderMembers, skip_cons (show isSpace '\x7d' = false from rfl)]
    | cons m ms =>
        obtain ⟨fuel, rfl⟩ := Nat.exists_eq_add_one_of_ne_zero (Nat.ne_zero_of_lt hfuel)
        have hmembers : readMembers (fuel + 1) (renderMembers (m :: ms) ++ '\x7d' :: rest) =
            some (m :: ms, rest) := readMembers_append h (by simp) (by omega)
        obtain ⟨cs, htext⟩ := head_renderMembers m ms
        rw [htext, List.cons_append] at hmembers ⊢
        simp only [skip_cons (show isSpace '"' = false from rfl)]
        split
        · exact absurd (List.cons.inj ‹_›).1 (by decide)
        · rw [hmembers, Option.map_some]

theorem Reads.record {ms : List (String × Value)} (h : ∀ m ∈ ms, Reads m.2) :
    Reads (.record ms) := by
  refine Reads.object fun m hm => ?_
  obtain ⟨named, hnamed, rfl⟩ := List.mem_map.mp hm
  exact ⟨rfl, h named hnamed⟩

/-! ## Whole texts -/

/-- A value is read from its text alone. -/
theorem Reads.read? {v : Value} (h : Reads v) : read? (render v) = some v := by
  have happend : readValue (2 * (render v).length + 1 + 1) (render v ++ []) = some (v, []) :=
    h.append (by simp [Closes]) (by omega)
  rw [List.append_nil] at happend
  rw [Json.read?, happend]
  rfl

end LinkTuner.Json
