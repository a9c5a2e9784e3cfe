import LinkTuner.Json.Data
import LinkTuner.Proofs.Json.Reading

/-!
# Data read back from JSON

Each kind of value has a form that is read back as that value: texts, whole numbers in range, finite
doubles as far as the reader of numbers goes, lists, what may be missing, and records whose fields
have different names. Main statement: the fields of a record are found in their order.
-/

namespace LinkTuner.Json

open Decimal (Literal withSign)

/-- A form that is read from its text and that a value is restored from. -/
structure Restores {α : Type} (read : Value → Option α) (v : Value) (a : α) : Prop where
  reads : Reads v
  value : read v = some a

section

variable {α : Type} {read : Value → Option α} {v : Value} {a : α}

/-- A form that restores a value does so from its text. -/
theorem Restores.read? (h : Restores read v a) : (read? v.render.toList).bind read = some a := by
  rw [Value.render, String.toList_ofList, h.reads.read?, Option.bind_some, h.value]

theorem Restores.map {β : Type} (h : Restores read v a) (f : α → β) :
    Restores (fun v => (read v).map f) v (f a) := ⟨h.reads, by rw [h.value, Option.map_some]⟩

end

/-! ## Values without parts -/

theorem restores_text (s : String) : Restores Value.text? (.text s) s := ⟨.text s, rfl⟩

theorem restores_bool (b : Bool) : Restores Value.bool? (.bool b) b := ⟨.bool b, rfl⟩

theorem reads_digits (negative : Bool) (n : ℕ) :
    Reads (.number (String.ofList (withSign negative (Decimal.digits n)))) := by
  have hreads := Reads.number (Literal.proper_integer negative n) .none
  rwa [Literal.mantissa_integer, List.append_nil] at hreads

theorem restores_nat {limit n : ℕ} (h : n < limit) : Restores (Value.nat? limit) (.nat n) n where
  reads := reads_digits false n
  value := by simp [Value.nat, Value.nat?, Decimal.textOfNat, h]

theorem restores_int {limit : ℕ} {n : ℤ} (hlow : -limit ≤ n) (hhigh : n < limit) :
    Restores (Value.int? limit) (.int n) n := by
  rw [Value.int, Decimal.textOfInt]
  split_ifs with hneg
  · refine ⟨reads_digits true n.natAbs, ?_⟩
    have hpositive : 0 < n.natAbs := by omega
    have hle : n.natAbs ≤ limit := by omega
    simp only [Value.int?, String.toList_ofList, Decimal.natural?_digits]
    simp [Option.filter, hpositive, hle, abs_of_neg hneg]
  · refine ⟨reads_digits false n.natAbs, ?_⟩
    have hlt : n.natAbs < limit := by omega
    have hvalue : (n.natAbs : ℤ) = n := by omega
    rw [Decimal.textOfNat, Value.int?, String.toList_ofList]
    split
    · next ds heq =>
        have hdigit : Decimal.isDigit '-' = true :=
          Decimal.isDigit_of_mem_digits (heq ▸ List.mem_cons_self)
        cases hdigit
    · simp [hlt, hvalue]

/-- The double that a literal written with its sign stands for. -/
theorem numberBits?_literal {l : Literal} {tail : List Char} (h : l.Proper)
    (htail : Decimal.ExponentText l.exponent tail)
    (hlt : l.bits % Decimal.signBit < Decimal.infinityBits) :
    numberBits? (withSign l.negative (l.mantissa ++ tail)) = some l.bits := by
  have hliteral := Decimal.literal?_mantissa_append h htail
  unfold numberBits?
  cases hnegative : l.negative with
  | true =>
      rw [hnegative] at hliteral
      simp [withSign, hliteral, hlt.ne]
  | false =>
      rw [hnegative] at hliteral
      obtain ⟨d, ds, hds⟩ := List.exists_cons_of_ne_nil h.whole_ne_nil
      have hd : Decimal.isDigit d = true := h.whole d (hds ▸ List.mem_cons_self)
      rw [withSign, if_neg Bool.false_ne_true]
      split
      · next cs heq =>
          rw [Literal.mantissa, hds] at heq
          rw [(List.cons.inj heq).1] at hd
          cases hd
      · simp [hliteral, hlt.ne]

theorem isFiniteNumber_of_isFinite {x : Float} (h : x.isFinite = true) :
    Value.isFiniteNumber x = true := by
  have hlt := Decimal.lt_infinityBits_of_isFinite h
  rw [Value.isFiniteNumber, Decimal.Binary.ofBits]
  simp only [hlt.not_gt, hlt.ne, if_false]
  split_ifs <;> rfl

theorem float_of_isFinite {x : Float} (h : x.isFinite = true) :
    Value.float x = .number (Decimal.textIn .json x) := by
  rw [Value.float, isFiniteNumber_of_isFinite h, if_pos rfl]

theorem numberBits?_textIn {x : Float} (h : x.isFinite = true) :
    numberBits? (Decimal.textIn .json x).toList = some (Decimal.bitsOf x) := by
  obtain ⟨l, tail, htext, hproper, htail, hbits, -⟩ :=
    Decimal.exists_literal_textIn Decimal.Style.legible_json h
  have hlt := Decimal.lt_infinityBits_of_isFinite h
  rw [← hbits] at hlt
  rw [htext, numberBits?_literal hproper htail hlt, hbits]

/-- Every finite double is read back from the text that is written for it. -/
def ReadsPrinted [NumberReader] : Prop :=
  ∀ x : Float, x.isFinite = true →
    NumberReader.double? (Decimal.textIn .json x).toList = some x

/-- The nearest double is the one that was written. -/
theorem readsPrinted_nearest : ReadsPrinted := by
  intro x h
  simp only [NumberReader.double?, numberBits?_textIn h, Option.map_some, Decimal.ofBits_bitsOf]

theorem restores_float [NumberReader] (hnumbers : ReadsPrinted) {x : Float}
    (h : x.isFinite = true) : Restores Value.float? (.float x) x := by
  rw [float_of_isFinite h]
  constructor
  · obtain ⟨l, tail, htext, hproper, htail, -⟩ :=
      Decimal.exists_literal_textIn Decimal.Style.legible_json h
    rw [← String.ofList_toList (s := Decimal.textIn .json x), htext]
    exact Reads.number hproper htail
  · rw [Value.float?, hnumbers x h]

/-! ## Lists and values that may be missing -/

theorem restores_list {α : Type} {read : Value → Option α} {write : α → Value} {xs : List α}
    (h : ∀ x ∈ xs, Restores read (write x) x) :
    Restores (Value.list? read) (.array (xs.map write)) xs where
  reads := by
    refine Reads.array fun v hv => ?_
    obtain ⟨x, hx, rfl⟩ := List.mem_map.mp hv
    exact (h x hx).reads
  value := by
    rw [Value.list?]
    induction xs with
    | nil => rfl
    | cons x xs ih =>
        have ih := ih fun y hy => h y (List.mem_cons_of_mem _ hy)
        simp only [List.map_cons, List.mapM_cons, (h x List.mem_cons_self).value, ih, bind, pure,
          Option.bind_some]

theorem restores_optional {α : Type} {read : Value → Option α} {write : α → Value} {o : Option α}
    (h : ∀ a ∈ o, Restores read (write a) a ∧ write a ≠ .null) :
    Restores (Value.optional? read) (.optional write o) o := by
  cases o with
  | none => exact ⟨.null, rfl⟩
  | some a =>
      obtain ⟨hrestores, hnull⟩ := h a rfl
      refine ⟨hrestores.reads, ?_⟩
      rw [Value.optional, Value.optional?, hrestores.value, Option.map_some]
      exact hnull

/-! ## Records -/

/-- A name that is nowhere else finds its own member. -/
theorem only?_record {ms : List (String × Value)} (hnodup : (ms.map Prod.fst).Nodup)
    {m : String × Value} (hm : m ∈ ms) :
    only? m.1 (ms.map fun (k, v) => (some k, v)) = some (some m.2) := by
  have hfilter : (ms.map fun (k, v) => (some k, v)).filter (fun n => n.1 == some m.1) =
      [(some m.1, m.2)] := by
    induction ms with
    | nil => cases hm
    | cons n ns ih =>
        rw [List.map_cons, List.nodup_cons] at hnodup
        obtain rfl | hm := List.mem_cons.mp hm
        · have hnone : (ns.map fun (k, v) => (some k, v)).filter (fun n => n.1 == some m.1) = [] := by
            rw [List.filter_eq_nil_iff]
            rintro _ hmem heq
            obtain ⟨n, hn, rfl⟩ := List.mem_map.mp hmem
            obtain heq : n.1 = m.1 := by simpa using heq
            exact hnodup.1 (heq ▸ List.mem_map_of_mem hn)
          simp [hnone]
        · have hne : n.1 ≠ m.1 := fun heq => hnodup.1 (heq ▸ List.mem_map_of_mem hm)
          simpa [hne] using ih hnodup.2 hm
  rw [only?, hfilter]

/-- The fields of a record are found in their order. -/
theorem fields?_record {ms : List (String × Value)} {names : List String}
    (hnames : ms.map Prod.fst = names) (hnodup : names.Nodup) :
    (Value.record ms).fields? names = some ⟨false, ms.map fun m => some m.2⟩ := by
  subst hnames
  have hfound (ns : List (String × Value)) (h : ns ⊆ ms) :
      (ns.map Prod.fst).mapM (only? · (ms.map fun (k, v) => (some k, v))) =
        some (ns.map fun m => some m.2) := by
    induction ns with
    | nil => rfl
    | cons n ns ih =>
        have ih := ih fun m hm => h (List.mem_cons_of_mem _ hm)
        simp only [List.map_cons, List.mapM_cons, only?_record hnodup (h List.mem_cons_self), ih,
          bind, pure, Option.bind_some]
  rw [Value.record, Value.fields?, if_pos, hfound ms (List.Subset.refl ms), Option.map_some]
  simp

/-- A record restores what is read from its fields. -/
theorem restores_record {α : Type} {read : Fields → Option α} {ms : List (String × Value)}
    {names : List String} {a : α} (hnames : ms.map Prod.fst = names) (hnodup : names.Nodup)
    (hms : ∀ m ∈ ms, Reads m.2) (h : read ⟨false, ms.map fun m => some m.2⟩ = some a) :
    Restores (fun v => v.fields? names >>= read) (.record ms) a where
  reads := Reads.record hms
  value := by
    rw [fields?_record hnames hnodup]
    exact h

end LinkTuner.Json
