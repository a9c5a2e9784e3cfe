import LinkTuner.Proofs.Json.Restoring

/-!
# The JSON forms restore the data

All data whose doubles are finite are restored from the text of their JSON form, by any reader of
numbers that reads back the doubles that are written. What may be missing is restored as missing,
and a strategy is restored by its kind.
-/

namespace LinkTuner

open Json (NumberReader ReadsPrinted Restores Value)

/-- Whether all of some doubles are finite. -/
def AllFinite (xs : List Float) : Prop := ∀ x ∈ xs, x.isFinite = true

instance (xs : List Float) : Decidable (AllFinite xs) :=
  inferInstanceAs (Decidable (∀ x ∈ xs, x.isFinite = true))

theorem AllFinite.left {xs ys : List Float} (h : AllFinite (xs ++ ys)) : AllFinite xs :=
  fun x hx => h x (List.mem_append_left _ hx)

theorem AllFinite.right {xs ys : List Float} (h : AllFinite (xs ++ ys)) : AllFinite ys :=
  fun x hx => h x (List.mem_append_right _ hx)

/-! ## The doubles of data -/

/-- The doubles of weights. -/
def Weights.floats (w : Weights Float) : List Float := [w.alpha, w.beta, w.reference]

/-- The doubles of an outcome. -/
def Outcome.floats (o : Outcome Float) : List Float := o.delivery.toList ++ o.energy.toList

/-- The doubles of a reward. -/
def Reward.floats (r : Reward Float) : List Float := [r.value, r.delivery, r.energy]

/-- The doubles of a sample. -/
def Sample.floats (s : Sample Float) : List Float := s.outcome.floats ++ s.reward.floats

/-- The doubles of a snapshot. -/
def Snapshot.floats (s : Snapshot Float) : List Float := s.weights ++ s.probabilities

/-- The doubles of a strategy. -/
def Strategy.floats : Strategy Float → List Float
  | .exponential gamma low high => gamma :: (low.toList ++ high.toList)
  | .greedy epsilon step => epsilon :: step.toList

/-- The doubles of a configuration. -/
def Config.floats (c : Config) : List Float := c.weights.floats ++ c.strategy.floats

/-! ## Parts of records -/

section

open Json

theorem restores_device (id : DeviceId) : Restores DeviceId.ofJson? id.toJson id :=
  (restores_text id.text).map DeviceId.mk

theorem restores_action (a : ActionId) : Restores ActionId.ofJson? a.toJson a := by
  have h := (restores_nat a.index.toNat_lt_size).map ActionId.ofNat
  rwa [ActionId.ofNat, UInt32.ofNat_toNat] at h

theorem restores_word (n : UInt64) : Restores Value.word? (.word n) n := by
  have h := (restores_nat n.toNat_lt_size).map UInt64.ofNat
  rwa [UInt64.ofNat_toNat] at h

theorem restores_byte (n : UInt8) : Restores Value.byte? (.nat n.toNat) n := by
  have h := (restores_nat n.toNat_lt_size).map UInt8.ofNat
  rwa [UInt8.ofNat_toNat] at h

theorem restores_signedByte (n : Int8) : Restores Value.signedByte? (.int n.toInt) n := by
  have h := (restores_int n.le_toInt n.toInt_lt).map Int8.ofInt
  rwa [Int8.ofInt_toInt] at h

theorem restores_optionalWord (o : Option UInt64) :
    Restores (Value.optional? Value.word?) (.optional .word o) o :=
  restores_optional fun n _ => ⟨restores_word n, by simp [Value.word, Value.nat]⟩

theorem restores_optionalAction (o : Option ActionId) :
    Restores (Value.optional? ActionId.ofJson?) (.optional ActionId.toJson o) o :=
  restores_optional fun a _ => ⟨restores_action a, by simp [ActionId.toJson, Value.nat]⟩

variable [NumberReader] (hnumbers : ReadsPrinted)

include hnumbers

theorem restores_optionalFloat {o : Option Float} (h : AllFinite o.toList) :
    Restores (Value.optional? Value.float?) (.optional .float o) o := by
  refine restores_optional fun x hx => ?_
  have hx : x.isFinite = true := h x (Option.mem_toList.mpr hx)
  exact ⟨restores_float hnumbers hx, by simp [float_of_isFinite hx]⟩

theorem restores_floats {xs : List Float} (h : AllFinite xs) :
    Restores (Value.list? Value.float?) (.array (xs.map .float)) xs :=
  restores_list fun x hx => restores_float hnumbers (h x hx)

end

/-! ## Records -/

section

open Json

theorem Wire.Decision.restores (d : Wire.Decision) :
    Restores Wire.Decision.ofJson? d.toJson d := by
  have hdevice := restores_device d.device
  have haction := restores_action d.action
  have hsequence := restores_optionalWord d.sequence
  refine restores_record rfl (by decide)
    (by simp [hdevice.reads, haction.reads, hsequence.reads]) ?_
  simp [Fields.required, Fields.optional, Fields.entry, hdevice.value, haction.value,
    hsequence.value]

variable [NumberReader] (hnumbers : ReadsPrinted)

include hnumbers

theorem Weights.restores {w : Weights Float} (h : AllFinite w.floats) :
    Restores Weights.ofJson? w.toJson w := by
  have halpha := restores_float hnumbers (h w.alpha (by simp [floats]))
  have hbeta := restores_float hnumbers (h w.beta (by simp [floats]))
  have hreference := restores_float hnumbers (h w.reference (by simp [floats]))
  refine restores_record rfl (by decide)
    (by simp [halpha.reads, hbeta.reads, hreference.reads]) ?_
  simp [Fields.required, Fields.entry, halpha.value, hbeta.value, hreference.value]

theorem Outcome.restores {o : Outcome Float} (h : AllFinite o.floats) :
    Restores Outcome.ofJson? o.toJson o := by
  have hdelivery := restores_optionalFloat hnumbers h.left
  have henergy := restores_optionalFloat hnumbers h.right
  refine restores_record rfl (by decide) (by simp [hdelivery.reads, henergy.reads]) ?_
  simp [Fields.optional, Fields.entry, hdelivery.value, henergy.value]

theorem Reward.restores {r : Reward Float} (h : AllFinite r.floats) :
    Restores Reward.ofJson? r.toJson r := by
  have hvalue := restores_float hnumbers (h r.value (by simp [floats]))
  have hdelivery := restores_float hnumbers (h r.delivery (by simp [floats]))
  have henergy := restores_float hnumbers (h r.energy (by simp [floats]))
  have hneutral := restores_bool r.neutral
  refine restores_record rfl (by decide)
    (by simp [hvalue.reads, hdelivery.reads, henergy.reads, hneutral.reads]) ?_
  simp [Fields.required, Fields.withDefault, Fields.entry, hvalue.value, hdelivery.value,
    henergy.value, hneutral.value]

theorem Sample.restores {s : Sample Float} (h : AllFinite s.floats) :
    Restores Sample.ofJson? s.toJson s := by
  have hdevice := restores_device s.device
  have houtcome := Outcome.restores hnumbers h.left
  have hreward := Reward.restores hnumbers h.right
  have hneutral := restores_bool s.neutral
  refine restores_record rfl (by decide)
    (by simp [hdevice.reads, houtcome.reads, hreward.reads, hneutral.reads]) ?_
  simp [Fields.required, Fields.entry, hdevice.value, houtcome.value, hreward.value, hneutral.value]

theorem Snapshot.restores {s : Snapshot Float} (h : AllFinite s.floats)
    (hupdates : s.updates < UInt64.size) : Restores Snapshot.ofJson? s.toJson s := by
  have hstrategy := restores_text s.strategy
  have hweights := restores_floats hnumbers h.left
  have hprobabilities := restores_floats hnumbers h.right
  have hupdates := restores_nat hupdates
  refine restores_record rfl (by decide)
    (by simp [hstrategy.reads, hweights.reads, hprobabilities.reads, hupdates.reads]) ?_
  simp [Fields.required, Fields.entry, hstrategy.value, hweights.value, hprobabilities.value,
    hupdates.value]

theorem Wire.Observation.restores {o : Wire.Observation} (h : AllFinite o.outcome.floats) :
    Restores Wire.Observation.ofJson? o.toJson o := by
  have hdevice := restores_device o.device
  have hprevious := restores_optionalAction o.previous
  have houtcome := Outcome.restores hnumbers h
  have hsequence := restores_optionalWord o.sequence
  refine restores_record rfl (by decide)
    (by simp [hdevice.reads, hprevious.reads, houtcome.reads, hsequence.reads]) ?_
  simp [Fields.required, Fields.optional, Fields.entry, hdevice.value, hprevious.value,
    houtcome.value, hsequence.value]

/-! ## Strategies -/

omit hnumbers in
/-- Members with names can be read when their values can. -/
theorem membersReadable_named {depth : ℕ} {ms : List (String × Value)}
    (h : ∀ m ∈ ms, m.2.isReadable depth = true) :
    membersReadable depth (ms.map fun (k, v) => (some k, v)) = true := by
  induction ms with
  | nil => rfl
  | cons m ms ih =>
      have ih := ih fun n hn => h n (List.mem_cons_of_mem _ hn)
      simp [membersReadable, h m List.mem_cons_self, ih]

theorem isReadable_float {x : Float} (h : x.isFinite = true) (depth : ℕ) :
    (Value.float x).isReadable depth = true := by
  rw [float_of_isFinite h, Value.isReadable, hnumbers x h]
  rfl

theorem isReadable_optionalFloat {o : Option Float} (h : AllFinite o.toList) (depth : ℕ) :
    (Value.optional .float o).isReadable depth = true := by
  cases o with
  | none => rfl
  | some x => exact isReadable_float hnumbers (h x (by simp)) depth

omit hnumbers in
/-- The kind of a strategy stands before its parameters and decides how they are read. -/
theorem restores_kind {kind : String} {ms : List (String × Value)} {names : List String}
    {read : Fields → Option (Strategy Float)} {s : Strategy Float} {depth : ℕ}
    (hkind : ∀ v, Strategy.parameters? (.text kind) v = v.fields? names >>= read)
    (hnames : ms.map Prod.fst = names) (hnodup : ("kind" :: names).Nodup)
    (hms : ∀ m ∈ ms, Reads m.2) (hreadable : ∀ m ∈ ms, m.2.isReadable depth = true)
    (h : read ⟨false, ms.map fun m => some m.2⟩ = some s) :
    Restores (Strategy.ofJson? (depth + 1)) (.record (("kind", .text kind) :: ms)) s where
  reads := Reads.record (by simpa [Reads.text] using hms)
  value := by
    have htext : (Value.text kind).isReadable depth = true := rfl
    have hreads : (Value.record (("kind", .text kind) :: ms)).isReadable (depth + 1) = true := by
      rw [Value.record, Value.isReadable, membersReadable_named]
      simpa [htext] using hreadable
    have hmem : ("kind", Value.text kind) ∈ ("kind", .text kind) :: ms := List.mem_cons_self
    have honly : only? "kind" ((("kind", Value.text kind) :: ms).map fun (k, v) => (some k, v)) =
        some (some (.text kind)) := only?_record (by rwa [List.map_cons, hnames]) hmem
    have hrest : ((("kind", Value.text kind) :: ms).map fun (k, v) => (some k, v)).filter
        (fun m => m.1 != some "kind") = ms.map fun (k, v) => (some k, v) := by
      rw [List.map_cons, List.filter_cons_of_neg (by simp), List.filter_eq_self]
      intro m hm
      obtain ⟨n, hn, rfl⟩ := List.mem_map.mp hm
      have hne : n.1 ≠ "kind" := fun heq =>
        (List.nodup_cons.mp hnodup).1 (heq ▸ hnames ▸ List.mem_map_of_mem hn)
      simp [hne]
    unfold Strategy.ofJson?
    rw [if_pos hreads]
    simp only [Value.record, honly, hrest, bind, Option.bind_some]
    exact (hkind _).trans ((restores_record hnames (List.nodup_cons.mp hnodup).2 hms h).value)

/-- The form of a strategy can be read as a whole, whatever its kind. -/
theorem Strategy.restores {s : Strategy Float} (h : AllFinite s.floats) {depth : ℕ} :
    Restores (Strategy.ofJson? (depth + 1)) s.toJson s := by
  cases s with
  | exponential gamma low high =>
      have hgamma : gamma.isFinite = true := h gamma List.mem_cons_self
      have hbounds : AllFinite (low.toList ++ high.toList) :=
        fun x hx => h x (List.mem_cons_of_mem _ hx)
      have hparameter := restores_float hnumbers hgamma
      have hlow := restores_optionalFloat hnumbers hbounds.left
      have hhigh := restores_optionalFloat hnumbers hbounds.right
      refine restores_kind (fun v => rfl) rfl (by decide) ?_ ?_ ?_
      · simp [hparameter.reads, hlow.reads, hhigh.reads]
      · simp [isReadable_float hnumbers hgamma, isReadable_optionalFloat hnumbers hbounds.left,
          isReadable_optionalFloat hnumbers hbounds.right]
      · simp [Fields.withDefault, Fields.entry, hparameter.value, hlow.value, hhigh.value]
  | greedy epsilon step =>
      have hepsilon : epsilon.isFinite = true := h epsilon List.mem_cons_self
      have hstep : AllFinite step.toList := fun x hx => h x (List.mem_cons_of_mem _ hx)
      have hparameter := restores_float hnumbers hepsilon
      have hsize := restores_optionalFloat hnumbers hstep
      refine restores_kind (fun v => rfl) rfl (by decide) ?_ ?_ ?_
      · simp [hparameter.reads, hsize.reads]
      · simp [isReadable_float hnumbers hepsilon, isReadable_optionalFloat hnumbers hstep]
      · simp [Fields.withDefault, Fields.entry, hparameter.value, hsize.value]

/-! ## Configurations -/

theorem Config.restores {c : Config} (h : AllFinite c.floats) :
    Restores Config.ofJson? c.toJson c := by
  have hlisten := restores_text c.listenAddress
  have hfactors := restores_list fun n (_ : n ∈ c.factors) => restores_byte n
  have hpowers := restores_list fun n (_ : n ∈ c.powers) => restores_signedByte n
  have harms := restores_optionalWord c.arms
  have htimeout := restores_word c.timeout
  have hdevices := restores_word c.maxDevices
  have hhistory := restores_word c.historyLength
  have hinterval := restores_word c.statusInterval
  have hseed := restores_optionalWord c.seed
  have hlog := restores_text c.logLevel
  have hweights := Weights.restores hnumbers h.left
  have hstrategy : Restores (Strategy.ofJson? (Json.maxDepth - 1)) c.strategy.toJson c.strategy :=
    Strategy.restores hnumbers h.right
  refine restores_record rfl (by decide +kernel) ?_ ?_
  · simp [hlisten.reads, hfactors.reads, hpowers.reads, harms.reads, htimeout.reads,
      hdevices.reads, hhistory.reads, hinterval.reads, hseed.reads, hlog.reads, hweights.reads,
      hstrategy.reads]
  · simp [Fields.withDefault, Fields.entry, hlisten.value, hfactors.value, hpowers.value, harms.value,
      htimeout.value, hdevices.value, hhistory.value, hinterval.value, hseed.value, hlog.value,
      hweights.value, hstrategy.value]

end

section

open Json

/-- Data with finite doubles, any texts and any whole numbers in range are read back as they were
from the text of their JSON form, by any reader of numbers that reads back every finite double from
the text that is written for it. -/
theorem data_read_back_from_json [NumberReader] (hnumbers : ReadsPrinted) :
    (∀ o : Wire.Observation, AllFinite o.outcome.floats →
      (read? o.toJson.render.toList).bind Wire.Observation.ofJson? = some o) ∧
    (∀ d : Wire.Decision, (read? d.toJson.render.toList).bind Wire.Decision.ofJson? = some d) ∧
    (∀ s : Sample Float, AllFinite s.floats →
      (read? s.toJson.render.toList).bind Sample.ofJson? = some s) ∧
    (∀ r : Reward Float, AllFinite r.floats →
      (read? r.toJson.render.toList).bind Reward.ofJson? = some r) ∧
    (∀ w : Weights Float, AllFinite w.floats →
      (read? w.toJson.render.toList).bind Weights.ofJson? = some w) ∧
    (∀ o : Outcome Float, AllFinite o.floats →
      (read? o.toJson.render.toList).bind Outcome.ofJson? = some o) ∧
    (∀ s : Snapshot Float, AllFinite s.floats → s.updates < UInt64.size →
      (read? s.toJson.render.toList).bind Snapshot.ofJson? = some s) ∧
    (∀ s : Strategy Float, AllFinite s.floats →
      (read? s.toJson.render.toList).bind (Strategy.ofJson? maxDepth) = some s) ∧
    (∀ c : Config, AllFinite c.floats →
      (read? c.toJson.render.toList).bind Config.ofJson? = some c) :=
  ⟨fun _ h => (Wire.Observation.restores hnumbers h).read?,
    fun d => (Wire.Decision.restores d).read?, fun _ h => (Sample.restores hnumbers h).read?,
    fun _ h => (Reward.restores hnumbers h).read?, fun _ h => (Weights.restores hnumbers h).read?,
    fun _ h => (Outcome.restores hnumbers h).read?,
    fun _ h hupdates => (Snapshot.restores hnumbers h hupdates).read?,
    fun _ h => (Strategy.restores hnumbers h).read?, fun _ h => (Config.restores hnumbers h).read?⟩

/-- An observation with a name that has to be escaped, a snapshot after the greatest number of
updates, a strategy with one bound and the standard configuration, with numbers read as the nearest
double. -/
theorem standard_data_read_back :
    @ReadsPrinted .nearest ∧
      (read? (Wire.Observation.toJson ⟨⟨"a\"b\n"⟩, none, ⟨some 0.5, none⟩, some 7⟩).render.toList).bind
        Wire.Observation.ofJson? = some ⟨⟨"a\"b\n"⟩, none, ⟨some 0.5, none⟩, some 7⟩ ∧
      (read? (Snapshot.toJson ⟨"exp3", [0.5], [1], 18446744073709551615⟩).render.toList).bind
        Snapshot.ofJson? = some ⟨"exp3", [0.5], [1], 18446744073709551615⟩ ∧
      (read? (Strategy.toJson (.exponential 0.1 none (some 2))).render.toList).bind
        (Strategy.ofJson? maxDepth) = some (.exponential 0.1 none (some 2)) ∧
      (read? Config.standard.toJson.render.toList).bind Config.ofJson? = some Config.standard := by
  obtain ⟨hobservation, -, -, -, -, -, hsnapshot, hstrategy, hconfig⟩ :=
    data_read_back_from_json readsPrinted_nearest
  exact ⟨readsPrinted_nearest, hobservation _ (by decide +kernel),
    hsnapshot _ (by decide +kernel) (by decide), hstrategy _ (by decide +kernel),
    hconfig _ (by decide +kernel)⟩

end

end LinkTuner
