import LinkTuner.Proofs.Json.Forms
import LinkTuner.Proofs.Wire.Names

/-!
# Where names come in

A name comes in on its own, in a payload or in JSON. On its own and in a payload it is checked; JSON
takes every text for a name. Main statement: every name that does not come from JSON can be sent,
JSON brings in every name there is, and a message that is read is the one that was written if and
only if the name in it can be sent.
-/

namespace LinkTuner.Wire

/-- The JSON data that name a device. -/
inductive Naming where
  | device
  | observation
  | decision
  | sample
  deriving DecidableEq, Repr

/-- The device that a JSON value names. -/
def Naming.device? : Naming → Json.Value → Option DeviceId
  | .device, v => DeviceId.ofJson? v
  | .observation, v => (Observation.ofJson? v).map (·.device)
  | .decision, v => (Decision.ofJson? v).map (·.device)
  | .sample, v => (Sample.ofJson? v).map (·.device)

/-- What a name comes in with. -/
inductive Arrival where
  /-- A name alone. -/
  | name (raw : String)
  /-- The payload of an observation. -/
  | observation (payload : List UInt8)
  /-- The payload of a decision. -/
  | decision (payload : List UInt8)
  /-- JSON text. -/
  | json (naming : Naming) (text : String)
  deriving DecidableEq, Repr

/-- The device that comes in, if anything does. -/
def Arrival.device? : Arrival → Option DeviceId
  | .name raw => DeviceId.ofText? raw
  | .observation payload => (Observation.decode payload).toOption.map (·.device)
  | .decision payload => (Decision.decode payload).toOption.map (·.device)
  | .json naming text => (Json.read? text.toList).bind naming.device?

/-! ## Payloads -/

theorem Decision.travels_of_decode {payload : List UInt8} {d : Decision}
    (h : Decision.decode payload = .ok d) : Travels d.device := by
  rw [Decision.decode] at h
  split at h
  next => cases h
  next device action rest hfields =>
    split_ifs at h
    cases hdevice : readDevice device with
    | error cause =>
        rw [hdevice] at h
        cases h
    | ok id =>
        have htravels := travels_of_readDevice (ascii_of_fields? hfields List.mem_cons_self) hdevice
        cases haction : action? action with
        | none => simp [hdevice, haction, bind, Except.bind] at h
        | some a =>
            cases rest with
            | nil =>
                simp only [hdevice, haction, bind, Except.bind] at h
                cases h
                exact htravels
            | cons field fields =>
                cases hsequence : sequence? field with
                | none => simp [hdevice, haction, hsequence, bind, Except.bind] at h
                | some n =>
                    simp only [hdevice, haction, hsequence, bind, Except.bind] at h
                    cases h
                    exact htravels
  next => cases h

/-- A decision that is read is the one that was written if and only if its name can be sent. -/
theorem Decision.eq_of_decode_encode_iff {d d' : Decision}
    (h : Decision.decode (bytesOf d.encode) = .ok d') :
    d' = d ↔ DeviceId.isValid d.device.text = true := by
  constructor
  · rintro rfl
    exact (travels_of_decode h).valid
  · intro hvalid
    by_cases hascii : Ascii d.device.text.toList
    · rw [Decision.decode_encode ⟨hvalid, hascii⟩] at h
      exact (Except.ok.inj h).symm
    · rw [Decision.decode_encode_of_not_ascii hascii] at h
      cases h

/-- An observation that is read is the one that was written if and only if its name can be sent. -/
theorem Observation.eq_of_decode_encode_iff {o o' : Observation}
    (h : Observation.decode (bytesOf o.encode) = .ok o') :
    o' = o ↔ DeviceId.isValid o.device.text = true := by
  constructor
  · rintro rfl
    exact (travels_of_decode h).valid
  · intro hvalid
    by_cases hascii : Ascii o.device.text.toList
    · rw [Observation.decode_encode ⟨hvalid, hascii⟩] at h
      exact (Except.ok.inj h).symm
    · rw [Observation.decode_encode_of_not_ascii hascii] at h
      cases h

/-- After a name with a comma each field is read as the one before it. -/
theorem Decision.decode_encode_shifted {id : DeviceId} (h : Travels id) (a b : ActionId) :
    Decision.decode (bytesOf (Decision.encode ⟨⟨id.text ++ "," ++ a.text⟩, b, none⟩)) =
      .ok ⟨id, a, some b.index.toUInt64⟩ := by
  have hsame : Decision.encode ⟨⟨id.text ++ "," ++ a.text⟩, b, none⟩ =
      Decision.encode ⟨id, a, some b.index.toUInt64⟩ := by
    simp only [encode, withSequence, ActionId.text, ActionId.toNat, UInt32.toNat_toUInt64]
  rw [hsame, Decision.decode_encode h]

/-! ## Names from outside -/

/-- A name that comes in on its own or in a payload can be sent. -/
theorem Arrival.valid {e : Arrival} {id : DeviceId} (h : e.device? = some id)
    (hjson : ∀ naming text, e ≠ .json naming text) : DeviceId.isValid id.text = true := by
  cases e with
  | name raw =>
      obtain ⟨hvalid, htext⟩ := DeviceId.ofText?_eq_some_iff.mp h
      rwa [htext]
  | observation payload =>
      cases hread : Observation.decode payload with
      | error cause => simp [device?, hread, Except.toOption] at h
      | ok o =>
          obtain rfl : o.device = id := by simpa [device?, hread, Except.toOption] using h
          exact (Observation.travels_of_decode hread).valid
  | decision payload =>
      cases hread : Decision.decode payload with
      | error cause => simp [device?, hread, Except.toOption] at h
      | ok d =>
          obtain rfl : d.device = id := by simpa [device?, hread, Except.toOption] using h
          exact (Decision.travels_of_decode hread).valid
  | json naming text => exact absurd rfl (hjson naming text)

/-- Data that are restored bring in the name in them. -/
theorem Arrival.device?_json {α : Type} {read : Json.Value → Option α} {v : Json.Value} {a : α}
    (h : Json.Restores read v a) {naming : Naming} (name : α → DeviceId)
    (hname : naming.device? = fun v => (read v).map name) :
    (Arrival.json naming v.render).device? = some (name a) := by
  rw [Arrival.device?, hname]
  exact (h.map name).read?

/-- Every name comes in with JSON data of each kind. -/
theorem Arrival.exists_json (naming : Naming) (id : DeviceId) :
    ∃ text, (Arrival.json naming text).device? = some id := by
  cases naming with
  | device => exact ⟨id.toJson.render, (restores_device id).read?⟩
  | observation =>
      have hrestores : Json.Restores Observation.ofJson? _ ⟨id, none, .missing, none⟩ :=
        Observation.restores Json.readsPrinted_nearest (show AllFinite [] from by decide)
      exact ⟨_, device?_json hrestores Observation.device rfl⟩
  | decision =>
      have hrestores : Json.Restores Decision.ofJson? _ ⟨id, ⟨0⟩, none⟩ := Decision.restores _
      exact ⟨_, device?_json hrestores Decision.device rfl⟩
  | sample =>
      have hrestores : Json.Restores Sample.ofJson? _ ⟨id, .missing, ⟨0, 0, 0, true⟩, true⟩ :=
        Sample.restores Json.readsPrinted_nearest (show AllFinite [0, 0, 0] from by decide +kernel)
      exact ⟨_, device?_json hrestores Sample.device rfl⟩

/-- A name that comes in can be sent unless it comes in with JSON, and with JSON data of each kind
every name comes in. Of the messages with the name those that are read are the ones that were written
if and only if it can be sent. -/
theorem names_checked_unless_in_json {e : Arrival} {id : DeviceId} (h : e.device? = some id) :
    ((∀ naming text, e ≠ .json naming text) → DeviceId.isValid id.text = true) ∧
    (∀ naming, ∃ text, (Arrival.json naming text).device? = some id) ∧
    (∀ d d' : Decision, d.device = id → Decision.decode (bytesOf d.encode) = .ok d' →
      (d' = d ↔ DeviceId.isValid id.text = true)) ∧
    (∀ o o' : Observation, o.device = id → Observation.decode (bytesOf o.encode) = .ok o' →
      (o' = o ↔ DeviceId.isValid id.text = true)) := by
  refine ⟨Arrival.valid h, fun naming => Arrival.exists_json naming id, ?_, ?_⟩
  · rintro d d' rfl hread
    exact Decision.eq_of_decode_encode_iff hread
  · rintro o o' rfl hread
    exact Observation.eq_of_decode_encode_iff hread

/-- A name that comes in on its own is that of a decision which is read as it was written. -/
theorem names_checked_unless_in_json_alone :
    let d : Decision := ⟨⟨"ed-1"⟩, ⟨5⟩, some 3⟩
    (Arrival.name "ed-1").device? = some d.device ∧
      DeviceId.isValid d.device.text = true ∧ Decision.decode (bytesOf d.encode) = .ok d ∧
      (d = d ↔ DeviceId.isValid d.device.text = true) := by
  intro d
  have harrival : (Arrival.name "ed-1").device? = some d.device := by rfl
  obtain ⟨hchecked, -, hdecisions, -⟩ := names_checked_unless_in_json harrival
  have hvalid : DeviceId.isValid d.device.text = true := hchecked (by simp)
  have hread := Decision.decode_encode (d := d) ⟨hvalid, by simp [Ascii, d]⟩
  exact ⟨harrival, hvalid, hread, hdecisions d d rfl hread⟩

/-- JSON with a comma in its name is a decision, and the message of that decision is one of another
device, with another action and a sequence number. -/
theorem comma_in_json_shifts_fields :
    let d : Decision := ⟨⟨"a,5"⟩, ⟨3⟩, none⟩
    d.toJson.render = "\x7b\"device\":\"a,5\",\"action\":3,\"seq\":null\x7d" ∧
      (Json.read? d.toJson.render.toList).bind Decision.ofJson? = some d ∧
      DeviceId.isValid d.device.text = false ∧
      Decision.decode (bytesOf d.encode) = .ok ⟨⟨"a"⟩, ⟨5⟩, some 3⟩ := by
  intro d
  have hfive : ActionId.text ⟨5⟩ = "5" := by
    rw [ActionId.text, Decimal.textOfNat, Decimal.digits]
    rfl
  have hthree : Decimal.textOfNat 3 = "3" := by
    rw [Decimal.textOfNat, Decimal.digits]
    rfl
  have htravels : Travels ⟨"a"⟩ := ⟨by decide +kernel, by simp [Ascii]⟩
  have hshifted := Decision.decode_encode_shifted htravels ⟨5⟩ ⟨3⟩
  rw [hfive] at hshifted
  refine ⟨?_, (Decision.restores d).read?, by decide +kernel, hshifted⟩
  have haction : d.action.toJson = .number "3" := congrArg Json.Value.number hthree
  rw [Decision.toJson, haction]
  decide +kernel

end LinkTuner.Wire
