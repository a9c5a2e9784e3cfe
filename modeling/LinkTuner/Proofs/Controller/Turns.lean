import LinkTuner.Proofs.Controller.Records
import LinkTuner.Proofs.Controller.Requests

/-!
# Admissions and answers in turns

Where no device is evicted while an admission of it is held, an open request belongs to the one
admission of its device that is held, so an answer goes to the admission made last. From its
registration on the admissions of a device and the answers to it then come in turns, and its record
shows the action of the last answer. An admission credits what its record shows, so each credits the
answer to the one before.
-/

namespace LinkTuner.Desk

open Controller

variable {P : Type} [Learner P]

/-! ## Held admissions and open requests -/

/-- The call makes the registry forget the device. -/
def Evicts (d : Desk P) (call : Call) (device : DeviceId) : Prop :=
  d.controller.Knows device ∧ ¬(d.step call).controller.Knows device

omit [Learner P] in
theorem knows_of_replaced {c c' : Controller P} {r : Record} {device : DeviceId}
    (h : c.registry.Replaced r c'.registry) (hknows : c.Knows device) : c'.Knows device := by
  by_cases heq : device = r.id
  · subst heq
    exact Option.isSome_of_mem h.find?_self
  · rwa [Knows, h.find?_of_ne heq]

/-- Only the end of a session and a request to forget it evict. -/
theorem Sound.evicts_cases {d : Desk P} (hd : d.Sound) {call : Call} {device : DeviceId}
    (h : d.Evicts call device) : ∃ session, call = .closed session ∨ call = .evict session := by
  obtain ⟨hknows, hgone⟩ := h
  have hstep := stepped hd.registry call
  generalize d.step call = d' at hstep hgone
  cases hstep with
  | accepted hc =>
      rw [controller_enter] at hgone
      cases hc with
      | full hnew hfull => exact absurd hknows hgone
      | duplicate hid hfind hphase hnext => exact absurd (knows_of_replaced hnext hknows) hgone
      | admitted hid hfind hphase hnext => exact absurd (knows_of_replaced hnext hknows) hgone
  | prepared hfind hc =>
      apply absurd hknows
      rwa [Knows, ← hc.registry_eq]
  | @concluded ticket choice c hfind hc =>
      generalize d.decision ticket = answer at hc
      cases hc with
      | gone hidle => exact absurd hknows hgone
      | closed hid hfind hphase hnext => exact absurd (knows_of_replaced hnext hknows) hgone
  | @closed session => exact ⟨session, .inl rfl⟩
  | @evicted session => exact ⟨session, .inr rfl⟩
  | _ => exact absurd hknows hgone

/-- The admissions that are held are those of different devices, whose requests are open. -/
structure Matched (d : Desk P) : Prop where
  awaits {ticket : Nat} {a : Admission} :
    d.held ticket = some a → d.controller.Awaits a.observation.device
  unique {ticket ticket' : Nat} {a a' : Admission} : d.held ticket = some a →
    d.held ticket' = some a' → a.observation.device = a'.observation.device → ticket = ticket'

section Matched

variable {d : Desk P}

omit [Learner P] in
theorem matched_start (c : Controller P) : (start c).Matched where
  awaits hheld := by cases hheld
  unique hheld := by cases hheld

/-- A device whose admission is made has no other admission that is held. -/
theorem Matched.ne_of_admittedBy (h : d.Matched) (hd : d.Sound) {call : Call}
    {ticket ticket' : Nat} {a a' : Admission} (hadmitted : d.admittedBy call = some (ticket, a))
    (hheld : d.held ticket' = some a') : a.observation.device ≠ a'.observation.device := by
  obtain ⟨session, o, now, before, -, -, rfl, hidle, hbefore, -⟩ := hd.of_admittedBy hadmitted
  intro hdevice
  have hopen := h.awaits hheld
  rw [← hdevice] at hopen
  obtain ⟨r, since, hfind, hphase⟩ := hopen
  have hfind : d.record? o.device = some r := hfind
  obtain hbefore | ⟨hnone, -⟩ := hbefore
  · rw [hbefore] at hfind
    cases hfind
    rw [hidle] at hphase
    cases hphase
  · rw [hnone] at hfind
    cases hfind

/-- A call that evicts no device with an admission that is held keeps requests and admissions
matched. -/
theorem Matched.step (h : d.Matched) (hd : d.Sound) {call : Call}
    (hkept : ∀ device, d.Evicts call device →
      ∀ ticket a, d.held ticket = some a → a.observation.device ≠ device) :
    (d.step call).Matched := by
  have hstep := stepped hd.registry call
  constructor
  · intro ticket a hheld
    obtain hbefore | hadmitted := hd.held_before call hheld
    · have hopen := h.awaits hbefore
      obtain hstill | hgone | ⟨k, choice, rfl, hchosen, hdevice⟩ := hstep.awaits_cases hd hopen
      · exact hstill
      · exact absurd rfl (hkept _ ⟨hopen.knows, hgone⟩ ticket a hbefore)
      · -- The concluded ticket is that of the same device, so it is this one, which is still held.
        obtain rfl : k = ticket := h.unique (held_of_chosen hd hchosen) hbefore hdevice
        have hnone := hstep.held_concluded hd hchosen
        rw [hheld] at hnone
        cases hnone
    · obtain ⟨session, o, now, before, -, -, rfl, -, -, hafter⟩ := hd.of_admittedBy hadmitted
      exact ⟨_, now, hafter, rfl⟩
  · intro ticket ticket' a a' hheld hheld' hdevice
    obtain hbefore | hadmitted := hd.held_before call hheld
    · obtain hbefore' | hadmitted' := hd.held_before call hheld'
      · exact h.unique hbefore hbefore' hdevice
      · exact absurd hdevice.symm (h.ne_of_admittedBy hd hadmitted' hbefore)
    · obtain hbefore' | hadmitted' := hd.held_before call hheld'
      · exact absurd hdevice (h.ne_of_admittedBy hd hadmitted hbefore')
      · cases hadmitted.symm.trans hadmitted'
        rfl

end Matched

/-! ## Turns -/

/-- Admissions and answers in turns, with the action of the last answer and the ticket of the
admission that is still to be answered. Each admission credits the last action, and each answer has
the ticket of the admission before. -/
inductive Alternates (catalog : Catalog) :
    List (Nat × Admission) → List (Nat × Wire.Decision) → Option ActionId → Option Nat → Prop
  | start : Alternates catalog [] [] none none
  | admitted {as : List (Nat × Admission)} {bs : List (Nat × Wire.Decision)} {last : Option ActionId}
      (h : Alternates catalog as bs last none) (ticket : Nat) (o : Wire.Observation) :
      Alternates catalog (as ++ [(ticket, admission catalog o last)]) bs last (some ticket)
  | answered {as : List (Nat × Admission)} {bs : List (Nat × Wire.Decision)} {last : Option ActionId}
      {ticket : Nat} (h : Alternates catalog as bs last (some ticket)) (answer : Wire.Decision) :
      Alternates catalog as (bs ++ [(ticket, answer)]) (some answer.action) none

namespace Alternates

variable {catalog : Catalog} {as : List (Nat × Admission)} {bs : List (Nat × Wire.Decision)}
  {last : Option ActionId} {opened : Option Nat}

/-- The answers have the tickets of the admissions, but for the one that is still to be answered. -/
theorem tickets_eq (h : Alternates catalog as bs last opened) :
    as.map (·.1) = bs.map (·.1) ++ opened.toList := by
  induction h with
  | start => rfl
  | admitted h ticket o ih => simp [ih]
  | answered h answer ih => simp [ih]

theorem last_eq (h : Alternates catalog as bs last opened) :
    last = bs.getLast?.map fun b => b.2.action := by
  induction h with
  | start => rfl
  | admitted h ticket o ih => exact ih
  | answered h answer ih => simp

theorem length_eq (h : Alternates catalog as bs last opened) :
    as.length = bs.length + opened.toList.length := by
  simpa using congrArg List.length h.tickets_eq

/-- An admission is made with the action of the last of the answers sent before it. -/
theorem admission_eq (h : Alternates catalog as bs last opened) {i ticket : Nat} {a : Admission}
    (hi : as[i]? = some (ticket, a)) :
    a = admission catalog a.observation ((bs.take i).getLast?.map fun b => b.2.action) := by
  induction h with
  | start => cases hi
  | @admitted as bs last h t o ih =>
      by_cases hlt : i < as.length
      · rw [List.getElem?_append_left hlt] at hi
        exact ih hi
      · have hlast : i = as.length := by
          have hbound := (List.getElem?_eq_some_iff.mp hi).1
          simp only [List.length_append, List.length_singleton] at hbound
          omega
        rw [hlast, List.getElem?_concat_length] at hi
        cases hi
        have hall : i = bs.length := hlast.trans h.length_eq
        rw [hall, List.take_length, ← h.last_eq]
        rfl
  | @answered as bs last t h answer ih =>
      have hlen := h.length_eq
      have hlt := (List.getElem?_eq_some_iff.mp hi).1
      rw [List.take_append_of_le_length (by simp at hlen; omega)]
      exact ih hi

/-- The first admission credits what is reported, if the catalog knows it. -/
theorem credited_first (h : Alternates catalog as bs last opened) {ticket : Nat} {a : Admission}
    (hfirst : as[0]? = some (ticket, a)) :
    a.credited = a.observation.previous.filter catalog.contains := by
  have hcredited : a.credited = known catalog a.observation :=
    congrArg Admission.credited (h.admission_eq hfirst)
  rw [hcredited, known_eq_filter]

/-- Every later admission credits the action of the answer to the one before, which was sent. -/
theorem credited_later (h : Alternates catalog as bs last opened) {k ticket : Nat} {a : Admission}
    (hlater : as[k + 1]? = some (ticket, a)) :
    ∃ earlier answer, as[k]? = some earlier ∧ bs[k]? = some (earlier.1, answer) ∧
      a.credited = some answer.action := by
  have hbound := (List.getElem?_eq_some_iff.mp hlater).1
  have hlen := h.length_eq
  have hopened : opened.toList.length ≤ 1 := by cases opened <;> simp
  have hk : k < bs.length := by omega
  have hticket : (as.map (·.1))[k]? = (bs.map (·.1))[k]? := by
    rw [h.tickets_eq, List.getElem?_append_left (by simpa using hk)]
  have hearlier : as[k]? = some as[k] := List.getElem?_eq_getElem _
  have hanswer : bs[k]? = some bs[k] := List.getElem?_eq_getElem _
  refine ⟨as[k], bs[k].2, hearlier, ?_, ?_⟩
  · simp only [List.getElem?_map, hearlier, hanswer, Option.map_some, Option.some.injEq] at hticket
    rw [hticket, hanswer]
  · have hlast : (bs.take (k + 1)).getLast?.map (fun b => b.2.action) = some bs[k].2.action := by
      simp [List.getLast?_take, hanswer]
    have hcredited := congrArg Admission.credited (h.admission_eq hlater)
    rw [hlast] at hcredited
    exact hcredited

end Alternates

/-! ## From registration on -/

section Lifetime

variable {d : Desk P} {calls : List Call} {device : DeviceId} {s n : Nat}

/-- The admissions of a device in the places from `s` up to `n`. -/
def admissionsOf (d : Desk P) (calls : List Call) (device : DeviceId) (s n : Nat) :
    List (Nat × Admission) :=
  (d.admissions calls s n).filter fun p => p.2.observation.device = device

/-- The answers to a device in the places from `s` up to `n`. -/
def answersOf (d : Desk P) (calls : List Call) (device : DeviceId) (s n : Nat) :
    List (Nat × Wire.Decision) :=
  (d.answers calls s n).filter fun p => p.2.device = device

theorem admissionsOf_succ (h : s ≤ n) {call : Call} (hcall : calls[n]? = some call) :
    d.admissionsOf calls device s (n + 1) =
      d.admissionsOf calls device s n ++ ((d.after calls n).admittedFor device call).toList := by
  simp [admissionsOf, admissions_succ h, admittedAt, hcall, admittedFor, Option.toList_filter]

theorem answersOf_succ (h : s ≤ n) {call : Call} (hcall : calls[n]? = some call) :
    d.answersOf calls device s (n + 1) =
      d.answersOf calls device s n ++ ((d.after calls n).sentTo device call).toList := by
  simp [answersOf, answers_succ h, sentAt, hcall, sentTo, Option.toList_filter]

/-- What a record tells of the admissions and answers since place `s`: they come in turns, the
record shows the action of the last answer, and its request is open exactly when the last admission
is still held. -/
def Told (d : Desk P) (calls : List Call) (device : DeviceId) (s n : Nat) (r : Record) : Prop :=
  ∃ opened, Alternates d.controller.catalog (d.admissionsOf calls device s n)
      (d.answersOf calls device s n) r.action opened ∧
    (opened = none ↔ r.phase = .idle) ∧
    ∀ ticket, opened = some ticket →
      ∃ a, (d.after calls n).held ticket = some a ∧ a.observation.device = device

theorem told_fresh (session : SessionId) : d.Told calls device s s (.fresh device session) := by
  refine ⟨none, ?_, by simp [Record.fresh], by simp⟩
  have hadmissions : d.admissionsOf calls device s s = [] := by simp [admissionsOf, admissions]
  have hanswers : d.answersOf calls device s s = [] := by simp [answersOf, answers]
  rw [hadmissions, hanswers]
  exact .start

/-- One call takes turns, whether the device was registered before or is registered by it. -/
theorem Sound.told_succ (hd : d.Sound) (hmatched : (d.after calls n).Matched) (hle : s ≤ n)
    {call : Call} (hcall : calls[n]? = some call)
    (htold : ∀ r, (d.after calls n).record? device = some r → d.Told calls device s n r)
    (hfresh : (d.after calls n).record? device = none →
      ∀ session, d.Told calls device s n (.fresh device session))
    {r : Record} (hfind : ((d.after calls n).step call).record? device = some r) :
    d.Told calls device s (n + 1) r := by
  have hrecorded := (hd.after n).recorded call hfind
  simp only [Told, admissionsOf_succ hle hcall, answersOf_succ hle hcall, after_succ hcall]
  have hcatalog := (hd.settings_after calls n).1
  generalize hadmitted : (d.after calls n).admittedFor device call = admitted at hrecorded ⊢
  generalize (d.after calls n).sentTo device call = sent at hrecorded ⊢
  cases hrecorded with
  | kept hbefore hreport hanswer =>
      obtain ⟨opened, halternates, hphase, hopened⟩ := htold r hbefore
      refine ⟨opened, by simpa using halternates, hphase, ?_⟩
      intro ticket hticket
      obtain ⟨a, hheld, hdevice⟩ := hopened ticket hticket
      obtain hstill | ⟨rfl, choice, hchosen, rfl⟩ := (hd.after n).held_step call hheld
      · exact ⟨a, hstill, hdevice⟩
      · have hidle := hphase.mpr (hanswer ticket choice rfl hchosen hdevice)
        rw [hticket] at hidle
        cases hidle
  | @duplicate session o now since before hreport hbefore hopen =>
      obtain ⟨opened, halternates, hphase, hopened⟩ := htold before hbefore
      refine ⟨opened, by simpa using halternates, hphase, ?_⟩
      intro ticket hticket
      obtain ⟨a, hheld, hdevice⟩ := hopened ticket hticket
      obtain hstill | ⟨hconclude, -⟩ := (hd.after n).held_step (.accept session o now) hheld
      · exact ⟨a, hstill, hdevice⟩
      · cases hconclude
  | @admitted session o now before hreport hbefore hidle =>
      have hbefore : d.Told calls device s n before := by
        obtain hbefore | ⟨hnone, rfl⟩ := hbefore
        · exact htold before hbefore
        · exact hfresh hnone session
      obtain ⟨opened, halternates, hphase, -⟩ := hbefore
      obtain rfl := hphase.mpr hidle
      refine ⟨some (d.after calls n).issued, ?_, by simp, ?_⟩
      · rw [hcatalog]
        simpa using halternates.admitted (d.after calls n).issued o
      · rintro ticket ⟨⟩
        obtain ⟨hby, hfor⟩ := Option.filter_eq_some_iff.mp hadmitted
        exact ⟨_, held_of_admittedBy hby, by simpa using hfor⟩
  | @answered ticket choice since before hchosen hdevice hbefore hopen =>
      obtain ⟨opened, halternates, hphase, hopened⟩ := htold before hbefore
      cases opened with
      | none =>
          rw [hphase.mp rfl] at hopen
          cases hopen
      | some k =>
          obtain ⟨a, hheld, ha⟩ := hopened k rfl
          obtain rfl : k = ticket := hmatched.unique hheld
            (held_of_chosen (hd.after n) hchosen) (ha.trans hdevice.symm)
          refine ⟨none, ?_, by simp [Registry.closed], by simp⟩
          simpa [Registry.closed] using halternates.answered _

/-- The device is registered by the call in place `s` and not evicted before place `e`. -/
structure Lives (d : Desk P) (calls : List Call) (device : DeviceId) (s e : Nat) : Prop where
  unknown : ¬(d.after calls s).controller.Knows device
  stays : d.Stays calls device s e

/-- No device is evicted while an admission of it is held. -/
def KeepsUndecided (d : Desk P) (calls : List Call) : Prop :=
  ∀ n call device, calls[n]? = some call → (d.after calls n).Evicts call device →
    ∀ ticket a, (d.after calls n).held ticket = some a → a.observation.device ≠ device

section Endless

variable (hends : ∀ session, Call.closed session ∉ calls ∧ Call.evict session ∉ calls)

include hends

/-- No device is evicted where no session ends. -/
theorem Sound.not_evicts (hd : d.Sound) {call : Call} (hcall : calls[n]? = some call) :
    ¬(d.after calls n).Evicts call device := by
  intro hevicts
  obtain ⟨session, rfl | rfl⟩ := (hd.after n).evicts_cases hevicts
  · exact (hends session).1 (List.mem_of_getElem? hcall)
  · exact (hends session).2 (List.mem_of_getElem? hcall)

theorem Sound.keepsUndecided (hd : d.Sound) : d.KeepsUndecided calls :=
  fun _ _ _ hcall hevicts => absurd hevicts (hd.not_evicts hends hcall)

/-- The life of a device that is registered goes on where no session ends. -/
theorem Sound.lives (hd : d.Sound) (hunknown : ¬(d.after calls s).controller.Knows device)
    (hknows : (d.after calls (s + 1)).controller.Knows device) (e : Nat) :
    d.Lives calls device s e := by
  refine ⟨hunknown, fun m hm _ => ?_⟩
  refine after_induction_from hknows ?step (fun _ _ _ ih => ih) m hm
  case step =>
    intro n call _ hcall ih
    by_contra hgone
    exact hd.not_evicts hends hcall ⟨ih, hgone⟩

end Endless

theorem Sound.matched (hd : d.Sound) (hfirst : d.Matched) (hkept : d.KeepsUndecided calls)
    (n : Nat) : (d.after calls n).Matched :=
  after_induction hfirst
    (fun n call hcall ih => ih.step (hd.after n) fun device => hkept n call device hcall)
    (fun _ _ ih => ih) n

theorem Lives.of_le (h : d.Lives calls device s n) {m : Nat} (hm : m ≤ n) :
    d.Lives calls device s m :=
  ⟨h.unknown, fun k hs hk => h.stays k hs (hk.trans hm)⟩

/-- A record tells of all admissions and answers since its device was registered. -/
theorem Sound.told (hd : d.Sound) (hfirst : d.Matched) (hkept : d.KeepsUndecided calls)
    (hle : s ≤ n) (hlives : d.Lives calls device s n) {r : Record}
    (hfind : (d.after calls n).record? device = some r) : d.Told calls device s n r := by
  revert hlives r
  refine after_induction_from ?start ?step ?rest n hle
  case start =>
    intro hlives r hfind
    have hknows : (d.after calls s).controller.Knows device := Option.isSome_of_mem hfind
    exact absurd hknows hlives.unknown
  case step =>
    intro n call hle hcall ih hlives r hfind
    apply hd.told_succ (hd.matched hfirst hkept n) hle hcall _ _ hfind
    · intro r hbefore
      exact ih (hlives.of_le (Nat.le_succ n)) hbefore
    · -- A device that is not registered before the call is registered by it for the first time.
      intro hnone session
      obtain rfl | hlt := Nat.eq_or_lt_of_le hle
      · exact told_fresh session
      · have hknows := hlives.stays n hlt (Nat.le_succ n)
        have hnone : (d.after calls n).controller.registry.find? device = none := hnone
        simp [Knows, hnone] at hknows
  case rest =>
    intro n hle hcall ih hlives r hfind
    have htold := ih (hlives.of_le (Nat.le_succ n)) hfind
    simpa [Told, after_succ_of_none hcall, admissionsOf, answersOf, admissions_succ hle,
      answers_succ hle, admittedAt, sentAt, hcall] using htold

/-- From its registration to its eviction the admissions of a device and the answers to it come in
turns. -/
theorem Sound.alternates (hd : d.Sound) (hfirst : d.Matched) (hkept : d.KeepsUndecided calls)
    (hlives : d.Lives calls device s n) :
    ∃ last opened, Alternates d.controller.catalog (d.admissionsOf calls device s n)
      (d.answersOf calls device s n) last opened := by
  obtain hlt | hle := Nat.lt_or_ge s n
  · obtain ⟨r, hfind⟩ := Option.isSome_iff_exists.mp (hlives.stays n hlt (Nat.le_refl n))
    obtain ⟨opened, halternates, -⟩ := hd.told hfirst hkept (Nat.le_of_lt hlt) hlives hfind
    exact ⟨r.action, opened, halternates⟩
  · have hadmissions : d.admissionsOf calls device s n = [] := by
      simp [admissionsOf, admissions, List.Ico.eq_nil_of_le hle]
    have hanswers : d.answersOf calls device s n = [] := by
      simp [answersOf, answers, List.Ico.eq_nil_of_le hle]
    rw [hadmissions, hanswers]
    exact ⟨none, none, .start⟩

end Lifetime

end LinkTuner.Desk
