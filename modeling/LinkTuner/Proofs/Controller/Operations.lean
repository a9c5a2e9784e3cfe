import LinkTuner.Proofs.Config.Startable
import LinkTuner.Proofs.Registry.Sound

/-!
# What each operation does to a controller

Accepting an observation has three outcomes, deciding an admission has two choices of an action and
two ways to close. Each is said here once, with the registry seen through `find?`.
-/

namespace LinkTuner.Controller

variable {P : Type} {c : Controller P} {session : SessionId} {o : Wire.Observation} {now : Time}

@[simp] theorem registry_count (c : Controller P) (f : Counters → Counters) :
    (c.count f).registry = c.registry := rfl

/-! ## Accepting an observation -/

/-- The reported action, if the catalog knows it. -/
def known (catalog : Catalog) (o : Wire.Observation) : Option ActionId :=
  (reported catalog o).bind Except.toOption

theorem known_eq_filter (catalog : Catalog) (o : Wire.Observation) :
    known catalog o = o.previous.filter catalog.contains := by
  unfold known reported
  cases o.previous with
  | none => rfl
  | some a => cases h : catalog.contains a <;> simp [Catalog.check, h, Except.toOption, Option.filter]

/-- The number of reported actions that the catalog does not know, at most one. -/
def strangers (catalog : Catalog) (o : Wire.Observation) : Nat :=
  match reported catalog o with
  | some (.error _) => 1
  | _ => 0

/-- Whether an observation reports an action that the catalog does not know. -/
def strays (catalog : Catalog) (o : Wire.Observation) : Bool :=
  o.previous.any fun a => !catalog.contains a

theorem strangers_eq (catalog : Catalog) (o : Wire.Observation) :
    strangers catalog o = if strays catalog o then 1 else 0 := by
  unfold strangers strays reported
  cases o.previous with
  | none => rfl
  | some a => cases h : catalog.contains a <;> simp [Catalog.check, h]

/-- The admission of an observation whose device was sent `last`. -/
def admission (catalog : Catalog) (o : Wire.Observation) (last : Option ActionId) : Admission :=
  let credited := last.orElse fun _ => known catalog o
  ⟨o, credited, credited.getD (.ofNat 0)⟩

theorem credit_result (c : Controller P) (o : Wire.Observation) (last : Option ActionId) :
    (c.credit o last).result = some (admission c.catalog o last) := by
  unfold credit admission known
  cases h : reported c.catalog o with
  | none => rfl
  | some known => cases known <;> rfl

theorem credit_controller (c : Controller P) (o : Wire.Observation) (last : Option ActionId) :
    (c.credit o last).controller = c.count fun n =>
      { n with invalidActions := n.invalidActions + strangers c.catalog o } := by
  unfold credit strangers
  cases h : reported c.catalog o with
  | none => rfl
  | some known => cases known <;> rfl

/-- The outcomes of accepting an observation. -/
inductive Accepted (c : Controller P) (session : SessionId) (o : Wire.Observation) (now : Time) :
    Option Admission → Controller P → Prop where
  /-- The device is not registered and there is no room for it. -/
  | full (hnew : c.registry.find? o.device = none) (hfull : c.registry.size = c.registry.capacity) :
      Accepted c session o now none (c.count fun n =>
        { n with observations := n.observations + 1, rejections := n.rejections + 1 })
  /-- A request of the device is open. Its record moves to the session all the same. -/
  | duplicate {r : Record} {since : Time} {g : Registry} (hid : r.id = o.device)
      (hfind : c.registry.find? o.device = some r) (hphase : r.phase = .awaiting since)
      (hnext : c.registry.Replaced { r with session } g) :
      Accepted c session o now none ({ c with registry := g }.count fun n =>
        { n with observations := n.observations + 1, duplicates := n.duplicates + 1 })
  /-- The request is opened. -/
  | admitted {r : Record} {g : Registry} (hid : r.id = o.device)
      (hfind : c.registry.find? o.device = some r ∨
        c.registry.find? o.device = none ∧ c.registry.size ≠ c.registry.capacity ∧
          r = .fresh o.device session)
      (hphase : r.phase = .idle)
      (hnext : c.registry.Replaced { r with session, phase := .awaiting now } g) :
      Accepted c session o now (some (admission c.catalog o r.action))
        ({ c with registry := g }.count fun n =>
          { n with
            observations := n.observations + 1
            invalidActions := n.invalidActions + strangers c.catalog o })

theorem replaced_reassign {g : Registry} (hg : g.Sound) {r : Record} (h : g.find? r.id = some r)
    (session : SessionId) : g.Replaced { r with session } (reassign g r session).1 := by
  unfold reassign
  split
  case isTrue hs =>
    subst hs
    exact .refl hg h
  case isFalse => exact hg.replaced (r := { r with session }) h

/-- A device that is known or was made known is either found waiting or its request is opened. -/
theorem accepted_of_ok {r : Record} {g : Registry}
    (hok : c.registry.findOrCreate o.device session = .ok (r, g)) (hid : r.id = o.device)
    (hfind : c.registry.find? o.device = some r ∨
      c.registry.find? o.device = none ∧ c.registry.size ≠ c.registry.capacity ∧
        r = .fresh o.device session)
    (hentered : c.registry.Replaced r g) :
    Accepted c session o now (c.accept session o now).result
      (c.accept session o now).controller := by
  have hmoved := replaced_reassign hentered.sound hentered.find?_self session
  rcases hpair : reassign g r session with ⟨g₁, moves⟩
  rw [hpair] at hmoved
  have hfound : g₁.find? o.device = some { r with session } := hid ▸ hmoved.find?_self
  obtain ⟨h, -⟩ | ⟨r', since, h, -, hphase, heq⟩ | ⟨r', g₂, h, -, hphase, heq, hnext⟩ :=
    hmoved.sound.markPending_cases o.device now
  · rw [hfound] at h
    cases h
  · rw [hfound] at h
    cases h
    obtain hfind | ⟨-, -, rfl⟩ := hfind
    · simp only [accept, registry_count, hok, hpair, heq]
      exact .duplicate hid hfind hphase (hentered.trans hmoved rfl)
    · cases hphase
  · rw [hfound] at h
    cases h
    have hresolve : g₂.resolve o.device = .ok r.action := by
      have h := hnext.find?_self
      simp only [hid] at h
      simp [Registry.resolve, h, Record.isPending]
    simp only [accept, registry_count, hok, hpair, heq, hresolve, credit_result, credit_controller]
    exact .admitted hid hfind hphase ((hentered.trans hmoved rfl).trans hnext rfl)

/-- Accepting an observation has one of the three outcomes. -/
theorem accepted (hg : c.registry.Sound) (session : SessionId) (o : Wire.Observation) (now : Time) :
    Accepted c session o now (c.accept session o now).result
      (c.accept session o now).controller := by
  obtain ⟨h, hfull, heq⟩ | ⟨h, hroom, g, heq, hnew⟩ | ⟨r, h, hid, heq⟩ :=
    hg.findOrCreate_cases o.device session
  · simp only [accept, registry_count, heq]
    exact .full h hfull
  · exact accepted_of_ok heq rfl (.inr ⟨h, hroom, rfl⟩) hnew
  · exact accepted_of_ok heq hid (.inl h) (.refl hg (hid ▸ h))

/-- Whoever reports, the action of a request that was just opened can be found. -/
theorem resolve_of_accept (hg : c.registry.Sound) {r : Record} {g g' : Registry}
    (hfound : c.registry.findOrCreate o.device session = .ok (r, g))
    (hmarked : (reassign g r session).1.markPending o.device now = .ok g') :
    ∃ last, g'.resolve o.device = .ok last := by
  have hentered : g.Sound ∧ g.find? r.id = some r := by
    obtain ⟨-, -, heq⟩ | ⟨-, -, g₁, heq, hnew⟩ | ⟨r₁, hfind, hid, heq⟩ :=
      hg.findOrCreate_cases o.device session
    · rw [heq] at hfound
      cases hfound
    · rw [heq] at hfound
      cases hfound
      exact ⟨hnew.sound, hnew.find?_self⟩
    · rw [heq] at hfound
      cases hfound
      exact ⟨hg, hid ▸ hfind⟩
  have hmoved := replaced_reassign hentered.1 hentered.2 session
  obtain ⟨r', -, hresolve⟩ := hmoved.sound.resolve_markPending hmarked
  exact ⟨r'.action, hresolve⟩

theorem Accepted.sound {result : Option Admission} {c' : Controller P}
    (h : Accepted c session o now result c') (hg : c.registry.Sound) : c'.registry.Sound := by
  cases h with
  | full hnew hfull => exact hg
  | duplicate hid hfind hphase hnext => exact hnext.sound
  | admitted hid hfind hphase hnext => exact hnext.sound

/-! ## Deciding an admission -/

section Decide

variable [Learner P] {a : Admission} {timing : Timing}

/-- The reward that an admission brings, and whether it stands in for an outcome that cannot be
used. -/
def rewarded (w : Weights Float) (a : Admission) : Option (Reward Float × Bool) :=
  a.credited.map fun _ =>
    match w.combine a.observation.outcome with
    | .ok r => (r, false)
    | .error _ => (.uninformative, true)

/-- The number of outcomes that cannot be used, at most one. -/
def unusable (w : Weights Float) (a : Admission) : Nat :=
  match rewarded w a with
  | some (_, true) => 1
  | _ => 0

/-- What the policy is fed before the draw. -/
def fedWith (w : Weights Float) (a : Admission) : Option (ActionId × Reward Float) :=
  a.credited.bind fun action => (rewarded w a).map fun r => (action, r.1)

omit [Learner P] in
theorem rewardOf_result (c : Controller P) (a : Admission) :
    (c.rewardOf a).result = rewarded c.weights a := by
  unfold rewardOf rewarded rewardFor
  cases a.credited with
  | none => rfl
  | some action => cases h : c.weights.combine a.observation.outcome <;> simp

omit [Learner P] in
theorem rewardOf_controller (c : Controller P) (a : Admission) :
    (c.rewardOf a).controller = c.count fun n =>
      { n with invalidOutcomes := n.invalidOutcomes + unusable c.weights a } := by
  unfold rewardOf unusable rewarded rewardFor
  cases a.credited with
  | none => rfl
  | some action => cases h : c.weights.combine a.observation.outcome <;> simp [count]

/-- The two ways to choose an action. Either way the policy carries out its step if it is asked
to. -/
inductive Chosen (c : Controller P) (a : Admission) (timing : Timing)
    (update : Option (ActionId × Reward Float)) :
    ActionId × Completion → Controller P → Prop where
  | fallback (h : timing ≠ .prompt ∨ (c.owner.step update).1 = none) :
      Chosen c a timing update (a.fallback, .fallback)
        ({ c with owner := (c.owner.receive timing update).2 }.count fun n =>
          { n with timeouts := n.timeouts + 1 })
  | drawn {drawn : Drawn} (hprompt : timing = .prompt)
      (h : (c.owner.step update).1 = some drawn) :
      Chosen c a timing update (drawn.action, .decided)
        ({ c with owner := (c.owner.step update).2 }.count fun n =>
          { n with
            decisions := n.decisions + 1
            invalidActions := n.invalidActions + drawn.refused.toList.length })

/-- Without an owner that serves the policy nothing is carried out. -/
theorem step_of_not_serving {owner : Owner P} (h : owner.serving = false)
    (update : Option (ActionId × Reward Float)) : owner.step update = (none, owner) := by
  simp [Owner.step, h]

theorem receive_of_not_serving {owner : Owner P} (h : owner.serving = false) (timing : Timing)
    (update : Option (ActionId × Reward Float)) : owner.receive timing update = (none, owner) := by
  simp [Owner.receive, step_of_not_serving h]

/-- A command that arrives is carried out. -/
theorem receive_of_arrives (owner : Owner P) (h : timing.arrives = true)
    (update : Option (ActionId × Reward Float)) :
    owner.receive timing update = owner.step update := if_pos h

/-- The owner stays as it is, or it serves the policy and carries out a command that arrived. -/
theorem receive_cases (owner : Owner P) (timing : Timing)
    (update : Option (ActionId × Reward Float)) :
    (owner.receive timing update).2 = owner ∨
      owner.serving = true ∧ timing.arrives = true ∧
        (owner.receive timing update).2 = (owner.step update).2 := by
  cases hserving : owner.serving with
  | false => exact .inl (by rw [receive_of_not_serving hserving])
  | true =>
      cases harrives : timing.arrives with
      | false => exact .inl (by simp [Owner.receive, harrives])
      | true => exact .inr ⟨rfl, rfl, by rw [receive_of_arrives _ harrives]⟩

/-- Only a policy that is served can be drawn from. -/
theorem serving_of_step {owner : Owner P} {update : Option (ActionId × Reward Float)}
    {drawn : Drawn} (h : (owner.step update).1 = some drawn) : owner.serving = true := by
  cases hserving : owner.serving with
  | true => rfl
  | false => simp [step_of_not_serving hserving] at h

theorem chosen (c : Controller P) (a : Admission) (reward : Option (Reward Float))
    (timing : Timing) :
    Chosen c a timing (a.credited.bind fun action => reward.map fun r => (action, r))
      (c.choose a reward timing).result (c.choose a reward timing).controller := by
  generalize hupdate : (a.credited.bind fun action => reward.map fun r => (action, r)) = update
  rcases hstep : c.owner.receive timing update with ⟨drawn, owner⟩
  have hmissed (h : timing ≠ .prompt ∨ (c.owner.step update).1 = none) :
      Chosen c a timing update (a.fallback, .fallback)
        ({ c with owner }.count fun n => { n with timeouts := n.timeouts + 1 }) := by
    have h : Chosen c a timing update _ _ := .fallback h
    rwa [hstep] at h
  simp only [choose, hupdate, hstep]
  split
  case isTrue hmiss =>
    exact hmissed (.inl (by simpa using (Bool.and_eq_true_iff.mp hmiss).2))
  case isFalse hmiss =>
    -- The timing is looked at only while the policy is served.
    cases hserving : c.owner.serving with
    | false =>
        rw [receive_of_not_serving hserving] at hstep
        cases hstep
        exact hmissed (.inr (by rw [step_of_not_serving hserving]))
    | true =>
        obtain rfl : timing = .prompt := by simpa [hserving] using hmiss
        rw [receive_of_arrives _ rfl] at hstep
        cases drawn with
        | none => exact hmissed (.inr (by rw [hstep]))
        | some drawn =>
            have hdrawn : (c.owner.step update).1 = some drawn := by rw [hstep]
            have h := Chosen.drawn (a := a) rfl hdrawn
            rw [hstep] at h
            obtain ⟨action, refused⟩ := drawn
            cases refused <;> exact h

theorem Chosen.registry_eq {update : Option (ActionId × Reward Float)} {c' : Controller P}
    {choice : ActionId × Completion} (h : Chosen c a timing update choice c') :
    c'.registry = c.registry := by
  cases h <;> rfl

/-- The policy carries out the step if it is asked to. -/
theorem Chosen.owner_eq {update : Option (ActionId × Reward Float)} {c' : Controller P}
    {choice : ActionId × Completion} (h : Chosen c a timing update choice c') :
    c'.owner = (c.owner.receive timing update).2 := by
  cases h with
  | fallback hmissed => rfl
  | drawn hprompt hdrawn =>
      rw [receive_of_arrives _ (hprompt ▸ rfl)]
      rfl

/-- An admission with the action that is going to answer it. -/
structure Choice where
  admission : Admission
  reward : Option (Reward Float × Bool)
  action : ActionId
  how : Completion

/-- The first half of a decision: the policy is fed and an action is chosen. -/
def prepare (c : Controller P) (a : Admission) (timing : Timing) : Choice × Controller P :=
  let step := c.rewardOf a
  let chosen := step.controller.choose a (step.result.map (·.1)) timing
  (⟨a, step.result, chosen.result.1, chosen.result.2⟩, chosen.controller)

/-- The second half of a decision: the request is closed with the action that was chosen. -/
def conclude (c : Controller P) (choice : Choice) : Option Wire.Decision × Controller P :=
  let step := c.answer choice.admission choice.reward choice.action choice.how
  (step.result, step.controller)

/-- A decision is its two halves. -/
theorem decide_eq_conclude (c : Controller P) (a : Admission) (timing : Timing) :
    ((c.decide a timing).result, (c.decide a timing).controller) =
      (c.prepare a timing).2.conclude (c.prepare a timing).1 := rfl

/-- What the first half of a decision leaves. -/
structure Prepared (c : Controller P) (a : Admission) (timing : Timing) (choice : Choice)
    (c' : Controller P) : Prop where
  admission : choice.admission = a
  reward : choice.reward = rewarded c.weights a
  chosen : Chosen
    (c.count fun n => { n with invalidOutcomes := n.invalidOutcomes + unusable c.weights a })
    a timing (fedWith c.weights a) (choice.action, choice.how) c'

theorem prepared (c : Controller P) (a : Admission) (timing : Timing) :
    Prepared c a timing (c.prepare a timing).1 (c.prepare a timing).2 := by
  have hchosen := chosen (c.rewardOf a).controller a ((rewarded c.weights a).map (·.1)) timing
  have hfed : (a.credited.bind fun action =>
      ((rewarded c.weights a).map (·.1)).map fun r => (action, r)) = fedWith c.weights a := by
    simp [fedWith, Function.comp_def]
  rw [hfed, rewardOf_controller] at hchosen
  constructor
  · rfl
  · exact rewardOf_result c a
  · simp only [prepare, rewardOf_result, rewardOf_controller]
    exact hchosen

theorem Prepared.registry_eq {choice : Choice} {c' : Controller P}
    (h : Prepared c a timing choice c') : c'.registry = c.registry :=
  h.chosen.registry_eq

theorem Prepared.owner_eq {choice : Choice} {c' : Controller P}
    (h : Prepared c a timing choice c') :
    c'.owner = (c.owner.receive timing (fedWith c.weights a)).2 :=
  h.chosen.owner_eq

/-- The two ways a decision is concluded. -/
inductive Concluded (c : Controller P) (choice : Choice) :
    Option Wire.Decision → Controller P → Prop where
  /-- The device is not registered, or waits for nothing. -/
  | gone (hfind : ∀ r, c.registry.find? choice.admission.observation.device = some r →
        r.phase = .idle) :
      Concluded c choice none c
  /-- The open request of the device is closed. -/
  | closed {r : Record} {since : Time} {g : Registry}
      (hid : r.id = choice.admission.observation.device)
      (hfind : c.registry.find? choice.admission.observation.device = some r)
      (hphase : r.phase = .awaiting since)
      (hnext : c.registry.Replaced
        (Registry.closed r choice.action (choice.reward.map (·.1.value)) choice.how) g) :
      Concluded c choice
        (some ⟨choice.admission.observation.device, choice.action,
          choice.admission.observation.sequence⟩)
        { c with
          registry := g
          history := match choice.reward with
            | none => c.history
            | some (r, neutral) => c.history.push
              ⟨choice.admission.observation.device, choice.admission.observation.outcome, r,
                neutral⟩ }

omit [Learner P] in
/-- A decision is concluded in one of the two ways. -/
theorem concluded (hg : c.registry.Sound) (choice : Choice) :
    Concluded c choice (c.conclude choice).1 (c.conclude choice).2 := by
  obtain ⟨h, heq⟩ | ⟨r, h, -, hphase, heq⟩ | ⟨r, since, g, h, hid, hphase, heq, hnext⟩ :=
    hg.complete_cases choice.admission.observation.device choice.action
      (choice.reward.map (·.1.value)) choice.how
  · simp only [conclude, answer, heq]
    exact .gone fun r hr => by rw [h] at hr; cases hr
  · simp only [conclude, answer, heq]
    exact .gone fun r' hr => by rw [h] at hr; cases hr; exact hphase
  · simp only [conclude, answer, heq]
    exact .closed hid h hphase hnext

omit [Learner P] in
theorem Concluded.sound {choice : Choice} {result : Option Wire.Decision} {c' : Controller P}
    (h : Concluded c choice result c') (hg : c.registry.Sound) : c'.registry.Sound := by
  cases h with
  | gone hfind => exact hg
  | closed hid hfind hphase hnext => exact hnext.sound

end Decide

/-! ## Open requests -/

section Open

variable {device : DeviceId}

/-- The device is registered. -/
def Knows (c : Controller P) (device : DeviceId) : Prop :=
  (c.registry.find? device).isSome = true

/-- A request of the device is open. -/
def Awaits (c : Controller P) (device : DeviceId) : Prop :=
  ∃ r since, c.registry.find? device = some r ∧ r.phase = .awaiting since

theorem Awaits.knows (h : c.Awaits device) : c.Knows device := by
  obtain ⟨r, since, hfind, -⟩ := h
  simp [Knows, hfind]

/-- Accepting an observation closes no request. -/
theorem Accepted.awaits {result : Option Admission} {c' : Controller P}
    (h : Accepted c session o now result c') (hopen : c.Awaits device) : c'.Awaits device := by
  cases h with
  | full hnew hfull => exact hopen
  | @duplicate r since g hid hfind hphase hnext =>
      by_cases heq : device = r.id
      · subst heq
        exact ⟨_, since, hnext.find?_self, hphase⟩
      · obtain ⟨r', since', hfind', hphase'⟩ := hopen
        exact ⟨r', since', (hnext.find?_of_ne heq).trans hfind', hphase'⟩
  | @admitted r g hid hfind hphase hnext =>
      by_cases heq : device = r.id
      · subst heq
        exact ⟨_, now, hnext.find?_self, rfl⟩
      · obtain ⟨r', since', hfind', hphase'⟩ := hopen
        exact ⟨r', since', (hnext.find?_of_ne heq).trans hfind', hphase'⟩

/-- An admission opens the request of its own device, which had none. -/
theorem Accepted.opens {a : Admission} {c' : Controller P}
    (h : Accepted c session o now (some a) c') :
    a.observation = o ∧ ¬c.Awaits o.device ∧ c'.Awaits o.device := by
  generalize hresult : some a = result at h
  cases h with
  | full hnew hfull => cases hresult
  | duplicate hid hfind hphase hnext => cases hresult
  | @admitted r g hid hfind hphase hnext =>
      cases hresult
      refine ⟨rfl, ?_, ?_⟩
      · rintro ⟨r', since, hfind', hphase'⟩
        obtain hfind | ⟨hnone, -, -⟩ := hfind
        · rw [hfind] at hfind'
          cases hfind'
          rw [hphase] at hphase'
          cases hphase'
        · rw [hnone] at hfind'
          cases hfind'
      · exact ⟨_, now, hid ▸ hnext.find?_self, rfl⟩

/-- A decision has an answer exactly when a request of its device is open. -/
theorem Concluded.isSome_iff {choice : Choice} {result : Option Wire.Decision}
    {c' : Controller P} (h : Concluded c choice result c') :
    result.isSome = true ↔ c.Awaits choice.admission.observation.device := by
  cases h with
  | gone hfind =>
      constructor
      · intro hsome
        cases hsome
      · rintro ⟨r, since, hfind', hphase⟩
        rw [hfind r hfind'] at hphase
        cases hphase
  | closed hid hfind hphase hnext =>
      constructor
      · intro _
        exact ⟨_, _, hfind, hphase⟩
      · intro _
        rfl

/-- The answer goes to the device of the admission, whose request is not open any more. -/
theorem Concluded.closes {choice : Choice} {answer : Wire.Decision} {c' : Controller P}
    (h : Concluded c choice (some answer) c') :
    answer.device = choice.admission.observation.device ∧
      answer.sequence = choice.admission.observation.sequence ∧
      ¬c'.Awaits choice.admission.observation.device := by
  generalize hresult : some answer = result at h
  cases h with
  | gone hfind => cases hresult
  | @closed r since g hid hfind hphase hnext =>
      cases hresult
      refine ⟨rfl, rfl, ?_⟩
      rintro ⟨r', since', hfind', hphase'⟩
      have hself : g.find? choice.admission.observation.device = some _ := hid ▸ hnext.find?_self
      rw [hself] at hfind'
      cases hfind'
      cases hphase'

/-- A decision closes no request of another device. -/
theorem Concluded.awaits {choice : Choice} {result : Option Wire.Decision} {c' : Controller P}
    (h : Concluded c choice result c') (hne : device ≠ choice.admission.observation.device)
    (hopen : c.Awaits device) : c'.Awaits device := by
  cases h with
  | gone hfind => exact hopen
  | closed hid hfind hphase hnext =>
      obtain ⟨r', since', hfind', hphase'⟩ := hopen
      exact ⟨r', since', (hnext.find?_of_ne (hid ▸ hne)).trans hfind', hphase'⟩

/-- Eviction leaves the request of a device open unless it forgets the device. -/
theorem awaits_evict (hg : c.registry.Sound) (session : SessionId) (hopen : c.Awaits device) :
    (c.evict session).controller.Awaits device ∨ ¬(c.evict session).controller.Knows device := by
  obtain ⟨r, since, hfind, hphase⟩ := hopen
  have hevict : (c.evict session).controller.registry.find? device =
      (some r).filter fun r => r.session ≠ session := by
    rw [← hfind]
    exact hg.find?_evictSession session device
  by_cases hs : r.session = session
  · right
    simp [Knows, hevict, Option.filter, hs]
  · left
    exact ⟨r, since, by simp [hevict, Option.filter, hs], hphase⟩

end Open

/-! ## Starting -/

/-- What a controller is built of. -/
theorem of_ofPolicy [Learner P] {config : Config} {policy : P}
    (h : ofPolicy config policy = .ok c) :
    ∃ catalog, config.catalog = .ok catalog ∧
      c = ⟨catalog, config.weights, .create config.maxDevices.toNat, .create policy, .zero,
        .create config.historyLength.toNat, config.timeout.toNat⟩ := by
  simp only [ofPolicy, bind_eq_ok_iff, unless_eq_ok_iff] at h
  obtain ⟨catalog, hcatalog, -, -, -, -, hc⟩ := h
  cases hc
  exact ⟨catalog, hcatalog, rfl⟩

/-- A controller starts with no device and with nothing counted. -/
theorem ofPolicy_ok [Learner P] {config : Config} {policy : P}
    (h : ofPolicy config policy = .ok c) :
    c.registry = .create config.maxDevices.toNat ∧ c.counters = .zero := by
  obtain ⟨catalog, -, rfl⟩ := of_ofPolicy h
  exact ⟨rfl, rfl⟩

end LinkTuner.Controller
