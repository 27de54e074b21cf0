import LayeredConfig.Logged

/-!
# Runs

An evaluation may have to wait: it goes on in rounds, and the members of a container go on side
by side, round by round, in their order within a round. A run says after how many rounds the work
ended, what it reported in which round, and how it ended. Side by side, all members succeed in
the latest of their rounds, or the whole stops at the earliest failure, of two in one round the
one that stands first; what the others would have done later does not happen.
-/

namespace LayeredConfig

/-- Why a run stopped without a value: a failure, or evaluation that nests beyond its limit. -/
inductive Stop where
  | failed (error : ConfigError)
  | tooDeep
  deriving Inhabited

/-- Work that ends after some rounds. Events are kept with their rounds, in the order in which
they were reported. -/
structure Run (α : Type) where
  rounds : Nat
  events : List (Nat × Event)
  result : Except Stop α

namespace Run

variable {α β : Type}

/-- Work that is done at once. -/
def ok (a : α) : Run α := ⟨0, [], .ok a⟩

/-- Work that stops at once. -/
def stop (s : Stop) : Run α := ⟨0, [], .error s⟩

/-- Work that fails at once. -/
def fail (e : ConfigError) : Run α := stop (.failed e)

/-- Waiting for some rounds. -/
def wait (rounds : Nat) : Run Unit := ⟨rounds, [], .ok ()⟩

/-- One event. -/
def report (event : Event) : Run Unit := ⟨0, [(0, event)], .ok ()⟩

/-- A step without waiting. -/
def ofLogged (step : Logged α) : Run α :=
  ⟨0, step.events.map fun event => (0, event), step.result.mapError .failed⟩

/-- Events that come some rounds later. -/
def later (rounds : Nat) (events : List (Nat × Event)) : List (Nat × Event) :=
  events.map fun event => (rounds + event.1, event.2)

/-- Goes on with the value, if there is one, in the round in which it came. -/
def bind (x : Run α) (f : α → Run β) : Run β :=
  match x.result with
  | .ok a =>
    let next := f a
    ⟨x.rounds + next.rounds, x.events ++ later x.rounds next.events, next.result⟩
  | .error s => ⟨x.rounds, x.events, .error s⟩

instance : Monad Run where
  pure := ok
  bind := bind

/-- Makes a failure a value that the work can go on with. Nesting too deep is no failure. -/
def attempt (x : Run α) : Run (Except ConfigError α) :=
  { x with
    result := match x.result with
      | .ok a => .ok (.ok a)
      | .error (.failed e) => .ok (.error e)
      | .error .tooDeep => .error .tooDeep }

/-- Events of two runs side by side: by rounds, and within a round those of the first run first. -/
def mergeEvents (xs ys : List (Nat × Event)) : List (Nat × Event) :=
  xs.merge ys fun a b => decide (a.1 ≤ b.1)

/-- The run of a first member beside the run of the others. -/
def combine (x : Run α) (ys : Run (List α)) : Run (List α) :=
  let firstStops (s : Stop) : Run (List α) :=
    ⟨x.rounds, mergeEvents x.events (ys.events.filter fun event => event.1 < x.rounds), .error s⟩
  let othersStop (s : Stop) : Run (List α) :=
    ⟨ys.rounds, mergeEvents (x.events.filter fun event => event.1 ≤ ys.rounds) ys.events, .error s⟩
  match x.result, ys.result with
  | .ok a, .ok as => ⟨max x.rounds ys.rounds, mergeEvents x.events ys.events, .ok (a :: as)⟩
  | .error s, .ok _ => firstStops s
  | .ok _, .error s => othersStop s
  | .error s, .error t => if x.rounds ≤ ys.rounds then firstStops s else othersStop t

/-- A first member beside the others. When it stops at once, the others are not even begun. -/
def beside (x : Run α) (others : Unit → Run (List α)) : Run (List α) :=
  match x.result, x.rounds with
  | .error s, 0 => ⟨0, x.events, .error s⟩
  | _, _ => combine x (others ())

/-- What came of a run, without its events: its rounds and its result. -/
def outcome (x : Run α) : Nat × Except Stop α := (x.rounds, x.result)

/-! ### Results of runs -/

@[simp] theorem result_pure (a : α) : (pure a : Run α).result = .ok a := rfl

@[simp] theorem rounds_pure (a : α) : (pure a : Run α).rounds = 0 := rfl

@[simp] theorem result_report (event : Event) : (report event).result = .ok () := rfl

@[simp] theorem rounds_report (event : Event) : (report event).rounds = 0 := rfl

theorem result_bind (x : Run α) (f : α → Run β) :
    (x >>= f).result = x.result.bind fun a => (f a).result := by
  change (bind x f).result = _
  unfold bind
  cases x.result <;> rfl

theorem result_bind_eq_ok_iff {x : Run α} {f : α → Run β} {b : β} :
    (x >>= f).result = .ok b ↔ ∃ a, x.result = .ok a ∧ (f a).result = .ok b := by
  rw [result_bind]
  cases x.result with
  | ok a => simp [Except.bind]
  | error s => simp [Except.bind]

theorem pure_bind (a : α) (f : α → Run β) : (pure a : Run α) >>= f = f a := by
  change bind (ok a) f = f a
  simp [bind, ok, later]

theorem rounds_bind_of_ok {x : Run α} {a : α} (h : x.result = .ok a) (f : α → Run β) :
    (x >>= f).rounds = x.rounds + (f a).rounds := by
  change (bind x f).rounds = _
  simp [bind, h]

theorem rounds_bind_of_error {x : Run α} {s : Stop} (h : x.result = .error s) (f : α → Run β) :
    (x >>= f).rounds = x.rounds := by
  change (bind x f).rounds = _
  simp [bind, h]

theorem result_ofLogged (step : Logged α) :
    (ofLogged step).result = step.result.mapError .failed := rfl

theorem result_ofLogged_eq_ok_iff {step : Logged α} {a : α} :
    (ofLogged step).result = .ok a ↔ step.result = .ok a := by
  rw [result_ofLogged]
  cases step.result with
  | ok b => exact ⟨fun h => congrArg Except.ok (Except.ok.inj h),
      fun h => congrArg Except.ok (Except.ok.inj h)⟩
  | error e => exact iff_of_false nofun nofun

theorem result_attempt (x : Run α) :
    x.attempt.result =
      match x.result with
      | .ok a => .ok (.ok a)
      | .error (.failed e) => .ok (.error e)
      | .error .tooDeep => .error .tooDeep := rfl

theorem result_attempt_eq_ok_ok_iff {x : Run α} {a : α} :
    x.attempt.result = .ok (.ok a) ↔ x.result = .ok a := by
  rw [result_attempt]
  cases x.result with
  | ok b => simp
  | error s => cases s <;> simp

/-- Leaving the others out when the first stops at once changes nothing. -/
theorem outcome_beside (x : Run α) (others : Unit → Run (List α)) :
    (beside x others).outcome = (combine x (others ())).outcome := by
  unfold beside
  split
  · next s hs hr =>
    unfold combine outcome
    cases h : (others ()).result <;> simp [hs, hr]
  · rfl

theorem beside_pure (a : α) (as : List α) :
    (pure a : Run α).beside (fun _ => pure as) = pure (a :: as) := by
  change beside (ok a) (fun _ => ok as) = ok (a :: as)
  simp [beside, combine, ok, mergeEvents]

/-- Side by side, a value comes of it exactly when all members give one. -/
theorem result_beside_eq_ok_iff {x : Run α} {others : Unit → Run (List α)} {as : List α} :
    (beside x others).result = .ok as ↔
      ∃ a rest, x.result = .ok a ∧ (others ()).result = .ok rest ∧ as = a :: rest := by
  have : (beside x others).result = (combine x (others ())).result :=
    congrArg Prod.snd (outcome_beside x others)
  rw [this]
  unfold combine
  cases hx : x.result with
  | ok a =>
      cases hy : (others ()).result with
      | ok rest => simp [eq_comm]
      | error s => simp
  | error s =>
      cases hy : (others ()).result with
      | ok rest => simp
      | error t => by_cases h : x.rounds ≤ (others ()).rounds <;> simp [h]

end Run

end LayeredConfig
