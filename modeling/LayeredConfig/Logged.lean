import LayeredConfig.ConfigError
import LayeredConfig.Event

/-!
# Steps that report events

Reading a source or putting an object together reports events and gives a value or a failure.
Neither takes time: waiting belongs to evaluation.
-/

namespace LayeredConfig

/-- The events that a step reports, and what comes of it. -/
structure Logged (α : Type) where
  events : List Event
  result : Except ConfigError α

namespace Logged

variable {α β : Type}

/-- A value, without events. -/
def ok (a : α) : Logged α := ⟨[], .ok a⟩

/-- A failure, without events. -/
def fail (e : ConfigError) : Logged α := ⟨[], .error e⟩

/-- A result, without events. -/
def ofExcept (result : Except ConfigError α) : Logged α := ⟨[], result⟩

/-- One event. -/
def report (event : Event) : Logged Unit := ⟨[event], .ok ()⟩

/-- Goes on with the value, if there is one. -/
def bind (r : Logged α) (f : α → Logged β) : Logged β :=
  match r.result with
  | .ok a =>
    let next := f a
    ⟨r.events ++ next.events, next.result⟩
  | .error e => ⟨r.events, .error e⟩

/-- What a step gives, or, when that is missing, what `other` gives. The events of both are kept,
with a report between them that names what was missing. -/
def orElseMissing (r : Logged α) (name : String) (other : Unit → Logged α) : Logged α :=
  match r.result with
  | .ok _ => r
  | .error e =>
    if e.isNotFound then
      let next := other ()
      ⟨r.events ++ .memberMissing name :: next.events, next.result⟩
    else r

instance : Monad Logged where
  pure := ok
  bind := bind

@[simp] theorem result_ok (a : α) : (ok a).result = .ok a := rfl

@[simp] theorem result_fail (e : ConfigError) : (fail e : Logged α).result = .error e := rfl

@[simp] theorem result_ofExcept (result : Except ConfigError α) :
    (ofExcept result).result = result := rfl

@[simp] theorem result_pure (a : α) : (pure a : Logged α).result = .ok a := rfl

theorem result_orElseMissing (r : Logged α) (name : String) (other : Unit → Logged α) :
    (r.orElseMissing name other).result =
      match r.result with
      | .ok a => .ok a
      | .error e => if e.isNotFound then (other ()).result else .error e := by
  unfold orElseMissing
  cases h : r.result with
  | ok a => simp [h]
  | error e => by_cases he : e.isNotFound <;> simp [h, he]

theorem result_bind (r : Logged α) (f : α → Logged β) :
    (r >>= f).result = r.result.bind fun a => (f a).result := by
  change (bind r f).result = _
  unfold bind
  cases r.result <;> rfl

end Logged

end LayeredConfig
