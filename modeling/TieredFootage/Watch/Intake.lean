import TieredFootage.Watch.Notification

/-!
# Intake

The messages of a tier are taken in one after the other, up to the first that
says to stop. Taking in a notification can fail; that is counted and does not
end the intake. A requested evaluation is not counted.
-/

namespace TieredFootage

inductive Message
  | event (n : Notification)
  /-- Evaluate the tier once everything before has been taken in. -/
  | evaluate
  | stop
  deriving DecidableEq, Repr

/-- What a tier does with its messages. -/
structure Sink (σ : Type) where
  /-- Takes in a notification; answers whether that succeeded. -/
  onEvent : Notification → σ → Bool × σ
  onEvaluate : σ → σ

/-- The notifications taken in so far. -/
structure IntakeTally where
  processed : Nat := 0
  failed : Nat := 0
  deriving DecidableEq, Repr, Inhabited

/-- The tally after one more notification. -/
def IntakeTally.count (t : IntakeTally) (succeeded : Bool) : IntakeTally :=
  if succeeded then { t with processed := t.processed + 1 } else { t with failed := t.failed + 1 }

/-- The tally of two stretches of an intake together. -/
def IntakeTally.add (t u : IntakeTally) : IntakeTally :=
  ⟨t.processed + u.processed, t.failed + u.failed⟩

/-- Takes in messages in order until one says to stop or none is left. -/
def takeIn {σ : Type} (sink : Sink σ) : List Message → σ → IntakeTally × σ
  | [], s => ({}, s)
  | .stop :: _, s => ({}, s)
  | .evaluate :: ms, s => takeIn sink ms (sink.onEvaluate s)
  | .event n :: ms, s =>
    let (succeeded, s) := sink.onEvent n s
    let (tally, s) := takeIn sink ms s
    (tally.count succeeded, s)

variable {σ : Type} (sink : Sink σ)

@[simp] theorem takeIn_nil (s : σ) : takeIn sink [] s = ({}, s) := rfl

@[simp] theorem takeIn_stop (ms : List Message) (s : σ) :
    takeIn sink (.stop :: ms) s = ({}, s) := rfl

/-- Without a stop between them, two stretches of messages are taken in one
after the other. -/
theorem snd_takeIn_append {ms : List Message} (ns : List Message) (s : σ) (h : Message.stop ∉ ms) :
    (takeIn sink (ms ++ ns) s).2 = (takeIn sink ns (takeIn sink ms s).2).2 := by
  induction ms generalizing s with
  | nil => rfl
  | cons m ms ih =>
    have h' : Message.stop ∉ ms := fun hm => h (List.mem_cons_of_mem _ hm)
    cases m with
    | event n => exact ih _ h'
    | evaluate => exact ih _ h'
    | stop => exact absurd (List.mem_cons_self ..) h

end TieredFootage
