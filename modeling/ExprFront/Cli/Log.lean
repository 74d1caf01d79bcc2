import ExprFront.Text.Basic
/-!
# Log levels

Diagnostics are filtered by level: `silent < error < warn < info < debug`. A logger set to a
level lets through the diagnostics of that level and of the levels before it, never `silent`
ones. A logger can also be set to a name that is no level at all; it then lets nothing
through.

The level can come from the environment: the value is lower-cased and used when it names a
level, and `info` is used otherwise. Only ASCII letters matter here. Lower-casing maps no other
unit to an ASCII letter except the Kelvin sign, which becomes `k`, a letter no level name
has; so a value names a level after lower-casing exactly when it does after lower-casing its
ASCII letters alone.

## Main definitions

* `LogLevel`, `LogLevel.ofName?`, `LogLevel.fromEnv`.
* `Logger`, `Logger.enabled`.
-/

namespace ExprFront

/-- A log level. -/
inductive LogLevel where
  /-- Nothing. -/
  | silent
  /-- Errors. -/
  | error
  /-- Warnings and errors. -/
  | warn
  /-- The default. -/
  | info
  /-- Everything. -/
  | debug
  deriving DecidableEq, Repr

namespace LogLevel

/-- The position of a level in the order. -/
def rank : LogLevel → Nat
  | silent => 0
  | error => 1
  | warn => 2
  | info => 3
  | debug => 4

/-- The name of a level. -/
def name : LogLevel → String
  | silent => "silent"
  | error => "error"
  | warn => "warn"
  | info => "info"
  | debug => "debug"

/-- Every level, in order. -/
def all : List LogLevel := [silent, error, warn, info, debug]

/-- The level with exactly this name. -/
def ofName? (t : Text) : Option LogLevel := all.find? (fun l => Text.ofString l.name == t)

/-- A unit with ASCII capitals made small. -/
def lowerUnit (u : UInt16) : UInt16 := if 0x41 ≤ u && u ≤ 0x5A then u + 0x20 else u

/-- The level an environment value asks for: the level its lower-cased form names, or
`info`. -/
def fromEnv : Option Text → LogLevel
  | none => info
  | some v => (ofName? ⟨v.units.map lowerUnit⟩).getD info

end LogLevel

/-- A logger's setting: a level, or none for a name that is no level. -/
structure Logger where
  /-- The level set, if the name set is one. -/
  threshold : Option LogLevel
  deriving DecidableEq, Repr

/-- Whether diagnostics of a level get through. -/
def Logger.enabled (log : Logger) (l : LogLevel) : Bool :=
  l != .silent &&
    match log.threshold with
    | some t => l.rank ≤ t.rank
    | none => false

/-- The logger set to a name: the level of that name, or nothing through. -/
def Logger.ofName (t : Text) : Logger := ⟨LogLevel.ofName? t⟩

end ExprFront
