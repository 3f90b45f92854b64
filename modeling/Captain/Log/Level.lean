import Mathlib.Order.Basic

/-!
# `LogLevel` (`captain/log.cpp`, `captain/include/log.h`)
-/

namespace Captain

/-- `LogLevel::Level`. -/
inductive LogLevel
  | UNKNOW
  | DEBUG
  | INFO
  | WARN
  | ERROR
  | FATAL
  deriving DecidableEq, Repr

namespace LogLevel

def toNat : LogLevel → Nat
  | UNKNOW => 0
  | DEBUG => 1
  | INFO => 2
  | WARN => 3
  | ERROR => 4
  | FATAL => 5

instance : LE LogLevel := ⟨fun a b => a.toNat ≤ b.toNat⟩

instance (a b : LogLevel) : Decidable (a ≤ b) := inferInstanceAs (Decidable (a.toNat ≤ b.toNat))

/-- `LogLevel::ToString`. -/
def ToString : LogLevel → String
  | DEBUG => "DEBUG"
  | INFO => "INFO"
  | WARN => "WARN"
  | ERROR => "ERROR"
  | FATAL => "FATAL"
  | UNKNOW => "UNKNOW"

/-- `LogLevel::FromString`. -/
def FromString (str : String) : LogLevel :=
  if str = "debug" then DEBUG
  else if str = "info" then INFO
  else if str = "warn" then WARN
  else if str = "error" then ERROR
  else if str = "fatal" then FATAL
  else if str = "DEBUG" then DEBUG
  else if str = "INFO" then INFO
  else if str = "WARN" then WARN
  else if str = "ERROR" then ERROR
  else if str = "FATAL" then FATAL
  else UNKNOW

@[simp] theorem FromString_ToString (level : LogLevel) : FromString level.ToString = level := by
  cases level <;> decide

end LogLevel

end Captain
