import Captain.Log.Formatter
import Captain.Log.Level
import Mathlib.Logic.Function.Basic

/-!
# Loggers and appenders (`captain/log.cpp`)

A `LoggerManager` has its loggers by name, and the appenders that were made: a pointer to an
appender is its index. The pointer `CAPTAIN_LOG_NAME(name)` is `name`, after `getLogger`.
-/

namespace Captain

/-- The two classes of appenders. -/
inductive AppenderKind
  | FileLogAppender (m_filename : String)
  | StdoutLogAppender
  deriving DecidableEq, Repr

structure LogAppender where
  kind : AppenderKind
  m_level : LogLevel := .DEBUG
  m_hasFormatter : Bool := false
  m_formatter : Option LogFormatter := none
  deriving DecidableEq, Repr

namespace LogAppender

/-- `LogAppender::setFormatter`. -/
def setFormatter (appender : LogAppender) (val : Option LogFormatter) : LogAppender :=
  { appender with m_formatter := val, m_hasFormatter := val.isSome }

/-- What `Logger::setFormatter` does to an appender of the logger. -/
def inherit (val : Option LogFormatter) (appender : LogAppender) : LogAppender :=
  if appender.m_hasFormatter then appender else { appender with m_formatter := val }

/-- What `Logger::addAppender` does to an appender. -/
def adopt (val : Option LogFormatter) (appender : LogAppender) : LogAppender :=
  if appender.m_formatter.isNone then { appender with m_formatter := val } else appender

end LogAppender

structure Logger where
  m_name : String
  m_level : LogLevel
  m_appenders : List Nat
  m_formatter : Option LogFormatter
  deriving DecidableEq, Repr

/-- The constructor. -/
def Logger.make (name : String) : Logger where
  m_name := name
  m_level := .DEBUG
  m_appenders := []
  m_formatter := some (LogFormatter.make
    "%d\x7b%Y-%m-%d %H:%M:%S\x7d%T%t%T%N%T%F%T[%p]%T[%c]%T%f:%l%T%m%n")

structure LoggerManager where
  appenders : List LogAppender
  m_loggers : String → Option Logger

namespace LoggerManager

variable (s : LoggerManager) (name : String)

/-- `getLogger`. -/
def getLogger : LoggerManager :=
  match s.m_loggers name with
  | some _ => s
  | none => { s with m_loggers := Function.update s.m_loggers name (some (Logger.make name)) }

/-- The logger that `getLogger` returns. -/
def logger : Logger := (s.m_loggers name).getD (Logger.make name)

/-- The appenders of a logger. -/
def attached : List Nat := ((s.m_loggers name).map Logger.m_appenders).getD []

def modifyLogger (f : Logger → Logger) : LoggerManager :=
  { s with m_loggers := Function.update s.m_loggers name ((s.m_loggers name).map f) }

/-- `Logger::setLevel`. -/
def setLevel (val : LogLevel) : LoggerManager :=
  s.modifyLogger name fun logger => { logger with m_level := val }

/-- `Logger::setFormatter(LogFormatter::ptr)`. -/
def setFormatter (val : Option LogFormatter) : LoggerManager :=
  { s.modifyLogger name fun logger => { logger with m_formatter := val } with
    appenders := (s.attached name).foldl
      (fun appenders id => appenders.modify id (LogAppender.inherit val)) s.appenders }

/-- `Logger::setFormatter(const std::string&)`. -/
def setFormatterPattern (val : String) : LoggerManager :=
  if (LogFormatter.make val).m_error then s else s.setFormatter name (some (LogFormatter.make val))

/-- `Logger::clearAppenders`. -/
def clearAppenders : LoggerManager :=
  s.modifyLogger name fun logger => { logger with m_appenders := [] }

/-- `Logger::delAppender`. -/
def delAppender (id : Nat) : LoggerManager :=
  s.modifyLogger name fun logger => { logger with m_appenders := logger.m_appenders.erase id }

/-- `Logger::addAppender`. -/
def addAppender (id : Nat) : LoggerManager :=
  { s.modifyLogger name fun logger => { logger with m_appenders := logger.m_appenders ++ [id] } with
    appenders := s.appenders.modify id
      (LogAppender.adopt ((s.m_loggers name).bind Logger.m_formatter)) }

/-- `LogAppender::setFormatter` on an appender. -/
def setAppenderFormatter (id : Nat) (val : Option LogFormatter) : LoggerManager :=
  { s with appenders := s.appenders.modify id fun appender => appender.setFormatter val }

/-- A new appender; its pointer is the number of those made before. -/
def newAppender (appender : LogAppender) : LoggerManager :=
  { s with appenders := s.appenders ++ [appender] }

/-- The constructor. -/
def make : LoggerManager :=
  (((⟨[], fun _ => none⟩ : LoggerManager).getLogger "root").newAppender
    { kind := .StdoutLogAppender }).addAppender "root" 0

/-- The pointers of the loggers lead to appenders. -/
def Valid : Prop := ∀ name logger, s.m_loggers name = some logger →
  ∀ id ∈ logger.m_appenders, id < s.appenders.length

variable {s name}

theorem Valid.attached (h : s.Valid) {id : Nat} (hid : id ∈ s.attached name) :
    id < s.appenders.length := by
  unfold LoggerManager.attached at hid
  cases hl : s.m_loggers name with
  | none =>
    rw [hl] at hid
    cases hid
  | some logger =>
    rw [hl] at hid
    exact h name logger hl id hid

theorem attached_congr {s' : LoggerManager} (h : s'.m_loggers name = s.m_loggers name) :
    s'.attached name = s.attached name := by
  unfold LoggerManager.attached
  rw [h]

theorem logger_congr {s' : LoggerManager} (h : s'.m_loggers name = s.m_loggers name) :
    s'.logger name = s.logger name := by
  unfold LoggerManager.logger
  rw [h]

theorem getLogger_m_loggers (s : LoggerManager) (name : String) :
    (s.getLogger name).m_loggers = Function.update s.m_loggers name (some (s.logger name)) := by
  unfold getLogger LoggerManager.logger
  cases hl : s.m_loggers name with
  | none => rfl
  | some logger => exact (Function.update_eq_self_iff.mpr hl.symm).symm

theorem getLogger_appenders (s : LoggerManager) (name : String) :
    (s.getLogger name).appenders = s.appenders := by
  unfold getLogger
  split <;> rfl

theorem modifyLogger_m_loggers {logger : Logger} (h : s.m_loggers name = some logger)
    (f : Logger → Logger) :
    (s.modifyLogger name f).m_loggers = Function.update s.m_loggers name (some (f logger)) := by
  unfold modifyLogger
  rw [h]
  rfl

/-- `setFormatter` reaches the appenders of the logger only. -/
theorem setFormatter_appenders (s : LoggerManager) (name : String) (val : Option LogFormatter) :
    (s.setFormatter name val).appenders.length = s.appenders.length ∧
      ∀ id, id ∉ s.attached name →
        (s.setFormatter name val).appenders[id]? = s.appenders[id]? := by
  unfold setFormatter
  generalize s.attached name = ids
  show (ids.foldl _ s.appenders).length = _ ∧ ∀ id, id ∉ ids → (ids.foldl _ s.appenders)[id]? = _
  generalize s.appenders = appenders
  induction ids generalizing appenders with
  | nil => exact ⟨rfl, fun _ _ => rfl⟩
  | cons k ids ih =>
    obtain ⟨hlength, hkeep⟩ := ih (appenders.modify k (LogAppender.inherit val))
    refine ⟨hlength.trans (List.length_modify ..), fun id hid => ?_⟩
    have hk : k ≠ id := fun heq => hid (heq ▸ List.mem_cons_self)
    rw [List.foldl_cons, hkeep id fun hmem => hid (List.mem_cons_of_mem _ hmem),
      List.getElem?_modify_ne _ _ hk]

theorem valid_make : make.Valid := by
  intro name logger hl id hid
  have hmake : make.m_loggers = Function.update (fun _ => none) "root"
      (some { Logger.make "root" with m_appenders := [0] }) := by
    unfold make addAppender newAppender modifyLogger getLogger
    simp [Logger.make]
  rw [hmake] at hl
  by_cases hname : name = "root"
  · rw [hname, Function.update_self] at hl
    cases hl
    cases List.mem_singleton.mp hid
    exact Nat.zero_lt_one
  · rw [Function.update_of_ne hname] at hl
    cases hl

end LoggerManager

end Captain
