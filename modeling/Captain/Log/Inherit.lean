import Captain.Log.Logger
import Captain.Transition

/-!
# Inherited formatters (`captain/log.cpp`)

An appender without a formatter of its own has a copy of the formatter of its logger. `own` is what
`LogAppender::setFormatter` set on it last.

* `inherits_iff`: along a sequence of calls every attached appender has its own formatter, or the
  one its logger has, exactly when every call meets `Ok`.
-/

namespace Captain

/-- A call of `Logger::log` on `logger` formats through `formatter` in `appender`. -/
structure LogFormat where
  logger : String
  appender : Nat
  formatter : Option LogFormatter
  deriving DecidableEq, Repr

namespace LoggerManager

variable (s : LoggerManager) (name : String) (level : LogLevel)

/-- The formatter of an appender. -/
def formatter (id : Nat) : Option LogFormatter := s.appenders[id]?.bind LogAppender.m_formatter

/-- `Logger::getFormatter`. -/
def getFormatter : Option LogFormatter := (s.m_loggers name).bind Logger.m_formatter

/-- The loop over `m_appenders`, with the level check of `LogAppender::log`. -/
def logAppenders : List LogFormat :=
  (s.attached name).filterMap fun id => s.appenders[id]?.bind fun appender =>
    if appender.m_level ≤ level then some ⟨name, id, appender.m_formatter⟩ else none

def logEnabled : Bool := (s.m_loggers name).any fun logger => logger.m_level ≤ level

/-- `Logger::log`. The `m_root` of the root logger is null. -/
def log : List LogFormat :=
  if s.logEnabled name level then
    if s.attached name ≠ [] then s.logAppenders name level
    else if name ≠ "root" ∧ s.logEnabled "root" level then s.logAppenders "root" level
    else []
  else []

end LoggerManager

inductive LoggerCall
  | getLogger (name : String)
  | newAppender (kind : AppenderKind) (level : LogLevel)
  | addAppender (name : String) (id : Nat)
  | delAppender (name : String) (id : Nat)
  | clearAppenders (name : String)
  | setFormatter (name : String) (val : Option LogFormatter)
  | setFormatterPattern (name val : String)
  | setAppenderFormatter (id : Nat) (val : Option LogFormatter)
  deriving DecidableEq, Repr

structure LoggerHistory where
  manager : LoggerManager
  own : Nat → Option LogFormatter

namespace LoggerHistory

/-- Before any logger and any appender. -/
def start : LoggerHistory := ⟨⟨[], fun _ => none⟩, fun _ => none⟩

/-- The objects of the call are there. -/
def Exist (s : LoggerHistory) : LoggerCall → Prop
  | .getLogger _ | .newAppender _ _ => True
  | .addAppender name id | .delAppender name id =>
    (s.manager.m_loggers name).isSome ∧ id < s.manager.appenders.length
  | .clearAppenders name | .setFormatter name _ | .setFormatterPattern name _ =>
    (s.manager.m_loggers name).isSome
  | .setAppenderFormatter id _ => id < s.manager.appenders.length

instance (s : LoggerHistory) (call : LoggerCall) : Decidable (s.Exist call) := by
  cases call <;> unfold Exist <;> infer_instance

def call (s : LoggerHistory) : LoggerCall → LoggerHistory
  | .getLogger name => { s with manager := s.manager.getLogger name }
  | .newAppender kind level =>
    { s with manager := s.manager.newAppender { kind := kind, m_level := level } }
  | .addAppender name id => { s with manager := s.manager.addAppender name id }
  | .delAppender name id => { s with manager := s.manager.delAppender name id }
  | .clearAppenders name => { s with manager := s.manager.clearAppenders name }
  | .setFormatter name val => { s with manager := s.manager.setFormatter name val }
  | .setFormatterPattern name val => { s with manager := s.manager.setFormatterPattern name val }
  | .setAppenderFormatter id val =>
    ⟨s.manager.setAppenderFormatter id val, Function.update s.own id val⟩

def next (s : LoggerHistory) (call : LoggerCall) : Option LoggerHistory :=
  if s.Exist call then some (s.call call) else none

/-- The formatter that an appender should have in a logger. -/
def expected (s : LoggerHistory) (name : String) (id : Nat) : Option LogFormatter :=
  (s.own id).or (s.manager.getFormatter name)

/-- Every attached appender has its own formatter, or else that of its logger; never none. -/
def Inherits (s : LoggerHistory) : Prop :=
  ∀ name, ∀ id ∈ s.manager.attached name,
    s.manager.formatter id ≠ none ∧ s.manager.formatter id = s.expected name id

/-- What `Logger::log` formats through is not null, and is that of the appender or of its logger. -/
def LogsRight (s : LoggerHistory) : Prop :=
  ∀ name level, ∀ format ∈ s.manager.log name level,
    format.formatter ≠ none ∧ format.formatter = s.expected format.logger format.appender

/-- `Logger::setFormatter` reaches every appender that has no formatter of its own; another logger
that has the appender must already have the new formatter. -/
def SetOk (s : LoggerHistory) (name : String) (val : Option LogFormatter) : Prop :=
  ∀ id ∈ s.manager.attached name, s.own id = none →
    val ≠ none ∧ ∀ other ≠ name, id ∈ s.manager.attached other → s.manager.getFormatter other = val

/-- An appender that has no formatter of its own comes without one, or with that of the logger, and
the logger has one. `Logger::setFormatter` meets `SetOk`. A formatter is taken from an appender only
if no logger has it. -/
def Ok (s : LoggerHistory) : LoggerCall → Prop
  | .addAppender name id => s.own id = none → s.manager.getFormatter name ≠ none ∧
    (s.manager.formatter id = none ∨ s.manager.formatter id = s.manager.getFormatter name)
  | .setFormatter name val => s.SetOk name val
  | .setFormatterPattern name val =>
    (LogFormatter.make val).m_error = false → s.SetOk name (some (LogFormatter.make val))
  | .setAppenderFormatter id val => val = none → ∀ name, id ∉ s.manager.attached name
  | _ => True

end LoggerHistory

/-! ## Appenders -/

namespace LogAppender

/-- `val` was set on the appender last. -/
def Owns (val : Option LogFormatter) (appender : LogAppender) : Prop :=
  appender.m_hasFormatter = val.isSome ∧ (val ≠ none → appender.m_formatter = val)

variable {appender : LogAppender} {own : Option LogFormatter}

theorem owns_setFormatter (appender : LogAppender) (val : Option LogFormatter) :
    (appender.setFormatter val).Owns val := ⟨rfl, fun _ => rfl⟩

theorem Owns.inherit (h : appender.Owns own) (val : Option LogFormatter) :
    (appender.inherit val).Owns own := by
  unfold LogAppender.inherit
  split
  · exact h
  · refine ⟨h.1, fun hne => ?_⟩
    have hflag : appender.m_hasFormatter = true := h.1.trans (Option.isSome_iff_ne_none.mpr hne)
    contradiction

theorem Owns.adopt (h : appender.Owns own) (val : Option LogFormatter) :
    (appender.adopt val).Owns own := by
  unfold LogAppender.adopt
  split
  · refine ⟨h.1, fun hne => ?_⟩
    have hnone : own = none := (h.2 hne).symm.trans (Option.isNone_iff_eq_none.mp ‹_›)
    exact absurd hnone hne
  · exact h

theorem Owns.inherit_m_formatter (h : appender.Owns own) (val : Option LogFormatter) :
    (appender.inherit val).m_formatter = if own = none then val else appender.m_formatter := by
  unfold LogAppender.inherit
  rw [h.1]
  cases own <;> rfl

theorem inherit_inherit (appender : LogAppender) (val : Option LogFormatter) :
    (appender.inherit val).inherit val = appender.inherit val := by
  unfold LogAppender.inherit
  cases h : appender.m_hasFormatter <;> simp [h]

theorem adopt_m_formatter (appender : LogAppender) (val : Option LogFormatter) :
    (appender.adopt val).m_formatter = appender.m_formatter.or val := by
  unfold LogAppender.adopt
  cases h : appender.m_formatter with
  | none => rfl
  | some f => exact h

end LogAppender

namespace LoggerManager

variable {s : LoggerManager} {name other : String} {id : Nat}

theorem mem_attached {id : Nat} :
    id ∈ s.attached name ↔ ∃ logger, s.m_loggers name = some logger ∧ id ∈ logger.m_appenders := by
  unfold LoggerManager.attached
  cases s.m_loggers name <;> simp

theorem attached_eq {logger : Logger} (hl : s.m_loggers name = some logger) :
    s.attached name = logger.m_appenders := by
  unfold LoggerManager.attached
  rw [hl]
  rfl

theorem getFormatter_eq {logger : Logger} (hl : s.m_loggers name = some logger) :
    s.getFormatter name = logger.m_formatter := by
  unfold LoggerManager.getFormatter
  rw [hl]
  rfl

/-- One logger has changed. -/
theorem attached_update {t : LoggerManager} {logger : Logger}
    (ht : t.m_loggers = Function.update s.m_loggers name (some logger)) (other : String) :
    t.attached other = if other = name then logger.m_appenders else s.attached other := by
  split
  · rw [‹other = name›]
    exact attached_eq (by rw [ht, Function.update_self])
  · exact attached_congr (by rw [ht, Function.update_of_ne ‹_›])

theorem getFormatter_update {t : LoggerManager} {logger : Logger}
    (ht : t.m_loggers = Function.update s.m_loggers name (some logger)) (other : String) :
    t.getFormatter other = if other = name then logger.m_formatter else s.getFormatter other := by
  split
  · rw [‹other = name›]
    exact getFormatter_eq (by rw [ht, Function.update_self])
  · unfold LoggerManager.getFormatter
    rw [ht, Function.update_of_ne ‹_›]

theorem attached_setFormatter {logger : Logger} (hl : s.m_loggers name = some logger)
    (val : Option LogFormatter) (other : String) :
    (s.setFormatter name val).attached other = s.attached other := by
  have ht : (s.setFormatter name val).m_loggers = _ := modifyLogger_m_loggers hl _
  rw [attached_update ht]
  split
  · rw [‹other = name›, attached_eq hl]
  · rfl

theorem getFormatter_setFormatter {logger : Logger} (hl : s.m_loggers name = some logger)
    (val : Option LogFormatter) (other : String) :
    (s.setFormatter name val).getFormatter other =
      if other = name then val else s.getFormatter other := by
  have ht : (s.setFormatter name val).m_loggers = _ := modifyLogger_m_loggers hl _
  exact getFormatter_update ht other

theorem attached_addAppender {logger : Logger} (hl : s.m_loggers name = some logger) (id : Nat)
    (other : String) : (s.addAppender name id).attached other =
      if other = name then s.attached name ++ [id] else s.attached other := by
  have ht : (s.addAppender name id).m_loggers = _ := modifyLogger_m_loggers hl _
  rw [attached_update ht, attached_eq hl]

theorem mem_attached_delAppender {logger : Logger} (hl : s.m_loggers name = some logger) {k : Nat}
    (hk : k ∈ (s.delAppender name id).attached other) : k ∈ s.attached other := by
  have ht : (s.delAppender name id).m_loggers = _ := modifyLogger_m_loggers hl _
  rw [attached_update ht] at hk
  split at hk
  · rw [‹other = name›, attached_eq hl]
    exact List.mem_of_mem_erase hk
  · exact hk

theorem mem_attached_clearAppenders {logger : Logger} (hl : s.m_loggers name = some logger)
    {k : Nat} (hk : k ∈ (s.clearAppenders name).attached other) : k ∈ s.attached other := by
  have ht : (s.clearAppenders name).m_loggers = _ := modifyLogger_m_loggers hl _
  rw [attached_update ht] at hk
  split at hk
  · cases hk
  · exact hk

/-- The appenders of a logger are changed, and not its formatter. -/
theorem getFormatter_modifyLogger {logger : Logger} (hl : s.m_loggers name = some logger)
    {f : Logger → Logger} (hf : (f logger).m_formatter = logger.m_formatter) (other : String) :
    (s.modifyLogger name f).getFormatter other = s.getFormatter other := by
  rw [getFormatter_update (modifyLogger_m_loggers hl _), hf]
  split
  · rw [‹other = name›, getFormatter_eq hl]
  · rfl

/-- A logger that is made has no appenders. -/
theorem attached_getLogger (s : LoggerManager) (name other : String) :
    (s.getLogger name).attached other = s.attached other := by
  unfold LoggerManager.attached
  rw [getLogger_m_loggers]
  by_cases hname : other = name
  · rw [hname, Function.update_self, LoggerManager.logger]
    cases s.m_loggers name <;> rfl
  · rw [Function.update_of_ne hname]

theorem getFormatter_getLogger (hid : id ∈ s.attached other) (name : String) :
    (s.getLogger name).getFormatter other = s.getFormatter other := by
  obtain ⟨logger, hlogger, -⟩ := mem_attached.mp hid
  unfold LoggerManager.getFormatter
  rw [getLogger_m_loggers]
  by_cases hname : other = name
  · rw [← hname, Function.update_self, LoggerManager.logger, hlogger]
    rfl
  · rw [Function.update_of_ne hname]

/-- The appenders after the loop of `Logger::setFormatter`. -/
theorem getElem?_inherit (ids : List Nat) (val : Option LogFormatter)
    (appenders : List LogAppender) (id : Nat) :
    (ids.foldl (fun appenders id => appenders.modify id (LogAppender.inherit val)) appenders)[id]? =
      if id ∈ ids then appenders[id]?.map (LogAppender.inherit val) else appenders[id]? := by
  induction ids generalizing appenders with
  | nil => rfl
  | cons k ids ih =>
    rw [List.foldl_cons, ih]
    by_cases hk : k = id
    · subst hk
      rw [List.getElem?_modify_eq, if_pos List.mem_cons_self]
      split
      · cases appenders[k]? with
        | none => rfl
        | some appender => exact congrArg some (LogAppender.inherit_inherit appender val)
      · rfl
    · rw [List.getElem?_modify_ne _ _ hk]
      simp only [List.mem_cons, Ne.symm hk, false_or]

/-- The formatters when an appender has changed. -/
theorem formatter_modify (hid : id < s.appenders.length) {t : LoggerManager}
    {f : LogAppender → LogAppender} (ht : t.appenders = s.appenders.modify id f) (k : Nat) :
    t.formatter k =
      if k = id then (f (s.appenders.get ⟨id, hid⟩)).m_formatter else s.formatter k := by
  unfold LoggerManager.formatter
  rw [ht]
  split
  · rw [‹k = id›, List.getElem?_modify_eq, List.getElem?_eq_getElem hid]
    rfl
  · rw [List.getElem?_modify_ne _ _ (Ne.symm ‹_›)]

theorem formatter_addAppender (hid : id < s.appenders.length) (name : String) (k : Nat) :
    (s.addAppender name id).formatter k =
      if k = id then (s.formatter id).or (s.getFormatter name) else s.formatter k := by
  rw [formatter_modify hid rfl, LogAppender.adopt_m_formatter]
  unfold LoggerManager.formatter
  rw [List.getElem?_eq_getElem hid]
  rfl

theorem formatter_setAppenderFormatter (hid : id < s.appenders.length) (val : Option LogFormatter)
    (k : Nat) : (s.setAppenderFormatter id val).formatter k =
      if k = id then val else s.formatter k := by
  rw [formatter_modify hid rfl]
  rfl

theorem formatter_newAppender (hid : id < s.appenders.length) (appender : LogAppender) :
    (s.newAppender appender).formatter id = s.formatter id := by
  unfold newAppender LoggerManager.formatter
  rw [List.getElem?_append_left hid]

end LoggerManager

/-! ## The calls -/

namespace LoggerHistory

open LoggerManager Transition

variable {s : LoggerHistory}

/-- The pointers lead to appenders, and `m_hasFormatter` says what was set on them. -/
structure Sound (s : LoggerHistory) : Prop where
  valid : s.manager.Valid
  owns : ∀ id (appender : LogAppender), s.manager.appenders[id]? = some appender →
    appender.Owns (s.own id)
  fresh : ∀ id, s.manager.appenders.length ≤ id → s.own id = none

/-- What was set on an appender is its formatter. -/
theorem Sound.formatter_eq (h : s.Sound) {id : Nat} (hown : s.own id ≠ none) :
    s.manager.formatter id = s.own id := by
  have hid : id < s.manager.appenders.length := by
    by_contra hge
    exact hown (h.fresh id (Nat.le_of_not_lt hge))
  unfold formatter
  rw [List.getElem?_eq_getElem hid]
  exact (h.owns id _ (List.getElem?_eq_getElem hid)).2 hown

theorem formatter_setFormatter (h : s.Sound) (name : String) (val : Option LogFormatter)
    (id : Nat) : (s.manager.setFormatter name val).formatter id =
      if id ∈ s.manager.attached name ∧ s.own id = none then val else s.manager.formatter id := by
  unfold LoggerManager.setFormatter LoggerManager.formatter
  rw [getElem?_inherit]
  by_cases hid : id ∈ s.manager.attached name
  · have hlt := h.valid.attached hid
    rw [if_pos hid, List.getElem?_eq_getElem hlt, Option.map_some, Option.bind_some,
      (h.owns id _ (List.getElem?_eq_getElem hlt)).inherit_m_formatter, Option.bind_some]
    simp only [hid, true_and]
  · rw [if_neg hid, if_neg fun hand => hid hand.1]

/-- Pointers and flags stay right where appenders are changed by `f`. -/
theorem Sound.modify (h : s.Sound) {t : LoggerHistory} {f : Nat → LogAppender → LogAppender}
    (happenders : ∀ id, t.manager.appenders[id]? = s.manager.appenders[id]?.map (f id))
    (hlength : t.manager.appenders.length = s.manager.appenders.length)
    (hattached : ∀ name, ∀ id ∈ t.manager.attached name, id < s.manager.appenders.length)
    (howns : ∀ id (appender : LogAppender), appender.Owns (s.own id) →
      (f id appender).Owns (t.own id))
    (hfresh : ∀ id, s.manager.appenders.length ≤ id → t.own id = none) : t.Sound where
  valid name logger hl id hid := by
    rw [hlength]
    exact hattached name id (mem_attached.mpr ⟨logger, hl, hid⟩)
  owns id appender hid := by
    rw [happenders] at hid
    obtain ⟨before, hbefore, rfl⟩ := Option.map_eq_some_iff.mp hid
    exact howns id before (h.owns id before hbefore)
  fresh id hid := hfresh id (hlength ▸ hid)

/-- Pointers and flags stay right where the appenders stay. -/
theorem Sound.keep (h : s.Sound) {manager : LoggerManager}
    (happenders : manager.appenders = s.manager.appenders)
    (hattached : ∀ name, ∀ id ∈ manager.attached name, id < s.manager.appenders.length) :
    Sound ⟨manager, s.own⟩ :=
  h.modify (f := fun _ => id) (fun _ => by rw [happenders, Option.map_id_fun, id_eq])
    (congrArg List.length happenders) hattached (fun _ _ howns => howns) h.fresh

theorem Sound.setFormatter (h : s.Sound) (name : String) (val : Option LogFormatter)
    (hl : (s.manager.m_loggers name).isSome) :
    Sound ⟨s.manager.setFormatter name val, s.own⟩ := by
  obtain ⟨logger, hl⟩ := Option.isSome_iff_exists.mp hl
  have happenders : ∀ id, (s.manager.setFormatter name val).appenders[id]? =
      s.manager.appenders[id]?.map fun appender =>
        if id ∈ s.manager.attached name then appender.inherit val else appender := by
    intro id
    unfold LoggerManager.setFormatter
    rw [getElem?_inherit]
    split <;> simp
  refine h.modify happenders (setFormatter_appenders s.manager name val).1 ?_ ?_ h.fresh
  · intro other id hid
    rw [attached_setFormatter hl] at hid
    exact h.valid.attached hid
  · intro id appender howns
    split
    · exact howns.inherit val
    · exact howns

theorem Sound.newAppender (h : s.Sound) (appender : LogAppender)
    (hown : appender.Owns none) : Sound ⟨s.manager.newAppender appender, s.own⟩ := by
  have hlength : (s.manager.newAppender appender).appenders.length =
      s.manager.appenders.length + 1 := by
    unfold LoggerManager.newAppender
    rw [List.length_append, List.length_singleton]
  refine ⟨fun name logger hl id hid => ?_, fun id appender' hid => ?_, fun id hid => ?_⟩
  · have hlt := h.valid name logger hl id hid
    show id < (s.manager.newAppender appender).appenders.length
    omega
  · have hget : (s.manager.appenders ++ [appender])[id]? = some appender' := hid
    rw [List.getElem?_append] at hget
    split at hget
    · exact h.owns id appender' hget
    · obtain ⟨hzero, rfl⟩ := List.getElem?_eq_some_iff.mp hget
      rw [List.getElem_singleton]
      show LogAppender.Owns (s.own id) appender
      rw [h.fresh id (Nat.le_of_not_lt ‹_›)]
      exact hown
  · have hle : (s.manager.newAppender appender).appenders.length ≤ id := hid
    exact h.fresh id (by omega)

theorem Sound.addAppender (h : s.Sound) {name : String} {id : Nat}
    (hl : (s.manager.m_loggers name).isSome) (hid : id < s.manager.appenders.length) :
    Sound ⟨s.manager.addAppender name id, s.own⟩ := by
  obtain ⟨logger, hl⟩ := Option.isSome_iff_exists.mp hl
  refine h.modify (f := fun k appender =>
    if id = k then appender.adopt (s.manager.getFormatter name) else appender)
    (fun k => ?_) (List.length_modify ..) ?_ ?_ h.fresh
  · exact List.getElem?_modify ..
  · intro other k hk
    have hk' : k ∈ (s.manager.addAppender name id).attached other := hk
    rw [attached_addAppender hl] at hk'
    split at hk'
    · rcases List.mem_append.mp hk' with hbefore | hnew
      · exact h.valid.attached hbefore
      · rw [List.mem_singleton.mp hnew]
        exact hid
    · exact h.valid.attached hk'
  · intro k appender howns
    split
    · exact howns.adopt _
    · exact howns

theorem Sound.setAppenderFormatter (h : s.Sound) {id : Nat} (hid : id < s.manager.appenders.length)
    (val : Option LogFormatter) :
    Sound ⟨s.manager.setAppenderFormatter id val, Function.update s.own id val⟩ := by
  refine h.modify (f := fun k appender => if id = k then appender.setFormatter val else appender)
    (fun k => ?_) (List.length_modify ..) (fun _ _ hk => h.valid.attached hk) ?_ ?_
  · exact List.getElem?_modify ..
  · intro k appender howns
    show LogAppender.Owns (Function.update s.own id val k) _
    by_cases hk : id = k
    · subst hk
      rw [if_pos rfl, Function.update_self]
      exact appender.owns_setFormatter val
    · rw [if_neg hk, Function.update_of_ne (Ne.symm hk)]
      exact howns
  · intro k hk
    show Function.update s.own id val k = none
    have hne : k ≠ id := Nat.ne_of_gt (Nat.lt_of_lt_of_le hid hk)
    rw [Function.update_of_ne hne]
    exact h.fresh k hk

/-- The pointers and the flags stay right. -/
theorem Sound.call (h : s.Sound) {c : LoggerCall} (hexist : s.Exist c) : (s.call c).Sound := by
  cases c with
  | getLogger name =>
    refine h.keep (getLogger_appenders s.manager name) fun other id hid => ?_
    rw [attached_getLogger] at hid
    exact h.valid.attached hid
  | newAppender kind level => exact h.newAppender _ ⟨rfl, fun hne => absurd rfl hne⟩
  | addAppender name id => exact h.addAppender hexist.1 hexist.2
  | delAppender name id =>
    obtain ⟨logger, hl⟩ := Option.isSome_iff_exists.mp hexist.1
    exact h.keep rfl fun other k hk => h.valid.attached (mem_attached_delAppender hl hk)
  | clearAppenders name =>
    obtain ⟨logger, hl⟩ := Option.isSome_iff_exists.mp hexist
    exact h.keep rfl fun other k hk => h.valid.attached (mem_attached_clearAppenders hl hk)
  | setFormatter name val => exact h.setFormatter name val hexist
  | setFormatterPattern name val =>
    unfold LoggerHistory.call LoggerManager.setFormatterPattern
    dsimp only
    split
    · exact h
    · exact h.setFormatter name _ hexist
  | setAppenderFormatter id val => exact h.setAppenderFormatter hexist val

/-- Where less is attached, with the same formatters. -/
theorem Inherits.mono (h : s.Inherits) {t : LoggerHistory}
    (hmono : ∀ name, ∀ id ∈ t.manager.attached name, id ∈ s.manager.attached name ∧
      t.manager.formatter id = s.manager.formatter id ∧ t.expected name id = s.expected name id) :
    t.Inherits := by
  intro name id hid
  obtain ⟨hbefore, hformatter, hexpected⟩ := hmono name id hid
  rw [hformatter, hexpected]
  exact h name id hbefore

theorem expected_of_own {name : String} {id : Nat} (h : s.own id ≠ none) :
    s.expected name id = s.own id := by
  unfold expected
  cases hown : s.own id with
  | none => exact absurd hown h
  | some f => rfl

theorem expected_of_none {name : String} {id : Nat} (h : s.own id = none) :
    s.expected name id = s.manager.getFormatter name := by
  rw [expected, h, Option.none_or]

/-- `Logger::setFormatter`. -/
theorem inherits_setFormatter (hs : s.Sound) (hi : s.Inherits) {name : String}
    (hl : (s.manager.m_loggers name).isSome) (val : Option LogFormatter) :
    Inherits ⟨s.manager.setFormatter name val, s.own⟩ ↔ s.SetOk name val := by
  obtain ⟨logger, hl⟩ := Option.isSome_iff_exists.mp hl
  have hformatter : ∀ id, (s.manager.setFormatter name val).formatter id =
      if id ∈ s.manager.attached name ∧ s.own id = none then val else s.manager.formatter id :=
    formatter_setFormatter hs name val
  have hexpected : ∀ other id, s.own id = none →
      expected ⟨s.manager.setFormatter name val, s.own⟩ other id =
        if other = name then val else s.manager.getFormatter other := by
    intro other id hown
    exact (expected_of_none (s := ⟨s.manager.setFormatter name val, s.own⟩) hown).trans
      (getFormatter_setFormatter hl val other)
  unfold Inherits SetOk
  simp only [attached_setFormatter hl, hformatter]
  constructor
  · intro h id hid hown
    obtain ⟨hne, -⟩ := h name id hid
    rw [if_pos ⟨hid, hown⟩] at hne
    refine ⟨hne, fun other hother hmem => ?_⟩
    obtain ⟨-, heq⟩ := h other id hmem
    rw [if_pos ⟨hid, hown⟩, hexpected other id hown, if_neg hother] at heq
    exact heq.symm
  · intro h other id hid
    by_cases hown : s.own id = none
    · rw [hexpected other id hown]
      by_cases hmem : id ∈ s.manager.attached name
      · obtain ⟨hne, hothers⟩ := h id hmem hown
        rw [if_pos ⟨hmem, hown⟩]
        refine ⟨hne, ?_⟩
        split
        · rfl
        · exact (hothers other ‹_› hid).symm
      · have hother : other ≠ name := fun heq => hmem (heq ▸ hid)
        rw [if_neg fun hand => hmem hand.1, if_neg hother, ← expected_of_none hown]
        exact hi other id hid
    · have hsame : expected ⟨s.manager.setFormatter name val, s.own⟩ other id = s.own id :=
        expected_of_own hown
      have hbefore : s.expected other id = s.own id := expected_of_own hown
      rw [if_neg fun hand => hown hand.2, hsame, ← hbefore]
      exact hi other id hid

/-- `Logger::addAppender`. -/
theorem inherits_addAppender (hs : s.Sound) (hi : s.Inherits) {name : String} {id : Nat}
    (hexist : s.Exist (.addAppender name id)) :
    (s.call (.addAppender name id)).Inherits ↔ s.Ok (.addAppender name id) := by
  obtain ⟨hl, hid⟩ := hexist
  obtain ⟨logger, hl⟩ := Option.isSome_iff_exists.mp hl
  have hexpected : ∀ other k, (s.call (.addAppender name id)).expected other k =
      s.expected other k := by
    intro other k
    have hsame : (s.manager.addAppender name id).getFormatter other =
        s.manager.getFormatter other := getFormatter_modifyLogger hl rfl other
    exact congrArg (s.own k).or hsame
  have hformatter : ∀ k, (s.call (.addAppender name id)).manager.formatter k =
      if k = id then (s.manager.formatter id).or (s.manager.getFormatter name)
      else s.manager.formatter k := formatter_addAppender hid name
  have hattached : ∀ other, (s.call (.addAppender name id)).manager.attached other =
      if other = name then s.manager.attached name ++ [id] else s.manager.attached other :=
    attached_addAppender hl id
  constructor
  · intro h hown
    have hmem : id ∈ (s.call (.addAppender name id)).manager.attached name := by
      rw [hattached, if_pos rfl]
      exact List.mem_append_right _ (List.mem_singleton_self id)
    obtain ⟨hne, heq⟩ := h name id hmem
    rw [hexpected, expected_of_none hown] at heq
    rw [heq] at hne
    refine ⟨hne, ?_⟩
    rw [hformatter, if_pos rfl] at heq
    cases hf : s.manager.formatter id with
    | none => exact .inl rfl
    | some f =>
      rw [hf] at heq
      exact .inr heq
  · intro h other k hk
    rw [hexpected, hformatter]
    by_cases hki : k = id
    · rw [if_pos hki, hki]
      by_cases hown : s.own id = none
      · obtain ⟨hcur, hold⟩ := h hown
        have hnew : (s.manager.formatter id).or (s.manager.getFormatter name) =
            s.manager.getFormatter name := by
          rcases hold with hnone | hsame
          · rw [hnone, Option.none_or]
          · rw [hsame, Option.or_self]
        rw [hnew, expected_of_none hown]
        refine ⟨hcur, ?_⟩
        by_cases hother : other = name
        · rw [hother]
        · rw [hattached, if_neg hother, hki] at hk
          obtain ⟨hne, heq⟩ := hi other id hk
          rw [expected_of_none hown] at heq
          rcases hold with hnone | hsame
          · exact absurd hnone hne
          · exact hsame.symm.trans heq
      · rw [hs.formatter_eq hown, expected_of_own hown]
        cases hf : s.own id with
        | none => exact absurd hf hown
        | some f => exact ⟨Option.some_ne_none f, rfl⟩
    · rw [if_neg hki]
      rw [hattached] at hk
      split at hk
      · rcases List.mem_append.mp hk with hbefore | hnew
        · exact ‹other = name› ▸ hi name k hbefore
        · exact absurd (List.mem_singleton.mp hnew) hki
      · exact hi other k hk

/-- `LogAppender::setFormatter`. -/
theorem inherits_setAppenderFormatter (hi : s.Inherits) {id : Nat} (val : Option LogFormatter)
    (hid : id < s.manager.appenders.length) :
    (s.call (.setAppenderFormatter id val)).Inherits ↔ s.Ok (.setAppenderFormatter id val) := by
  have hformatter : ∀ k, (s.call (.setAppenderFormatter id val)).manager.formatter k =
      if k = id then val else s.manager.formatter k := formatter_setAppenderFormatter hid val
  constructor
  · rintro h rfl name hmem
    have hne := (h name id hmem).1
    rw [hformatter, if_pos rfl] at hne
    exact hne rfl
  · intro h name k hk
    rw [hformatter]
    by_cases hki : k = id
    · subst hki
      have hne : val ≠ none := fun hnone => h hnone name hk
      have hown : (s.call (.setAppenderFormatter k val)).own k = val := Function.update_self ..
      rw [if_pos rfl, expected_of_own (hown.symm ▸ hne), hown]
      exact ⟨hne, rfl⟩
    · have hown : (s.call (.setAppenderFormatter id val)).own k = s.own k :=
        Function.update_of_ne hki ..
      have hexpected : (s.call (.setAppenderFormatter id val)).expected name k =
          s.expected name k := by
        unfold expected
        rw [hown]
        rfl
      rw [if_neg hki, hexpected]
      exact hi name k hk

/-- **Step lemma.** Which calls keep the formatters right. -/
theorem inherits_call (hs : s.Sound) (hi : s.Inherits) {c : LoggerCall} (hexist : s.Exist c) :
    (s.call c).Inherits ↔ s.Ok c := by
  cases c with
  | getLogger name =>
    refine iff_of_true (hi.mono fun other id hid => ?_) trivial
    have hbefore : id ∈ s.manager.attached other := by
      rw [← attached_getLogger s.manager name]
      exact hid
    refine ⟨hbefore, ?_, congrArg (s.own id).or (getFormatter_getLogger hbefore name)⟩
    show (s.manager.getLogger name).formatter id = _
    unfold formatter
    rw [getLogger_appenders]
  | newAppender kind level =>
    exact iff_of_true (hi.mono fun other id hid =>
      ⟨hid, formatter_newAppender (hs.valid.attached hid) _, rfl⟩) trivial
  | addAppender name id => exact inherits_addAppender hs hi hexist
  | delAppender name id =>
    obtain ⟨logger, hl⟩ := Option.isSome_iff_exists.mp hexist.1
    exact iff_of_true (hi.mono fun other k hk => ⟨mem_attached_delAppender hl hk, rfl,
      congrArg (s.own k).or (getFormatter_modifyLogger hl rfl other)⟩) trivial
  | clearAppenders name =>
    obtain ⟨logger, hl⟩ := Option.isSome_iff_exists.mp hexist
    exact iff_of_true (hi.mono fun other k hk => ⟨mem_attached_clearAppenders hl hk, rfl,
      congrArg (s.own k).or (getFormatter_modifyLogger hl rfl other)⟩) trivial
  | setFormatter name val => exact inherits_setFormatter hs hi hexist val
  | setFormatterPattern name val =>
    unfold LoggerHistory.call LoggerManager.setFormatterPattern Ok
    dsimp only
    split
    · have herror : (LogFormatter.make val).m_error = true := ‹_›
      refine iff_of_true hi fun hfalse => ?_
      rw [herror] at hfalse
      cases hfalse
    · have herror : (LogFormatter.make val).m_error = false := Bool.eq_false_iff.mpr ‹_›
      rw [inherits_setFormatter hs hi hexist]
      exact ⟨fun hok _ => hok, fun hok => hok herror⟩
  | setAppenderFormatter id val => exact inherits_setAppenderFormatter hi val hexist

/-- What an appender of a logger is formatted through. -/
theorem logAppenders_right (hi : s.Inherits) {name : String} {level : LogLevel} {format : LogFormat}
    (h : format ∈ s.manager.logAppenders name level) :
    format.formatter ≠ none ∧ format.formatter = s.expected format.logger format.appender := by
  obtain ⟨id, hid, happender⟩ := List.mem_filterMap.mp h
  obtain ⟨appender, hget, hformat⟩ := Option.bind_eq_some_iff.mp happender
  have hformatter : s.manager.formatter id = appender.m_formatter := by
    unfold formatter
    rw [hget]
    rfl
  split at hformat
  · cases hformat
    have hright := hi name id hid
    rwa [hformatter] at hright
  · cases hformat

theorem Inherits.logsRight (hi : s.Inherits) : s.LogsRight := by
  intro name level format hformat
  unfold log at hformat
  split at hformat
  · split at hformat
    · exact logAppenders_right hi hformat
    · split at hformat
      · exact logAppenders_right hi hformat
      · cases hformat
  · cases hformat

theorem sound_start : start.Sound where
  valid _ _ hl := by cases hl
  owns _ _ hid := by cases hid
  fresh _ _ := rfl

theorem inherits_start : start.Inherits := fun _ _ hid => by cases hid

/-- **Inherited formatters.** The calls of a sequence all leave every attached appender with its own
formatter or that of its logger, and `Logger::log` with no other, exactly when each of them meets
`Ok`. -/
theorem inherits_iff (calls : List LoggerCall) (s : LoggerHistory) :
    Run (fun u c v => u.next c = some v ∧ v.Inherits ∧ v.LogsRight) start calls s ↔
      Run (Guard Ok fun u c v => u.next c = some v) start calls s := by
  have hnext : ∀ {u : LoggerHistory} {c v}, u.next c = some v → u.Exist c ∧ u.call c = v := by
    intro u c v h
    unfold next at h
    split at h
    · exact ⟨‹_›, Option.some.inj h⟩
    · cases h
  refine Run.into_iff (I := fun u => u.Sound ∧ u.Inherits) ?_ ?_ ⟨sound_start, inherits_start⟩
  · rintro u c v ⟨hs, hi⟩ hok h
    obtain ⟨hexist, rfl⟩ := hnext h
    have hv := (inherits_call hs hi hexist).mpr hok
    exact ⟨⟨hs.call hexist, hv⟩, hv, hv.logsRight⟩
  · rintro u c v ⟨hs, hi⟩ hbad h ⟨hv, -⟩
    obtain ⟨hexist, rfl⟩ := hnext h
    exact hbad ((inherits_call hs hi hexist).mp hv)

/-- An appender of a logger is left without a formatter. -/
theorem formatter_cleared : ¬∀ calls s,
    Run (fun u c v => next u c = some v) start calls s → s.Inherits ∧ s.LogsRight := by
  intro h
  have hrun : Run (fun u c v => next u c = some v) start [.getLogger "a",
      .newAppender .StdoutLogAppender .DEBUG, .addAppender "a" 0, .setAppenderFormatter 0 none] _ :=
    .of_exec_isSome (fun _ _ _ hnext => hnext) rfl
  exact (h _ _ hrun).1 "a" 0 (by decide) |>.1 (by decide)

end LoggerHistory

end Captain
