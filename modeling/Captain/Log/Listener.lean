import Captain.Log.Define
import Captain.Log.Logger

/-!
# The listener of `LogIniter` (`captain/log.cpp`)

When the variable `logs` changes, the listener brings the loggers to the new set of defines. It has
no result where it calls a method of a null logger or a null appender.

* `onChange_updated_iff`: it runs to the end, with the loggers as the two sets say, exactly when no
  define of the new set equals the define of the same name in the old set, and every appender of the
  new set is for a file or for the standard output.
-/

namespace Captain

namespace LogAppenderDefine

/-- `ap.reset(..)`; the appender is null for other types than 1 and 2. -/
def newAppender (a : LogAppenderDefine) : Option LogAppender :=
  if a.type = 1 then some { kind := .FileLogAppender a.file }
  else if a.type = 2 then some { kind := .StdoutLogAppender }
  else none

/-- What the listener does with the new appender. -/
def configure (a : LogAppenderDefine) (ap : LogAppender) : LogAppender :=
  let ap := { ap with m_level := a.level }
  if a.formatter ≠ "" then
    let fmt := LogFormatter.make a.formatter
    if ¬fmt.m_error then ap.setFormatter (some fmt) else ap
  else ap

/-- There is a class for the type. -/
def Typed (a : LogAppenderDefine) : Prop := a.type = 1 ∨ a.type = 2

end LogAppenderDefine

namespace LoggerManager

/-- A round of the loop over the appenders of a define. -/
def addDefined (s : LoggerManager) (name : String) (a : LogAppenderDefine) :
    Option LoggerManager :=
  a.newAppender.map fun ap =>
    (s.newAppender (a.configure ap)).addAppender name s.appenders.length

/-- A round of the loop over the new set, when the logger is not null. -/
def applyDefine (s : LoggerManager) (i : LogDefine) : Option LoggerManager :=
  let s := s.setLevel i.name i.level
  let s := if i.formatter ≠ "" then s.setFormatterPattern i.name i.formatter else s
  let s := s.clearAppenders i.name
  i.appenders.foldlM (fun s a => s.addDefined i.name a) s

/-- A round of the loop over the new set. -/
def visitNew (old_value : DefineSet) (s : LoggerManager) (i : LogDefine) : Option LoggerManager :=
  let logger : Option LoggerManager :=
    match old_value.find i with
    | none => some (s.getLogger i.name)
    | some it => if !i.eq it then some (s.getLogger i.name) else none
  logger.bind fun s => s.applyDefine i

/-- A round of the loop over the old set. -/
def visitOld (new_value : DefineSet) (s : LoggerManager) (i : LogDefine) : LoggerManager :=
  match new_value.find i with
  | none => ((s.getLogger i.name).setLevel i.name .UNKNOW).clearAppenders i.name
  | some _ => s

/-- The listener. -/
def onChange (old_value new_value : DefineSet) (s : LoggerManager) : Option LoggerManager :=
  (new_value.toList.foldlM (visitNew old_value) s).map fun s =>
    old_value.toList.foldl (visitOld new_value) s

end LoggerManager

/-! ## What the sets say -/

/-- A formatter that is given and valid. -/
def validFormatter (formatter : String) : Bool :=
  formatter ≠ "" && !(LogFormatter.make formatter).m_error

/-- The formatter to be used, where the one in use is `val`. -/
def formatterOf (formatter : String) (val : Option LogFormatter) : Option LogFormatter :=
  if validFormatter formatter then some (LogFormatter.make formatter) else val

/-- The appender that a define describes, on a logger with the formatter `val`. -/
def LogAppenderDefine.describe (val : Option LogFormatter) (a : LogAppenderDefine) :
    LogAppender where
  kind := if a.type = 1 then .FileLogAppender a.file else .StdoutLogAppender
  m_level := a.level
  m_hasFormatter := validFormatter a.formatter
  m_formatter := formatterOf a.formatter val

namespace LoggerManager

/-- The logger of a define is as described, with appenders of its own. -/
def Described (d : LogDefine) (s s' : LoggerManager) : Prop :=
  ∃ logger, s'.m_loggers d.name = some logger ∧ logger.m_level = d.level ∧
    logger.m_formatter = formatterOf d.formatter (s.logger d.name).m_formatter ∧
    logger.m_appenders.map (s'.appenders[·]?) =
      d.appenders.map (fun a => some (a.describe logger.m_formatter)) ∧
    ∀ id ∈ logger.m_appenders, s.appenders.length ≤ id

/-- The loggers are as the change from the old set to the new one says. Of the appenders that were
there, only those of loggers that the new set names may have changed. -/
structure Updated (old_value new_value : DefineSet) (s s' : LoggerManager) : Prop where
  named : ∀ d ∈ new_value.toList, Described d s s'
  removed : ∀ d ∈ old_value.toList, (∀ e ∈ new_value.toList, e.name ≠ d.name) →
    s'.m_loggers d.name = some { s.logger d.name with m_level := .UNKNOW, m_appenders := [] }
  others : ∀ name, (∀ d ∈ new_value.toList, d.name ≠ name) →
    (∀ d ∈ old_value.toList, d.name ≠ name) → s'.m_loggers name = s.m_loggers name
  kept : ∀ id, id < s.appenders.length → (∀ d ∈ new_value.toList, id ∉ s.attached d.name) →
    s'.appenders[id]? = s.appenders[id]?

/-! ## One define -/

variable {s s' : LoggerManager} {name : String} {logger : Logger}

theorem newAppender_eq_none {a : LogAppenderDefine} (h : ¬a.Typed) : a.newAppender = none := by
  unfold LogAppenderDefine.newAppender
  rw [if_neg fun h1 => h (.inl h1), if_neg fun h2 => h (.inr h2)]

theorem newAppender_of_typed {a : LogAppenderDefine} (h : a.Typed) : a.newAppender =
    some { kind := if a.type = 1 then .FileLogAppender a.file else .StdoutLogAppender } := by
  unfold LogAppenderDefine.newAppender
  rcases h with h1 | h2
  · rw [if_pos h1, if_pos h1]
  · rw [if_neg (by omega), if_pos h2, if_neg (by omega)]

theorem adopt_configure (a : LogAppenderDefine) (val : Option LogFormatter) :
    LogAppender.adopt val (a.configure
        { kind := if a.type = 1 then .FileLogAppender a.file else .StdoutLogAppender }) =
      a.describe val := by
  unfold LogAppenderDefine.configure LogAppenderDefine.describe formatterOf validFormatter
  by_cases hempty : a.formatter = ""
  · simp [hempty, LogAppender.adopt]
  · cases herror : (LogFormatter.make a.formatter).m_error with
    | true => simp [hempty, herror, LogAppender.adopt]
    | false => simp [hempty, herror, LogAppender.adopt, LogAppender.setFormatter]

theorem modify_length_append {α : Type*} (l : List α) (a : α) (f : α → α) :
    (l ++ [a]).modify l.length f = l ++ [f a] := by
  induction l with
  | nil => rfl
  | cons b l ih => exact congrArg (b :: ·) ih

theorem addDefined_eq {a : LogAppenderDefine} (h : a.Typed)
    (hl : s.m_loggers name = some logger) : s.addDefined name a = some
      ⟨s.appenders ++ [a.describe logger.m_formatter], Function.update s.m_loggers name
        (some { logger with m_appenders := logger.m_appenders ++ [s.appenders.length] })⟩ := by
  unfold addDefined
  rw [newAppender_of_typed h, Option.map_some, Option.some_inj]
  unfold addAppender newAppender modifyLogger
  simp only [hl, Option.bind_some, Option.map_some, modify_length_append, adopt_configure]

/-- The loop over the appenders of a define. -/
theorem addDefined_fold (as : List LogAppenderDefine) (h : ∀ a ∈ as, a.Typed) :
    ∀ {s : LoggerManager} {logger : Logger}, s.m_loggers name = some logger →
      as.foldlM (fun s a => s.addDefined name a) s = some
        ⟨s.appenders ++ as.map (LogAppenderDefine.describe logger.m_formatter),
          Function.update s.m_loggers name (some { logger with
            m_appenders := logger.m_appenders ++ List.range' s.appenders.length as.length })⟩ := by
  induction as with
  | nil =>
    intro s logger hl
    simp [← hl]
  | cons a as ih =>
    intro s logger hl
    obtain ⟨ha, has⟩ := List.forall_mem_cons.mp h
    rw [List.foldlM_cons, addDefined_eq ha hl, Option.bind_eq_bind, Option.bind_some,
      ih has (Function.update_self ..)]
    simp [List.range'_succ]

/-- `setFormatter` with the formatter of a define. -/
theorem setFormatter_eq (hl : s.m_loggers name = some logger) (formatter : String) :
    ∃ appenders : List LogAppender, appenders.length = s.appenders.length ∧
      (∀ id, id ∉ s.attached name → appenders[id]? = s.appenders[id]?) ∧
      (if formatter ≠ "" then s.setFormatterPattern name formatter else s) =
        ⟨appenders, Function.update s.m_loggers name
          (some { logger with m_formatter := formatterOf formatter logger.m_formatter })⟩ := by
  unfold setFormatterPattern formatterOf validFormatter
  by_cases hvalid : formatter ≠ "" ∧ (LogFormatter.make formatter).m_error = false
  · obtain ⟨hne, herror⟩ := hvalid
    obtain ⟨hlength, hkeep⟩ := setFormatter_appenders s name (some (LogFormatter.make formatter))
    refine ⟨_, hlength, hkeep, ?_⟩
    unfold setFormatter modifyLogger
    simp [hne, herror, hl]
  · refine ⟨s.appenders, rfl, fun _ _ => rfl, ?_⟩
    have hself : Function.update s.m_loggers name (some logger) = s.m_loggers :=
      Function.update_eq_self_iff.mpr hl.symm
    by_cases hne : formatter = ""
    · simp [hne, hself]
    · cases herror : (LogFormatter.make formatter).m_error with
      | true => simp [hne, hself]
      | false => exact absurd ⟨hne, herror⟩ hvalid

/-- A round of the loop over the new set. -/
theorem applyDefine_eq {i : LogDefine} (h : ∀ a ∈ i.appenders, a.Typed)
    (hl : s.m_loggers i.name = some logger) : ∃ appenders : List LogAppender,
      appenders.length = s.appenders.length ∧
      (∀ id, id ∉ s.attached i.name → appenders[id]? = s.appenders[id]?) ∧
      s.applyDefine i = some
        ⟨appenders ++ i.appenders.map
            (LogAppenderDefine.describe (formatterOf i.formatter logger.m_formatter)),
          Function.update s.m_loggers i.name (some
            { logger with
              m_level := i.level
              m_formatter := formatterOf i.formatter logger.m_formatter
              m_appenders := List.range' s.appenders.length i.appenders.length })⟩ := by
  have hlevel : (s.setLevel i.name i.level).m_loggers i.name =
      some { logger with m_level := i.level } := by
    unfold setLevel
    rw [modifyLogger_m_loggers hl, Function.update_self]
  obtain ⟨appenders, hlength, hkeep, hset⟩ := setFormatter_eq hlevel i.formatter
  have hattached : (s.setLevel i.name i.level).attached i.name = s.attached i.name := by
    unfold attached
    rw [hlevel, hl]
    rfl
  have happenders : (s.setLevel i.name i.level).appenders = s.appenders := rfl
  rw [happenders] at hlength hkeep
  rw [hattached] at hkeep
  refine ⟨appenders, hlength, hkeep, ?_⟩
  have hclear : ∀ logger', (⟨appenders, Function.update (s.setLevel i.name i.level).m_loggers i.name
      (some logger')⟩ : LoggerManager).clearAppenders i.name =
        ⟨appenders,
          Function.update s.m_loggers i.name (some { logger' with m_appenders := [] })⟩ := by
    intro logger'
    unfold clearAppenders setLevel
    rw [modifyLogger_m_loggers hl, Function.update_idem]
    unfold modifyLogger
    simp
  unfold applyDefine
  simp only [hset, hclear]
  rw [addDefined_fold i.appenders h (Function.update_self ..)]
  simp [hlength]

/-! ## The new set -/

/-- The listener has a logger for the define, and an appender for each of its appenders. -/
def Sound (old_value : DefineSet) (i : LogDefine) : Prop :=
  (∀ it, old_value.find i = some it → i.eq it = false) ∧ ∀ a ∈ i.appenders, a.Typed

/-- The defines `ds` are in force, and nothing else has changed. -/
structure InForce (ds : List LogDefine) (s s' : LoggerManager) : Prop where
  named : ∀ d ∈ ds, Described d s s'
  others : ∀ name, (∀ d ∈ ds, d.name ≠ name) → s'.m_loggers name = s.m_loggers name
  kept : ∀ id, id < s.appenders.length → (∀ d ∈ ds, id ∉ s.attached d.name) →
    s'.appenders[id]? = s.appenders[id]?
  size : s.appenders.length ≤ s'.appenders.length
  valid : s.Valid → s'.Valid

theorem visitNew_of_sound {old_value : DefineSet} {i : LogDefine} (h : Sound old_value i)
    (s : LoggerManager) : visitNew old_value s i = (s.getLogger i.name).applyDefine i := by
  unfold visitNew
  cases hfind : old_value.find i with
  | none => rfl
  | some it => simp [h.1 it hfind]

theorem map_getElem?_range' {α : Type*} (l xs : List α) :
    (List.range' l.length xs.length).map ((l ++ xs)[·]?) = xs.map some := by
  apply List.ext_getElem
  · simp
  · intro j hj hj'
    simp [List.getElem?_append_right]

theorem inForce_visitNew {old_value : DefineSet} {i : LogDefine} (h : Sound old_value i)
    (s : LoggerManager) : ∃ s', visitNew old_value s i = some s' ∧ InForce [i] s s' := by
  have hloggers := getLogger_m_loggers s i.name
  have hl : (s.getLogger i.name).m_loggers i.name = some (s.logger i.name) := by
    rw [hloggers, Function.update_self]
  obtain ⟨appenders, hlength, hkeep, hs'⟩ := applyDefine_eq h.2 hl
  have hattached : (s.getLogger i.name).attached i.name = s.attached i.name := by
    unfold attached
    rw [hl]
    unfold LoggerManager.logger
    cases s.m_loggers i.name <;> rfl
  rw [getLogger_appenders] at hlength
  rw [getLogger_appenders, hattached] at hkeep
  rw [hloggers, Function.update_idem, getLogger_appenders] at hs'
  refine ⟨_, (visitNew_of_sound h s).trans hs', ?_⟩
  refine ⟨?_, ?_, ?_, ?_, ?_⟩
  · intro d hd
    rw [List.mem_singleton.mp hd]
    refine ⟨_, Function.update_self .., rfl, rfl, ?_, ?_⟩
    · have hmap := map_getElem?_range' appenders
        (i.appenders.map (LogAppenderDefine.describe
          (formatterOf i.formatter (s.logger i.name).m_formatter)))
      rw [List.length_map, hlength, List.map_map] at hmap
      exact hmap
    · intro id hid
      exact (List.mem_range'_1.mp hid).1
  · intro name hname
    exact Function.update_of_ne (Ne.symm (hname i List.mem_cons_self)) _ _
  · intro id hid hno
    rw [← hlength] at hid
    show (appenders ++ _)[id]? = _
    rw [List.getElem?_append_left hid]
    exact hkeep id (hno i List.mem_cons_self)
  · show s.appenders.length ≤ (appenders ++ _).length
    rw [List.length_append, hlength]
    omega
  · intro hvalid name logger' hlogger' id hid
    show id < (appenders ++ _).length
    rw [List.length_append, List.length_map, hlength]
    change Function.update s.m_loggers i.name _ name = some logger' at hlogger'
    by_cases hname : name = i.name
    · rw [hname, Function.update_self] at hlogger'
      cases hlogger'
      exact (List.mem_range'_1.mp hid).2
    · rw [Function.update_of_ne hname] at hlogger'
      have := hvalid name logger' hlogger' id hid
      omega

theorem InForce.cons {d : LogDefine} {ds : List LogDefine} {s₁ : LoggerManager} (hvalid : s.Valid)
    (h : InForce [d] s s₁) (h' : InForce ds s₁ s') (hd : ∀ e ∈ ds, e.name ≠ d.name) :
    InForce (d :: ds) s s' := by
  have hother : ∀ e ∈ ds, s₁.m_loggers e.name = s.m_loggers e.name := by
    intro e he
    apply h.others
    intro d' hd'
    rw [List.mem_singleton.mp hd']
    exact Ne.symm (hd e he)
  refine ⟨?_, ?_, ?_, h.size.trans h'.size, fun hv => h'.valid (h.valid hv)⟩
  · intro e he
    rcases List.mem_cons.mp he with rfl | he
    · obtain ⟨logger, hlogger, hlevel, hformatter, happenders, hfresh⟩ :=
        h.named e List.mem_cons_self
      refine ⟨logger, (h'.others e.name hd).trans hlogger, hlevel, hformatter, ?_, hfresh⟩
      rw [← happenders]
      apply List.map_congr_left
      intro id hid
      apply h'.kept id (h.valid hvalid e.name logger hlogger id hid)
      intro e' he' hid'
      rw [attached_congr (hother e' he')] at hid'
      have := hvalid.attached hid'
      have := hfresh id hid
      omega
    · obtain ⟨logger, hlogger, hlevel, hformatter, happenders, hfresh⟩ := h'.named e he
      rw [logger_congr (hother e he)] at hformatter
      exact ⟨logger, hlogger, hlevel, hformatter, happenders,
        fun id hid => h.size.trans (hfresh id hid)⟩
  · intro name hname
    obtain ⟨hd', hds⟩ := List.forall_mem_cons.mp hname
    rw [h'.others name hds]
    exact h.others name fun e he => List.mem_singleton.mp he ▸ hd'
  · intro id hid hno
    obtain ⟨hd', hds⟩ := List.forall_mem_cons.mp hno
    rw [h'.kept id (Nat.lt_of_lt_of_le hid h.size) fun e he => ?_]
    · exact h.kept id hid fun e he => List.mem_singleton.mp he ▸ hd'
    · rw [attached_congr (hother e he)]
      exact hds e he

/-- The loop over the new set. -/
theorem inForce_fold {old_value : DefineSet} (ds : List LogDefine)
    (hsound : ∀ d ∈ ds, Sound old_value d) (hnodup : (ds.map LogDefine.name).Nodup) :
    ∀ {s : LoggerManager}, s.Valid → ∃ s', ds.foldlM (visitNew old_value) s = some s' ∧
      InForce ds s s' := by
  induction ds with
  | nil =>
    intro s _
    refine ⟨s, rfl, fun d hd => (by cases hd), fun _ _ => rfl, fun _ _ _ => rfl, le_rfl, id⟩
  | cons d ds ih =>
    intro s hvalid
    obtain ⟨hd, hds⟩ := List.forall_mem_cons.mp hsound
    obtain ⟨hname, hnodup⟩ := List.nodup_cons.mp hnodup
    obtain ⟨s₁, hs₁, hforce⟩ := inForce_visitNew hd s
    obtain ⟨s', hs', hforce'⟩ := ih hds hnodup (hforce.valid hvalid)
    refine ⟨s', ?_, hforce.cons hvalid hforce' ?_⟩
    · rw [List.foldlM_cons, hs₁]
      exact hs'
    · intro e he heq
      exact hname (List.mem_map.mpr ⟨e, he, heq⟩)

/-- A loop whose rounds fail or not whatever the state is. -/
theorem isSome_foldlM {σ α : Type*} {f : σ → α → Option σ} {P : α → Prop}
    (hf : ∀ s a, (f s a).isSome = true → P a) (l : List α) (s : σ)
    (h : (l.foldlM f s).isSome = true) : ∀ a ∈ l, P a := by
  induction l generalizing s with
  | nil => exact fun a ha => by cases ha
  | cons a l ih =>
    rw [List.foldlM_cons] at h
    cases hfa : f s a with
    | none =>
      rw [hfa] at h
      cases h
    | some t =>
      rw [hfa] at h
      exact List.forall_mem_cons.mpr ⟨hf s a (by rw [hfa]; rfl), ih t h⟩

theorem sound_of_visitNew {old_value : DefineSet} {i : LogDefine}
    (h : (visitNew old_value s i).isSome = true) : Sound old_value i := by
  have happly : ∀ t : LoggerManager, (t.applyDefine i).isSome = true →
      ∀ a ∈ i.appenders, a.Typed := by
    intro t ht
    apply isSome_foldlM (P := LogAppenderDefine.Typed) _ _ _ ht
    intro u a hu
    by_contra hno
    unfold addDefined at hu
    rw [newAppender_eq_none hno] at hu
    cases hu
  unfold visitNew at h
  cases hfind : old_value.find i with
  | none =>
    rw [hfind] at h
    exact ⟨fun it hit => (by rw [hfind] at hit; cases hit), happly _ h⟩
  | some it =>
    rw [hfind] at h
    cases heq : i.eq it with
    | true =>
      simp [heq] at h
    | false =>
      refine ⟨fun it' hit' => ?_, happly (s.getLogger i.name) ?_⟩
      · rw [hfind] at hit'
        cases hit'
        exact heq
      · simpa [heq] using h

/-! ## The old set -/

/-- What the loop leaves of the logger of a define that was removed. -/
def removed (s : LoggerManager) (name : String) : Logger :=
  { s.logger name with m_level := .UNKNOW, m_appenders := [] }

theorem visitOld_eq (new_value : DefineSet) (s : LoggerManager) (i : LogDefine) :
    visitOld new_value s i = if new_value.find i = none then
      ⟨s.appenders, Function.update s.m_loggers i.name (some (s.removed i.name))⟩ else s := by
  unfold visitOld
  cases new_value.find i with
  | some it => rfl
  | none =>
    unfold setLevel clearAppenders modifyLogger removed
    simp [getLogger_m_loggers, getLogger_appenders]

/-- The loop over the old set. -/
theorem visitOld_fold (new_value : DefineSet) (ds : List LogDefine)
    (hnodup : (ds.map LogDefine.name).Nodup) : ∀ s : LoggerManager,
    (ds.foldl (visitOld new_value) s).appenders = s.appenders ∧
      (∀ d ∈ ds, new_value.find d = none →
        (ds.foldl (visitOld new_value) s).m_loggers d.name = some (s.removed d.name)) ∧
      ∀ name, (∀ d ∈ ds, new_value.find d = none → d.name ≠ name) →
        (ds.foldl (visitOld new_value) s).m_loggers name = s.m_loggers name := by
  induction ds with
  | nil => exact fun s => ⟨rfl, fun d hd => (by cases hd), fun _ _ => rfl⟩
  | cons d ds ih =>
    intro s
    obtain ⟨hd, hnodup⟩ := List.nodup_cons.mp hnodup
    obtain ⟨happenders, hremoved, hothers⟩ := ih hnodup (visitOld new_value s d)
    have hne : ∀ e ∈ ds, d.name ≠ e.name := fun e he heq =>
      hd (List.mem_map.mpr ⟨e, he, heq.symm⟩)
    have hkeep : ∀ name, (new_value.find d = none → d.name ≠ name) →
        (visitOld new_value s d).m_loggers name = s.m_loggers name := by
      intro name hname
      rw [visitOld_eq]
      split
      · rename_i hnone
        exact Function.update_of_ne (Ne.symm (hname hnone)) _ _
      · rfl
    rw [List.foldl_cons]
    refine ⟨happenders.trans ?_, ?_, ?_⟩
    · rw [visitOld_eq]
      split <;> rfl
    · intro e he hnone
      rcases List.mem_cons.mp he with rfl | he
      · rw [hothers e.name fun e' he' _ => (hne e' he').symm, visitOld_eq, if_pos hnone]
        exact Function.update_self ..
      · rw [hremoved e he hnone, removed, removed,
          logger_congr (hkeep e.name fun _ => hne e he)]
    · intro name hname
      obtain ⟨hd', hds⟩ := List.forall_mem_cons.mp hname
      rw [hothers name hds, hkeep name hd']

/-! ## The listener -/

/-- The listener runs to the end, with the loggers as the two sets say, exactly when no define of
the new set equals the define of the same name in the old set, and the appenders of the new set are
of type 1 or 2. -/
theorem onChange_updated_iff (old_value new_value : DefineSet) (h : s.Valid) :
    (∃ s', onChange old_value new_value s = some s' ∧ Updated old_value new_value s s') ↔
      (∀ i ∈ new_value.toList, ∀ it ∈ old_value.toList, it.name = i.name → i.eq it = false) ∧
        ∀ i ∈ new_value.toList, ∀ a ∈ i.appenders, a.type = 1 ∨ a.type = 2 := by
  constructor
  · rintro ⟨s', hs', -⟩
    obtain ⟨s₁, hs₁, -⟩ := Option.map_eq_some_iff.mp hs'
    have hsound : ∀ i ∈ new_value.toList, Sound old_value i := by
      apply isSome_foldlM (f := visitNew old_value) (P := Sound old_value) _ _ s
      · rw [hs₁]
        rfl
      · exact fun s i => sound_of_visitNew
    refine ⟨fun i hi it hit hname => ?_, fun i hi => (hsound i hi).2⟩
    exact (hsound i hi).1 it (old_value.find_eq_some_iff.mpr ⟨hit, hname⟩)
  · rintro ⟨hdiffer, htyped⟩
    have hsound : ∀ i ∈ new_value.toList, Sound old_value i := by
      refine fun i hi => ⟨fun it hit => ?_, htyped i hi⟩
      obtain ⟨hmem, hname⟩ := old_value.find_eq_some_iff.mp hit
      exact hdiffer i hi it hmem hname
    obtain ⟨s₁, hs₁, hforce⟩ := inForce_fold _ hsound new_value.names_nodup h
    obtain ⟨happenders, hremoved, hothers⟩ := visitOld_fold new_value _ old_value.names_nodup s₁
    refine ⟨_, by rw [onChange, hs₁]; rfl, ?_, ?_, ?_, ?_⟩
    · intro d hd
      obtain ⟨logger, hlogger, hrest⟩ := hforce.named d hd
      refine ⟨logger, ?_, ?_⟩
      · rw [hothers d.name fun e _ hnone hname =>
          (new_value.find_eq_none_iff.mp hnone) d hd hname.symm]
        exact hlogger
      · rw [happenders]
        exact hrest
    · intro d hd hno
      rw [hremoved d hd (new_value.find_eq_none_iff.mpr hno), removed,
        logger_congr (hforce.others d.name hno)]
    · intro name hnew hold
      rw [hothers name fun e he _ => hold e he]
      exact hforce.others name hnew
    · intro id hid hno
      rw [happenders]
      exact hforce.kept id hid hno

/-- A logger is removed and another one is added, with a file. -/
theorem onChange_updated_iff_replace : ∃ s',
    onChange ⟨[{ name := "a" }], by decide⟩
      ⟨[{ name := "b", appenders := [{ type := 1, file := "b.log" }] }], by decide⟩ make = some s' ∧
    Updated ⟨[{ name := "a" }], by decide⟩
      ⟨[{ name := "b", appenders := [{ type := 1, file := "b.log" }] }], by decide⟩ make s' := by
  apply (onChange_updated_iff _ _ valid_make).mpr
  decide

/-- The logger of a define that stays as it is is null. -/
theorem not_onChange_updated : ¬∀ (old_value new_value : DefineSet) (s : LoggerManager), s.Valid →
    ∃ s', onChange old_value new_value s = some s' ∧ Updated old_value new_value s s' := by
  intro hall
  obtain ⟨s', hs', -⟩ := hall ⟨[{ name := "a" }], by decide⟩
    ⟨[{ name := "a" }, { name := "b" }], by decide⟩ make valid_make
  have hnone : onChange ⟨[{ name := "a" }], by decide⟩
      ⟨[{ name := "a" }, { name := "b" }], by decide⟩ make = none := rfl
  rw [hnone] at hs'
  cases hs'

end LoggerManager

end Captain
