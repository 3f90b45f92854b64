import Captain.Log.Define

/-!
# A new set of defines (`captain/log.cpp`, `captain/include/config.h`)

`ConfigVar<std::set<LogDefine>>::setValue` compares the new set with the current one by
`LogDefine::operator==`, which does not look at the appenders of its argument.

* `change_noticed_iff`: the operator tells changed defines apart, and the new set is announced and
  stored, unless a define changes in its appenders only.
-/

namespace Captain

/-- `LogAppenderDefine::operator==`. -/
def LogAppenderDefine.eq (a b : LogAppenderDefine) : Bool :=
  a.type = b.type && a.level = b.level && a.formatter = b.formatter && a.file = b.file

theorem LogAppenderDefine.eq_iff {a b : LogAppenderDefine} : a.eq b = true ↔ a = b := by
  cases a
  cases b
  simp only [LogAppenderDefine.eq, Bool.and_eq_true, decide_eq_true_eq,
    LogAppenderDefine.mk.injEq, and_assoc]

/-- What `operator==` looks at. -/
def LogDefine.withoutAppenders (d : LogDefine) : LogDefine :=
  { d with appenders := [] }

theorem LogDefine.eq_iff_withoutAppenders {a b : LogDefine} :
    a.eq b = true ↔ a.withoutAppenders = b.withoutAppenders := by
  rw [LogDefine.eq_iff]
  cases a
  cases b
  simp only [LogDefine.withoutAppenders, LogDefine.mk.injEq, and_true]

theorem LogDefine.eq_of_withoutAppenders {a b : LogDefine}
    (h : a.withoutAppenders = b.withoutAppenders) (happ : a.appenders = b.appenders) : a = b := by
  obtain ⟨hname, hlevel, hformatter⟩ :=
    LogDefine.eq_iff.mp (LogDefine.eq_iff_withoutAppenders.mpr h)
  cases a
  cases b
  simp only at hname hlevel hformatter happ
  rw [hname, hlevel, hformatter, happ]

namespace DefineSet

/-- `==` of two `std::set`s: the sizes, then the elements in order. -/
def eq (a b : DefineSet) : Bool :=
  a.toList.length = b.toList.length && (a.toList.zip b.toList).all fun p => p.1.eq p.2

theorem all_zip_iff {l m : List LogDefine} (h : l.length = m.length) :
    ((l.zip m).all fun p => p.1.eq p.2) = true ↔
      l.map LogDefine.withoutAppenders = m.map LogDefine.withoutAppenders := by
  induction l generalizing m with
  | nil =>
    rw [List.eq_nil_of_length_eq_zero h.symm]
    exact iff_of_true rfl rfl
  | cons d l ih =>
    cases m with
    | nil => exact absurd h (Nat.succ_ne_zero _)
    | cons e m =>
      rw [List.zip_cons_cons, List.all_cons, Bool.and_eq_true, ih (Nat.succ.inj h),
        LogDefine.eq_iff_withoutAppenders, List.map_cons, List.map_cons, List.cons.injEq]

theorem eq_iff {a b : DefineSet} :
    a.eq b = true ↔
      a.toList.map LogDefine.withoutAppenders = b.toList.map LogDefine.withoutAppenders := by
  unfold DefineSet.eq
  rw [Bool.and_eq_true, decide_eq_true_eq]
  constructor
  · rintro ⟨hlen, hall⟩
    exact (all_zip_iff hlen).mp hall
  · intro h
    have hlen : a.toList.length = b.toList.length := by
      simpa only [List.length_map] using congrArg List.length h
    exact ⟨hlen, (all_zip_iff hlen).mpr h⟩

/-- `setValue` in one thread: the calls of the listeners, each with its identifier, the old value
and the new one; and the value at the end. -/
def setValue (m_cbs : List Nat) (m_val v : DefineSet) :
    List (Nat × DefineSet × DefineSet) × DefineSet :=
  if v.eq m_val then ([], m_val) else (m_cbs.map fun i => (i, m_val, v), v)

/-- `operator==` tells entries that differ apart. -/
def Distinguishes (old new : DefineSet) : Prop :=
  ∀ d ∈ old.toList, ∀ e ∈ new.toList, d ≠ e → d.eq e = false

/-- Whatever listeners there are, they are called with the two values, and the new one is stored. -/
def Announces (old new : DefineSet) : Prop :=
  ∀ m_cbs, setValue m_cbs old new = (m_cbs.map fun i => (i, old, new), new)

/-- No entry has changed in its appenders only. -/
def AppendersKept (old new : DefineSet) : Prop :=
  ∀ d ∈ old.toList, ∀ e ∈ new.toList,
    d.withoutAppenders = e.withoutAppenders → d.appenders = e.appenders

theorem distinguishes_iff {old new : DefineSet} :
    Distinguishes old new ↔ AppendersKept old new := by
  constructor
  · intro h d hd e he hsame
    by_contra happ
    have hne : d ≠ e := fun hde => happ (congrArg LogDefine.appenders hde)
    have heq := LogDefine.eq_iff_withoutAppenders.mpr hsame
    rw [h d hd e he hne] at heq
    exact absurd heq Bool.false_ne_true
  · intro h d hd e he hne
    rw [Bool.eq_false_iff]
    intro heq
    have hsame := LogDefine.eq_iff_withoutAppenders.mp heq
    exact hne (LogDefine.eq_of_withoutAppenders hsame (h d hd e he hsame))

theorem announces_iff {old new : DefineSet} (hne : old ≠ new) :
    Announces old new ↔
      new.toList.map LogDefine.withoutAppenders ≠ old.toList.map LogDefine.withoutAppenders := by
  rw [ne_eq, ← eq_iff]
  constructor
  · intro h heq
    have hval : (setValue [] old new).2 = new := congrArg Prod.snd (h [])
    unfold setValue at hval
    rw [if_pos heq] at hval
    exact hne hval
  · intro h m_cbs
    exact if_neg h

/-- Lists of defines that agree without the appenders, and in them, are the same. -/
theorem eq_of_map_withoutAppenders {l m : List LogDefine}
    (hmap : m.map LogDefine.withoutAppenders = l.map LogDefine.withoutAppenders)
    (happ : ∀ d ∈ l, ∀ e ∈ m, d.withoutAppenders = e.withoutAppenders →
      d.appenders = e.appenders) : l = m := by
  induction l generalizing m with
  | nil => exact (List.map_eq_nil_iff.mp hmap).symm
  | cons d l ih =>
    cases m with
    | nil => exact absurd hmap (List.cons_ne_nil _ _).symm
    | cons e m =>
      obtain ⟨hde, hrest⟩ := List.cons.inj hmap
      have hhead : d = e :=
        LogDefine.eq_of_withoutAppenders hde.symm
          (happ d List.mem_cons_self e List.mem_cons_self hde.symm)
      have htail : l = m := ih hrest fun d' hd e' he =>
        happ d' (List.mem_cons_of_mem _ hd) e' (List.mem_cons_of_mem _ he)
      rw [hhead, htail]

theorem announces_of_appendersKept {old new : DefineSet} (hne : old ≠ new)
    (h : AppendersKept old new) : Announces old new := by
  refine (announces_iff hne).mpr fun hmap => hne ?_
  have hlist : old.toList = new.toList := eq_of_map_withoutAppenders hmap h
  cases old
  cases new
  simp only at hlist
  simp only [hlist]

/-- A change is noticed throughout unless it leaves a define with the same name, level and formatter
and other appenders; it is announced and stored unless it consists of such defines only. -/
theorem change_noticed_iff {old new : DefineSet} (hne : old ≠ new) :
    (Distinguishes old new ∧ Announces old new ↔ AppendersKept old new) ∧
      (Announces old new ↔
        new.toList.map LogDefine.withoutAppenders ≠ old.toList.map LogDefine.withoutAppenders) := by
  refine ⟨⟨fun h => distinguishes_iff.mp h.1, fun h => ?_⟩, announces_iff hne⟩
  exact ⟨distinguishes_iff.mpr h, announces_of_appendersKept hne h⟩

/-- The set with a define of the root logger. -/
def ofRoot (level : LogLevel) (appenders : List LogAppenderDefine) : DefineSet :=
  ⟨[⟨"root", level, "", appenders⟩], List.pairwise_singleton _ _⟩

theorem change_noticed_of_level : Distinguishes (ofRoot .INFO []) (ofRoot .DEBUG []) ∧
    Announces (ofRoot .INFO []) (ofRoot .DEBUG []) := by
  have hne : ofRoot .INFO [] ≠ ofRoot .DEBUG [] := fun hsame =>
    absurd (congrArg DefineSet.toList hsame) (by decide)
  refine (change_noticed_iff hne).1.mpr fun d hd e he _ => ?_
  rw [List.mem_singleton.mp hd, List.mem_singleton.mp he]

/-- A file appender is added to the root logger, and nothing happens. -/
theorem appender_change_missed :
    ¬∀ old new : DefineSet, old ≠ new → Distinguishes old new ∧ Announces old new := by
  intro h
  have hne : ofRoot .INFO [] ≠ ofRoot .INFO [{ type := 1, file := "/tmp/a.log" }] :=
    fun hsame => absurd (congrArg DefineSet.toList hsame) (by decide)
  have hstored := congrArg Prod.snd ((h _ _ hne).2 [])
  exact absurd (congrArg DefineSet.toList hstored) (by decide)

end DefineSet

end Captain
