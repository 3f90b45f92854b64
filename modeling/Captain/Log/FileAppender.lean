import Captain.Log.Level
import Mathlib.Data.List.Flatten

/-!
# `FileLogAppender` (`captain/log.cpp`)

The appender with the file it writes to. The file can always be opened and written, and nobody else
touches it; opening it with the default mode truncates it. A call of `log` comes with the time that
it reads and with the text that the formatter makes of its event.

* `file_complete_iff`: the file has the texts of all accepted calls in order exactly when no
  accepted call comes in a later second than an accepted call with a text.
-/

namespace Captain

/-- A `std::ofstream`; `good` is its value as a condition. -/
structure OFStream where
  is_open : Bool
  good : Bool
  deriving DecidableEq, Repr

/-- `std::ofstream::close`, which fails on a stream that is not open. -/
def OFStream.close (stream : OFStream) : OFStream :=
  if stream.is_open then { stream with is_open := false } else { stream with good := false }

structure FileLogAppender where
  m_level : LogLevel
  m_lastTime : Nat
  m_filestream : OFStream
  /-- the file named `m_filename`, if there is one -/
  file : Option (List Char)
  deriving DecidableEq, Repr

structure LogCall where
  level : LogLevel
  now : Nat
  text : List Char

namespace FileLogAppender

/-- `m_filestream.open(m_filename)`, which fails on a stream that is open. -/
def openFile (appender : FileLogAppender) : FileLogAppender :=
  if appender.m_filestream.is_open then
    { appender with m_filestream := { appender.m_filestream with good := false } }
  else { appender with m_filestream := ⟨true, true⟩, file := some [] }

/-- `FileLogAppender::reopen`. -/
def reopen (appender : FileLogAppender) : FileLogAppender :=
  if appender.m_filestream.good then
    openFile { appender with m_filestream := appender.m_filestream.close }
  else openFile appender

/-- `m_filestream << text`. -/
def write (appender : FileLogAppender) (text : List Char) : FileLogAppender :=
  if appender.m_filestream.good ∧ appender.m_filestream.is_open then
    { appender with file := appender.file.map (· ++ text) }
  else { appender with m_filestream := { appender.m_filestream with good := false } }

/-- The constructor, where the file is `before`. -/
def make (before : Option (List Char)) : FileLogAppender :=
  reopen ⟨.DEBUG, 0, ⟨false, true⟩, before⟩

def setLevel (appender : FileLogAppender) (val : LogLevel) : FileLogAppender :=
  { appender with m_level := val }

/-- `FileLogAppender::log`. -/
def log (appender : FileLogAppender) (call : LogCall) : FileLogAppender :=
  if appender.m_level ≤ call.level then
    if call.now ≠ appender.m_lastTime then
      write { appender.reopen with m_lastTime := call.now } call.text
    else write appender call.text
  else appender

def logs (appender : FileLogAppender) (calls : List LogCall) : FileLogAppender :=
  calls.foldl log appender

/-- The calls that an appender of this level accepts. -/
def accepted (level : LogLevel) (calls : List LogCall) : List LogCall :=
  calls.filter fun call => level ≤ call.level

/-! ## What a call leaves in the file -/

/-- The stream is open and the file has `content`. -/
structure Holds (appender : FileLogAppender) (content : List Char) : Prop where
  stream : appender.m_filestream = ⟨true, true⟩
  file : appender.file = some content

variable {appender : FileLogAppender} {content : List Char}

theorem Holds.reopen (h : appender.Holds content) : appender.reopen.Holds [] := by
  unfold FileLogAppender.reopen openFile OFStream.close
  simp only [h.stream]
  exact ⟨rfl, rfl⟩

theorem Holds.write (h : appender.Holds content) (text : List Char) :
    (appender.write text).Holds (content ++ text) ∧
      (appender.write text).m_lastTime = appender.m_lastTime ∧
      (appender.write text).m_level = appender.m_level := by
  unfold FileLogAppender.write
  rw [if_pos ⟨congrArg OFStream.good h.stream, congrArg OFStream.is_open h.stream⟩]
  exact ⟨⟨h.stream, by rw [h.file]; rfl⟩, rfl, rfl⟩

theorem m_level_reopen (appender : FileLogAppender) :
    appender.reopen.m_level = appender.m_level := by
  unfold FileLogAppender.reopen openFile
  split <;> split <;> rfl

/-- An accepted call keeps what was written in its own second only. -/
theorem Holds.log (h : appender.Holds content) {call : LogCall}
    (hlevel : appender.m_level ≤ call.level) :
    (appender.log call).Holds
        ((if call.now = appender.m_lastTime then content else []) ++ call.text) ∧
      (appender.log call).m_lastTime = call.now ∧
      (appender.log call).m_level = appender.m_level := by
  unfold FileLogAppender.log
  rw [if_pos hlevel]
  by_cases hnow : call.now = appender.m_lastTime
  · rw [if_neg (not_not.mpr hnow), if_pos hnow, hnow]
    exact h.write call.text
  · rw [if_pos hnow, if_neg hnow]
    have hopen : ({ appender.reopen with m_lastTime := call.now } : FileLogAppender).Holds [] :=
      ⟨h.reopen.stream, h.reopen.file⟩
    obtain ⟨hfile, htime, hkeep⟩ := hopen.write call.text
    exact ⟨hfile, htime, hkeep.trans (m_level_reopen appender)⟩

theorem accepted_cons_of_le {level : LogLevel} {call : LogCall} (h : level ≤ call.level)
    (calls : List LogCall) : accepted level (call :: calls) = call :: accepted level calls :=
  List.filter_cons_of_pos (decide_eq_true h)

theorem accepted_cons_of_not_le {level : LogLevel} {call : LogCall} (h : ¬level ≤ call.level)
    (calls : List LogCall) : accepted level (call :: calls) = accepted level calls :=
  List.filter_cons_of_neg (by simpa using h)

/-- After calls at non-decreasing times, the file has the texts of the last second. -/
theorem Holds.logs (calls : List LogCall) : ∀ {appender : FileLogAppender} {content : List Char},
    appender.Holds content →
    (accepted appender.m_level calls).Pairwise (fun a b => a.now ≤ b.now) →
    (∀ call ∈ accepted appender.m_level calls, appender.m_lastTime ≤ call.now) →
    ∃ last, appender.m_lastTime ≤ last ∧
      (∀ call ∈ accepted appender.m_level calls, call.now ≤ last) ∧
      (last = appender.m_lastTime ∨ ∃ call ∈ accepted appender.m_level calls, call.now = last) ∧
      (appender.logs calls).Holds
        ((if last = appender.m_lastTime then content else []) ++
          ((accepted appender.m_level calls).filter (·.now = last)).flatMap LogCall.text) := by
  induction calls with
  | nil =>
    intro appender content h _ _
    refine ⟨appender.m_lastTime, Nat.le_refl _, fun call hcall => (by cases hcall), .inl rfl, ?_⟩
    rw [if_pos rfl]
    exact ⟨h.stream, h.file.trans (congrArg some (List.append_nil content).symm)⟩
  | cons call calls ih =>
    intro appender content h hsorted hmin
    by_cases hlevel : appender.m_level ≤ call.level
    · rw [accepted_cons_of_le hlevel] at hsorted hmin ⊢
      obtain ⟨hcall, hlast, hkeep⟩ := h.log hlevel
      obtain ⟨hfirst, hsorted⟩ := List.pairwise_cons.mp hsorted
      obtain ⟨last, hle, hall, hsome, hfile⟩ := ih hcall (hkeep ▸ hsorted) (by
        rw [hkeep, hlast]
        exact hfirst)
      rw [hkeep, hlast] at hsome hfile
      rw [hlast] at hle
      rw [hkeep] at hall
      have hstart := hmin call List.mem_cons_self
      refine ⟨last, Nat.le_trans hstart hle, ?_, ?_, ?_⟩
      · exact List.forall_mem_cons.mpr ⟨hle, hall⟩
      · rcases hsome with rfl | ⟨later, hlater, heq⟩
        · exact .inr ⟨call, List.mem_cons_self, rfl⟩
        · exact .inr ⟨later, List.mem_cons_of_mem _ hlater, heq⟩
      · by_cases hnow : call.now = last
        · rw [List.filter_cons_of_pos (by simpa using hnow), List.flatMap_cons, ← List.append_assoc]
          rw [if_pos hnow.symm, hnow] at hfile
          exact hfile
        · rw [List.filter_cons_of_neg (by simpa using hnow)]
          rw [if_neg (Ne.symm hnow)] at hfile
          have hne : last ≠ appender.m_lastTime := by
            omega
          rw [if_neg hne]
          exact hfile
    · rw [accepted_cons_of_not_le hlevel] at hsorted hmin ⊢
      have hsame : appender.log call = appender := if_neg hlevel
      have hlogs : appender.logs (call :: calls) = appender.logs calls := by
        show (calls.foldl FileLogAppender.log (appender.log call)) = _
        rw [hsame]
        rfl
      rw [hlogs]
      exact ih h hsorted hmin

/-- Leaving out elements changes nothing exactly when they contribute nothing. -/
theorem flatMap_filter_eq_iff {α β : Type*} (p : α → Bool) (f : α → List β) (l : List α) :
    (l.filter p).flatMap f = l.flatMap f ↔ ∀ x ∈ l, p x = false → f x = [] := by
  have hlength : ∀ l : List α, ((l.filter p).flatMap f).length ≤ (l.flatMap f).length := by
    intro l
    exact ((List.filter_sublist (l := l)).flatMap f).length_le
  induction l with
  | nil => simp
  | cons x l ih =>
    rw [List.forall_mem_cons, List.flatMap_cons]
    apply Iff.trans _ (and_congr_right fun _ => ih)
    cases hx : p x with
    | true =>
      rw [List.filter_cons_of_pos hx, List.flatMap_cons, List.append_cancel_left_eq]
      simp
    | false =>
      rw [List.filter_cons_of_neg (by simp [hx])]
      constructor
      · intro heq
        have hlen := congrArg List.length heq
        rw [List.length_append] at hlen
        have hnil : f x = [] := by
          apply List.eq_nil_of_length_eq_zero
          have := hlength l
          omega
        rw [hnil, List.nil_append] at heq
        exact ⟨fun _ => hnil, heq⟩
      · rintro ⟨hnil, heq⟩
        rw [hnil rfl, List.nil_append]
        exact heq

/-- The texts of the accepted calls are in the file, in order, exactly when no accepted call comes
in a later second than an accepted call with a text. -/
theorem file_complete_iff (before : Option (List Char)) (level : LogLevel) (calls : List LogCall)
    (h : (accepted level calls).Pairwise fun a b => a.now ≤ b.now) :
    (((make before).setLevel level).logs calls).file =
        some ((accepted level calls).flatMap LogCall.text) ↔
      (accepted level calls).Pairwise fun a b => a.now < b.now → a.text = [] := by
  have hmake : ((make before).setLevel level).Holds [] := ⟨rfl, rfl⟩
  obtain ⟨last, -, hall, hsome, hfile⟩ := hmake.logs calls h fun call _ => Nat.zero_le _
  change ∀ call ∈ accepted level calls, call.now ≤ last at hall
  change last = 0 ∨ ∃ call ∈ accepted level calls, call.now = last at hsome
  have hcontent : (((make before).setLevel level).logs calls).file =
      some (((accepted level calls).filter (·.now = last)).flatMap LogCall.text) := by
    rw [hfile.file, ite_self]
    rfl
  rw [hcontent, Option.some_inj, flatMap_filter_eq_iff]
  constructor
  · intro hempty
    apply List.pairwise_of_forall_mem_list
    intro a ha b hb hlt
    apply hempty a ha
    have := hall b hb
    simp only [decide_eq_false_iff_not]
    omega
  · intro hpair a ha hne
    simp only [decide_eq_false_iff_not] at hne
    have hlt : a.now < last := Nat.lt_of_le_of_ne (hall a ha) hne
    obtain ⟨b, hb, rfl⟩ := hsome.resolve_left (by omega)
    obtain ⟨pre, post, hsplit⟩ := List.append_of_mem ha
    rw [hsplit] at hpair h hb
    rcases List.mem_append.mp hb with hpre | hpost
    · have := (List.pairwise_append.mp h).2.2 b hpre a List.mem_cons_self
      omega
    · rcases List.mem_cons.mp hpost with rfl | hpost
      · exact absurd rfl hne
      · exact (List.pairwise_cons.mp (List.pairwise_append.mp hpair).2.1).1 b hpost hlt

theorem file_complete_iff_oneSecond :
    (((make none).setLevel .INFO).logs
        [⟨.INFO, 5, ['a']⟩, ⟨.DEBUG, 6, ['b']⟩, ⟨.WARN, 5, ['c']⟩]).file = some ['a', 'c'] := by
  refine (file_complete_iff none .INFO _ ?_).mpr ?_ <;> decide

/-- A call in the second second truncates the file. -/
theorem not_file_complete : ¬∀ (level : LogLevel) (calls : List LogCall),
    (accepted level calls).Pairwise (fun a b => a.now ≤ b.now) →
      (((make none).setLevel level).logs calls).file =
        some ((accepted level calls).flatMap LogCall.text) := by
  intro hall
  have hfile := hall .DEBUG [⟨.INFO, 1, ['a']⟩, ⟨.INFO, 2, ['b']⟩] (by decide)
  revert hfile
  decide

end FileLogAppender

end Captain
