import Mathlib.Logic.Function.Basic
import Mathlib.Tactic.Cases

/-!
# The descriptors of the sockets (`captain/socket.cpp`)

`Sockets` has the `Socket` objects that are alive, the descriptors of the process and, beside them,
an account of the files that were opened for sockets: how often each has been closed, and which have
been left open without a socket. `stray` counts the calls of `close` that did not meet such a file.

* `Ok`: each valid socket has a file of its own, and each file belongs to a socket, or has been
  closed once, or has been left.
-/

namespace Captain

/-- What a descriptor of the process stands for: the `n`-th file that was opened for a socket, or a
file of another part of the program. -/
inductive Opened
  | own (n : Nat)
  | foreign
  deriving DecidableEq, Repr

/-- A `Socket`, with the file that its descriptor was opened for. `m_sock` is `none` for -1. -/
structure SocketObject where
  m_sock : Option Nat
  m_isConnected : Bool
  recvTimeout : Option UInt64
  file : Nat
  deriving DecidableEq, Repr

structure Sockets where
  objects : Nat → Option SocketObject
  next : Nat
  table : Nat → Option Opened
  files : Nat
  closes : Nat → Nat
  leaked : List Nat
  stray : Nat

namespace Sockets

/-- No socket has been made; the descriptors are those of the other parts. -/
def init (taken : Nat → Bool) : Sockets :=
  ⟨fun _ => none, 0, fun fd => if taken fd then some .foreign else none, 0, fun _ => 0, [], 0⟩

/-- The kernel opens a file for a socket. -/
def openAt (s : Sockets) (fd : Nat) : Sockets :=
  { s with table := Function.update s.table fd (some (.own s.files)), files := s.files + 1 }

/-- `new Socket`, with the descriptor that `newSock` or `init` gives it. -/
def make (s : Sockets) (m_sock : Option Nat) (m_isConnected : Bool)
    (recvTimeout : Option UInt64) : Sockets :=
  match m_sock with
  | none =>
    { s with
      objects := Function.update s.objects s.next (some ⟨none, m_isConnected, recvTimeout, 0⟩)
      next := s.next + 1 }
  | some fd =>
    { s.openAt fd with
      objects := Function.update s.objects s.next
        (some ⟨some fd, m_isConnected, recvTimeout, s.files⟩)
      next := s.next + 1 }

/-- A file is opened, and no socket takes it. -/
def leak (s : Sockets) (fd : Nat) : Sockets :=
  { s.openAt fd with leaked := s.leaked ++ [s.files] }

/-- The system's `close`. -/
def closeAt (s : Sockets) (fd : Nat) : Sockets :=
  match s.table fd with
  | some (.own n) =>
    { s with
      table := Function.update s.table fd none
      closes := Function.update s.closes n (s.closes n + 1) }
  | some .foreign => { s with table := Function.update s.table fd none, stray := s.stray + 1 }
  | none => { s with stray := s.stray + 1 }

/-- `Socket::close`. -/
def close (s : Sockets) (id : Nat) : Sockets :=
  match s.objects id with
  | none => s
  | some k =>
    match k.m_sock with
    | none =>
      { s with objects := Function.update s.objects id (some { k with m_isConnected := false }) }
    | some fd =>
      { s.closeAt fd with
        objects := Function.update s.objects id
          (some { k with m_sock := none, m_isConnected := false }) }

/-- `Socket::~Socket`. -/
def destroy (s : Sockets) (id : Nat) : Sockets :=
  { s.close id with objects := Function.update (s.close id).objects id none }

/-- Another part of the program opens a file. -/
def openForeign (s : Sockets) (fd : Nat) : Sockets :=
  { s with table := Function.update s.table fd (some .foreign) }

/-- Another part of the program closes a file of its own. -/
def closeForeign (s : Sockets) (fd : Nat) : Sockets :=
  { s with table := Function.update s.table fd none }

/-! ## The account -/

/-- The descriptor of a socket stands for the file. -/
def Held (s : Sockets) (n : Nat) : Prop :=
  ∃ id k fd, s.objects id = some k ∧ k.m_sock = some fd ∧ k.file = n

/-- Where a file that was opened for a socket may be. -/
inductive Accounted (s : Sockets) (n : Nat) : Prop
  | held (h : s.Held n) (hcloses : s.closes n = 0) (hleaked : n ∉ s.leaked)
  | closed (h : ¬s.Held n) (hcloses : s.closes n = 1) (hleaked : n ∉ s.leaked)
  | left (h : ¬s.Held n) (hcloses : s.closes n = 0) (hleaked : n ∈ s.leaked)

structure Ok (s : Sockets) : Prop where
  bound : ∀ id, s.next ≤ id → s.objects id = none
  /-- The descriptor of a socket is open, and for its file. -/
  own : ∀ id k fd, s.objects id = some k → k.m_sock = some fd → s.table fd = some (.own k.file)
  unique : ∀ id id' k k' fd fd', s.objects id = some k → s.objects id' = some k' →
    k.m_sock = some fd → k'.m_sock = some fd' → k.file = k'.file → id = id'
  /-- A file has one descriptor. -/
  single : ∀ fd fd' n, s.table fd = some (.own n) → s.table fd' = some (.own n) → fd = fd'
  accounted : ∀ n < s.files, s.Accounted n
  fresh : ∀ n, s.files ≤ n → s.closes n = 0 ∧ n ∉ s.leaked ∧ ∀ fd, s.table fd ≠ some (.own n)
  stray : s.stray = 0

theorem ok_init (taken : Nat → Bool) : (init taken).Ok where
  bound _ _ := rfl
  own := nofun
  unique := nofun
  single fd fd' n h := by
    unfold init at h
    dsimp only at h
    split at h <;> cases h
  accounted := nofun
  fresh n _ := by
    refine ⟨rfl, List.not_mem_nil, fun fd h => ?_⟩
    unfold init at h
    dsimp only at h
    split at h <;> cases h
  stray := rfl

variable {s : Sockets}

/-- A held file is one that was opened, and open. -/
theorem Ok.held_lt (h : s.Ok) {n : Nat} (hn : s.Held n) :
    n < s.files ∧ ∃ fd, s.table fd = some (.own n) := by
  obtain ⟨id, k, fd, hk, hfd, rfl⟩ := hn
  have hown := h.own id k fd hk hfd
  refine ⟨Nat.lt_of_not_le fun hle => ?_, fd, hown⟩
  exact (h.fresh k.file hle).2.2 fd hown

/-- What is held stays so as long as the valid sockets are the same. -/
theorem held_congr {t : Sockets} {n : Nat} (h : ∀ id k fd, k.m_sock = some fd →
    (t.objects id = some k ↔ s.objects id = some k)) : t.Held n ↔ s.Held n := by
  constructor
  · rintro ⟨id, k, fd, hk, hfd, hn⟩
    exact ⟨id, k, fd, (h id k fd hfd).mp hk, hfd, hn⟩
  · rintro ⟨id, k, fd, hk, hfd, hn⟩
    exact ⟨id, k, fd, (h id k fd hfd).mpr hk, hfd, hn⟩

theorem Accounted.congr {t : Sockets} {n : Nat} (h : s.Accounted n) (hheld : t.Held n ↔ s.Held n)
    (hcloses : t.closes n = s.closes n) (hleaked : n ∈ t.leaked ↔ n ∈ s.leaked) :
    t.Accounted n := by
  rcases h with ⟨h, hc, hl⟩ | ⟨h, hc, hl⟩ | ⟨h, hc, hl⟩
  · exact .held (hheld.mpr h) (hcloses.trans hc) (mt hleaked.mp hl)
  · exact .closed (mt hheld.mp h) (hcloses.trans hc) (mt hleaked.mp hl)
  · exact .left (mt hheld.mp h) (hcloses.trans hc) (hleaked.mpr hl)

/-- Another part opens or closes a file. -/
theorem Ok.foreign (h : s.Ok) {fd : Nat} {e : Option Opened} (he : e = none ∨ e = some .foreign)
    (hfd : ∀ n, s.table fd ≠ some (.own n)) :
    Ok { s with table := Function.update s.table fd e } := by
  have htable : ∀ fd' n, Function.update s.table fd e fd' = some (.own n) ↔
      s.table fd' = some (.own n) := by
    intro fd' n
    by_cases heq : fd' = fd
    · subst heq
      rw [Function.update_self]
      refine iff_of_false (fun hown => ?_) (hfd n)
      rcases he with rfl | rfl <;> cases hown
    · rw [Function.update_of_ne heq]
  refine ⟨h.bound, fun id k fd' hk hk' => (htable _ _).mpr (h.own id k fd' hk hk'), h.unique,
    fun fd₁ fd₂ n h₁ h₂ => h.single fd₁ fd₂ n ((htable _ _).mp h₁) ((htable _ _).mp h₂),
    fun n hn => (h.accounted n hn).congr Iff.rfl rfl Iff.rfl, fun n hn => ?_, h.stray⟩
  obtain ⟨hcloses, hleaked, hnone⟩ := h.fresh n hn
  exact ⟨hcloses, hleaked, fun fd' hown => hnone fd' ((htable _ _).mp hown)⟩

theorem Ok.openForeign (h : s.Ok) {fd : Nat} (hfree : s.table fd = none) : (s.openForeign fd).Ok :=
  h.foreign (.inr rfl) fun n hn => by
    rw [hfree] at hn
    cases hn

theorem Ok.closeForeign (h : s.Ok) {fd : Nat} (hfree : s.table fd = some .foreign) :
    (s.closeForeign fd).Ok :=
  h.foreign (.inl rfl) fun n hn => by
    rw [hfree] at hn
    cases hn

/-- The table once a file is opened. -/
theorem openAt_table (h : s.Ok) {fd : Nat} (hfree : s.table fd = none) (fd' n : Nat) :
    (s.openAt fd).table fd' = some (.own n) ↔
      (fd' = fd ∧ n = s.files) ∨ (n < s.files ∧ s.table fd' = some (.own n)) := by
  unfold openAt
  dsimp only
  by_cases heq : fd' = fd
  · subst heq
    rw [Function.update_self, hfree]
    simp [eq_comm]
  · rw [Function.update_of_ne heq]
    refine ⟨fun hown => .inr ⟨Nat.lt_of_not_le fun hle => (h.fresh n hle).2.2 fd' hown, hown⟩, ?_⟩
    rintro (⟨rfl, -⟩ | ⟨-, hown⟩)
    · exact absurd rfl heq
    · exact hown

theorem Ok.leak (h : s.Ok) {fd : Nat} (hfree : s.table fd = none) : (s.leak fd).Ok where
  bound := h.bound
  own id k fd' hk hfd := by
    have hown := h.own id k fd' hk hfd
    exact (openAt_table h hfree fd' k.file).mpr
      (.inr ⟨(h.held_lt ⟨id, k, fd', hk, hfd, rfl⟩).1, hown⟩)
  unique := h.unique
  single fd₁ fd₂ n h₁ h₂ := by
    rcases (openAt_table h hfree fd₁ n).mp h₁ with ⟨rfl, rfl⟩ | ⟨hlt, h₁⟩ <;>
      rcases (openAt_table h hfree fd₂ _).mp h₂ with ⟨rfl, heq⟩ | ⟨hlt', h₂⟩
    · rfl
    · exact absurd hlt' (Nat.lt_irrefl _)
    · exact absurd hlt (heq ▸ Nat.lt_irrefl _)
    · exact h.single fd₁ fd₂ n h₁ h₂
  accounted n hn := by
    obtain ⟨hcloses, hleaked, hnone⟩ := h.fresh s.files (Nat.le_refl _)
    by_cases heq : n = s.files
    · subst heq
      refine .left (fun hheld => ?_) hcloses (List.mem_append_right _ (List.mem_singleton_self _))
      exact absurd (h.held_lt hheld).1 (Nat.lt_irrefl _)
    · have hlt : n < s.files := Nat.lt_of_le_of_ne (Nat.le_of_lt_succ hn) heq
      refine (h.accounted n hlt).congr Iff.rfl rfl ⟨fun hmem => ?_, List.mem_append_left _⟩
      rcases List.mem_append.mp hmem with hmem | hmem
      · exact hmem
      · exact absurd (List.mem_singleton.mp hmem) heq
  fresh n hn := by
    obtain ⟨hcloses, hleaked, hnone⟩ := h.fresh n (Nat.le_of_succ_le hn)
    refine ⟨hcloses, fun hmem => ?_, fun fd' hown => ?_⟩
    · rcases List.mem_append.mp hmem with hmem | hmem
      · exact hleaked hmem
      · exact absurd (List.mem_singleton.mp hmem) (Nat.ne_of_gt hn)
    · rcases (openAt_table h hfree fd' n).mp hown with ⟨-, rfl⟩ | ⟨hlt, -⟩
      · exact absurd hn (Nat.not_succ_le_self _)
      · exact absurd (Nat.lt_trans hlt hn) (Nat.lt_irrefl _)
  stray := h.stray

theorem Ok.make_some (h : s.Ok) {fd : Nat} (hfree : s.table fd = none) (m_isConnected : Bool)
    (recvTimeout : Option UInt64) : (s.make (some fd) m_isConnected recvTimeout).Ok := by
  have hnew : s.objects s.next = none := h.bound _ (Nat.le_refl _)
  have hobjects : ∀ id k fd', (s.make (some fd) m_isConnected recvTimeout).objects id = some k →
      k.m_sock = some fd' →
      (id = s.next ∧ k.file = s.files ∧ fd' = fd) ∨ (s.objects id = some k ∧ k.file < s.files) := by
    intro id k fd' hk hfd'
    by_cases heq : id = s.next
    · subst heq
      unfold make at hk
      dsimp only at hk
      rw [Function.update_self] at hk
      cases hk
      cases hfd'
      exact .inl ⟨rfl, rfl, rfl⟩
    · unfold make at hk
      dsimp only at hk
      rw [Function.update_of_ne heq] at hk
      exact .inr ⟨hk, (h.held_lt ⟨id, k, fd', hk, hfd', rfl⟩).1⟩
  have hheld : ∀ n < s.files, (s.make (some fd) m_isConnected recvTimeout).Held n ↔ s.Held n := by
    intro n hn
    constructor
    · rintro ⟨id, k, fd', hk, hfd', rfl⟩
      rcases hobjects id k fd' hk hfd' with ⟨-, hfile, -⟩ | ⟨hk, -⟩
      · exact absurd hn (hfile ▸ Nat.lt_irrefl _)
      · exact ⟨id, k, fd', hk, hfd', rfl⟩
    · rintro ⟨id, k, fd', hk, hfd', hfile⟩
      have hne : id ≠ s.next := fun heq => by
        rw [heq, hnew] at hk
        cases hk
      exact ⟨id, k, fd', (Function.update_of_ne hne _ _).trans hk, hfd', hfile⟩
  obtain ⟨hcloses, hleaked, hnone⟩ := h.fresh s.files (Nat.le_refl _)
  refine ⟨fun id hid => ?_, fun id k fd' hk hfd' => ?_, ?_, ?_, fun n hn => ?_, fun n hn => ?_,
    h.stray⟩
  · have hne : id ≠ s.next := Nat.ne_of_gt hid
    exact (Function.update_of_ne hne _ _).trans (h.bound id (Nat.le_of_succ_le hid))
  · refine (openAt_table h hfree fd' k.file).mpr ?_
    rcases hobjects id k fd' hk hfd' with ⟨-, hfile, rfl⟩ | ⟨hk, hlt⟩
    · exact .inl ⟨rfl, hfile⟩
    · exact .inr ⟨hlt, h.own id k fd' hk hfd'⟩
  · intro id id' k k' fd₁ fd₂ hk hk' hfd hfd' hfile
    rcases hobjects id k fd₁ hk hfd with ⟨rfl, hnew, -⟩ | ⟨hk, hlt⟩ <;>
      rcases hobjects id' k' fd₂ hk' hfd' with ⟨rfl, hnew', -⟩ | ⟨hk', hlt'⟩
    · rfl
    · omega
    · omega
    · exact h.unique id id' k k' fd₁ fd₂ hk hk' hfd hfd' hfile
  · exact (h.leak hfree).single
  · by_cases heq : n = s.files
    · subst heq
      exact .held ⟨s.next, _, fd, Function.update_self .., rfl, rfl⟩ hcloses hleaked
    · have hlt : n < s.files := Nat.lt_of_le_of_ne (Nat.le_of_lt_succ hn) heq
      exact (h.accounted n hlt).congr (hheld n hlt) rfl Iff.rfl
  · obtain ⟨hcloses, hleaked, -⟩ := h.fresh n (Nat.le_of_succ_le hn)
    exact ⟨hcloses, hleaked, ((h.leak hfree).fresh n hn).2.2⟩

/-- An object without a descriptor takes the place of another one, or goes. -/
theorem Ok.replace (h : s.Ok) {id next : Nat} {k : Option SocketObject}
    (hold : ∀ k' ∈ s.objects id, k'.m_sock = none) (hk : ∀ k' ∈ k, k'.m_sock = none)
    (hnext : s.next ≤ next) (hbound : k ≠ none → id < next) :
    Ok { s with objects := Function.update s.objects id k, next } := by
  have hsame : ∀ id' k' fd, k'.m_sock = some fd →
      (Function.update s.objects id k id' = some k' ↔ s.objects id' = some k') := by
    intro id' k' fd hfd
    by_cases heq : id' = id
    · subst heq
      rw [Function.update_self]
      refine iff_of_false (fun hk' => ?_) fun hk' => ?_
      · rw [hk k' hk'] at hfd
        cases hfd
      · rw [hold k' hk'] at hfd
        cases hfd
    · rw [Function.update_of_ne heq]
  refine ⟨fun id' hid' => ?_,
    fun id' k' fd hk' hfd => h.own id' k' fd ((hsame _ _ _ hfd).mp hk') hfd,
    fun id₁ id₂ k₁ k₂ fd₁ fd₂ h₁ h₂ hfd₁ hfd₂ => h.unique id₁ id₂ k₁ k₂ fd₁ fd₂
      ((hsame _ _ _ hfd₁).mp h₁) ((hsame _ _ _ hfd₂).mp h₂) hfd₁ hfd₂, h.single,
    fun n hn => (h.accounted n hn).congr (held_congr hsame) rfl Iff.rfl, h.fresh, h.stray⟩
  dsimp only at hid' ⊢
  by_cases heq : id' = id
  · subst heq
    rw [Function.update_self]
    by_contra hne
    exact absurd hid' (Nat.not_le.mpr (hbound hne))
  · rw [Function.update_of_ne heq]
    exact h.bound id' (Nat.le_trans hnext hid')

theorem Ok.make_none (h : s.Ok) (m_isConnected : Bool) (recvTimeout : Option UInt64) :
    (s.make none m_isConnected recvTimeout).Ok :=
  h.replace (fun k hk => by
    rw [h.bound _ (Nat.le_refl _)] at hk
    cases hk) (fun k hk => by
    cases hk
    rfl) (Nat.le_succ _) fun _ => Nat.lt_succ_self _

/-- The close of a valid socket closes its own file. -/
theorem close_some (h : s.Ok) {id fd : Nat} {k : SocketObject} (hk : s.objects id = some k)
    (hfd : k.m_sock = some fd) : s.close id = { s with
      table := Function.update s.table fd none
      closes := Function.update s.closes k.file (s.closes k.file + 1)
      objects := Function.update s.objects id
        (some { k with m_sock := none, m_isConnected := false }) } := by
  unfold close
  rw [hk]
  dsimp only
  rw [hfd]
  dsimp only
  unfold closeAt
  rw [h.own id k fd hk hfd]

/-- A socket once it is closed. -/
def shut (k : SocketObject) : SocketObject := { k with m_sock := none, m_isConnected := false }

theorem close_objects (id id' : Nat) : (s.close id).objects id' =
    if id' = id then (s.objects id).map shut else s.objects id' := by
  unfold close
  cases hk : s.objects id with
  | none =>
    dsimp only
    split
    · next heq => rw [heq, hk, Option.map_none]
    · rfl
  | some k =>
    dsimp only
    cases hfd : k.m_sock with
    | none =>
      dsimp only
      rw [Function.update_apply]
      rfl
    | some fd =>
      dsimp only
      rw [Function.update_apply]
      rfl

theorem Ok.close (h : s.Ok) (id : Nat) : (s.close id).Ok := by
  cases hk : s.objects id with
  | none =>
    unfold Sockets.close
    rw [hk]
    exact h
  | some k =>
    have hlt : id < s.next := Nat.lt_of_not_le fun hle => by
      rw [h.bound id hle] at hk
      cases hk
    cases hfd : k.m_sock with
    | none =>
      unfold Sockets.close
      rw [hk]
      dsimp only
      rw [hfd]
      refine h.replace (fun k' hk' => ?_) (fun k' hk' => ?_) (Nat.le_refl _) fun _ => hlt
      · rw [hk] at hk'
        cases hk'
        exact hfd
      · cases hk'
        rfl
    | some fd =>
      have hown := h.own id k fd hk hfd
      have hheld : s.Held k.file := ⟨id, k, fd, hk, hfd, rfl⟩
      have hobjects : ∀ id' k' fd', (s.close id).objects id' = some k' → k'.m_sock = some fd' →
          s.objects id' = some k' ∧ k'.file ≠ k.file := by
        intro id' k' fd' hk' hfd'
        rw [close_objects] at hk'
        split at hk'
        · obtain ⟨k₀, -, rfl⟩ := Option.map_eq_some_iff.mp hk'
          cases hfd'
        · next hne =>
          exact ⟨hk', fun hfile => hne (h.unique id' id k' k fd' fd hk' hk hfd' hfd hfile)⟩
      have hclosed : ∀ n, (s.close id).Held n ↔ s.Held n ∧ n ≠ k.file := by
        intro n
        constructor
        · rintro ⟨id', k', fd', hk', hfd', rfl⟩
          obtain ⟨hk', hne⟩ := hobjects id' k' fd' hk' hfd'
          exact ⟨⟨id', k', fd', hk', hfd', rfl⟩, hne⟩
        · rintro ⟨⟨id', k', fd', hk', hfd', hfile⟩, hne⟩
          refine ⟨id', k', fd', ?_, hfd', hfile⟩
          rw [close_objects, if_neg]
          · exact hk'
          · rintro rfl
            rw [hk] at hk'
            cases hk'
            exact hne hfile.symm
      have htable : ∀ fd' n, (s.close id).table fd' = some (.own n) →
          s.table fd' = some (.own n) ∧ fd' ≠ fd := by
        intro fd' n htable
        rw [close_some h hk hfd] at htable
        dsimp only at htable
        by_cases heq : fd' = fd
        · rw [heq, Function.update_self] at htable
          cases htable
        · rw [Function.update_of_ne heq] at htable
          exact ⟨htable, heq⟩
      have hcloses : ∀ n, (s.close id).closes n =
          if n = k.file then s.closes k.file + 1 else s.closes n := by
        intro n
        rw [close_some h hk hfd]
        exact Function.update_apply ..
      have hrest : (s.close id).next = s.next ∧ (s.close id).files = s.files ∧
          (s.close id).leaked = s.leaked ∧ (s.close id).stray = s.stray := by
        rw [close_some h hk hfd]
        exact ⟨rfl, rfl, rfl, rfl⟩
      obtain ⟨hnext, hfiles, hleaked, hstray⟩ := hrest
      refine ⟨fun id' hid' => ?_, fun id' k' fd' hk' hfd' => ?_, ?_, ?_, fun n hn => ?_,
        fun n hn => ?_, hstray.trans h.stray⟩
      · rw [close_objects, if_neg]
        · exact h.bound id' (hnext ▸ hid')
        · rintro rfl
          exact absurd hlt (Nat.not_lt.mpr (hnext ▸ hid'))
      · obtain ⟨hk₀, hne⟩ := hobjects id' k' fd' hk' hfd'
        have hother : fd' ≠ fd := fun heq => by
          have hown' := h.own id' k' fd' hk₀ hfd'
          rw [heq, hown, Option.some.injEq, Opened.own.injEq] at hown'
          exact hne hown'.symm
        rw [close_some h hk hfd]
        exact (Function.update_of_ne hother _ _).trans (h.own id' k' fd' hk₀ hfd')
      · intro id₁ id₂ k₁ k₂ fd₁ fd₂ h₁ h₂ hfd₁ hfd₂ hfile
        exact h.unique id₁ id₂ k₁ k₂ fd₁ fd₂ (hobjects _ _ _ h₁ hfd₁).1
          (hobjects _ _ _ h₂ hfd₂).1 hfd₁ hfd₂ hfile
      · intro fd₁ fd₂ n h₁ h₂
        exact h.single fd₁ fd₂ n (htable _ _ h₁).1 (htable _ _ h₂).1
      · rw [hfiles] at hn
        by_cases hfile : n = k.file
        · subst hfile
          rcases h.accounted k.file hn with ⟨-, hzero, hnot⟩ | ⟨hno, -, -⟩ | ⟨hno, -, -⟩
          · refine .closed (fun hstill => ((hclosed _).mp hstill).2 rfl) ?_ (hleaked ▸ hnot)
            rw [hcloses, if_pos rfl, hzero]
          · exact absurd hheld hno
          · exact absurd hheld hno
        · refine (h.accounted n hn).congr ?_ ?_ (by rw [hleaked])
          · rw [hclosed, and_iff_left hfile]
          · rw [hcloses, if_neg hfile]
      · rw [hfiles] at hn
        obtain ⟨hzero, hnot, hnone⟩ := h.fresh n hn
        refine ⟨?_, hleaked ▸ hnot, fun fd' hown' => hnone fd' (htable _ _ hown').1⟩
        rw [hcloses, if_neg]
        · exact hzero
        · rintro rfl
          exact absurd (h.held_lt hheld).1 (Nat.not_lt.mpr hn)

theorem Ok.destroy (h : s.Ok) (id : Nat) : (s.destroy id).Ok := by
  refine (h.close id).replace (fun k hk => ?_) (fun k hk => by cases hk) (Nat.le_refl _)
    fun hne => absurd rfl hne
  rw [Option.mem_def, close_objects, if_pos rfl] at hk
  obtain ⟨k₀, -, rfl⟩ := Option.map_eq_some_iff.mp hk
  rfl

theorem destroy_objects (id id' : Nat) :
    (s.destroy id).objects id' = if id' = id then none else s.objects id' := by
  unfold destroy
  dsimp only
  rw [Function.update_apply, close_objects]
  split <;> rfl

theorem make_isSome (m_sock : Option Nat) (m_isConnected : Bool) (recvTimeout : Option UInt64)
    (id : Nat) : ((s.make m_sock m_isConnected recvTimeout).objects id).isSome = true ↔
      id = s.next ∨ (s.objects id).isSome = true := by
  unfold make
  split <;>
  · dsimp only
    rw [Function.update_apply]
    split
    · next heq => exact iff_of_true rfl (.inl heq)
    · next hne => exact (or_iff_right hne).symm

/-- A socket that is made for a round only. -/
theorem destroy_make (h : s.Ok) (m_sock : Option Nat) (m_isConnected : Bool)
    (recvTimeout : Option UInt64) (id : Nat) :
    (((s.make m_sock m_isConnected recvTimeout).destroy s.next).objects id).isSome =
      (s.objects id).isSome := by
  rw [destroy_objects]
  by_cases heq : id = s.next
  · subst heq
    rw [if_pos rfl, h.bound _ (Nat.le_refl _)]
  · rw [if_neg heq, Bool.eq_iff_iff, make_isSome, or_iff_right heq]

@[simp] theorem make_leaked (m_sock : Option Nat) (m_isConnected : Bool)
    (recvTimeout : Option UInt64) :
    (s.make m_sock m_isConnected recvTimeout).leaked = s.leaked := by
  cases m_sock <;> rfl

@[simp] theorem close_leaked (id : Nat) : (s.close id).leaked = s.leaked := by
  unfold close closeAt
  split
  · rfl
  · split
    · rfl
    · dsimp only
      split <;> rfl

@[simp] theorem destroy_leaked (id : Nat) : (s.destroy id).leaked = s.leaked := close_leaked id

end Sockets

end Captain
