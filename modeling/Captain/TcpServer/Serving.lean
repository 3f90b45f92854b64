import Captain.TcpServer.Sockets
import Captain.Transition
import Mathlib.Data.List.Basic
import Mathlib.Tactic.Tauto

/-!
# A server at work (`captain/tcp_server.cpp`)

`Serving` is a `TcpServer` with the tasks that it schedules: a `startAccept` for each socket at each
`start`, the closing at each `stop`, and a `handleClient` for each connection. The sockets are held
by `shared_ptr`: `refs` are the sockets that a pointer of the server or of a task points to, and
`drop` destroys those that the last one has left.

Any task may take the next step, and so may the rest of the program. No lock protects `m_socks` or a
`Socket`: `start`, a round of `bind`, the task of `stop` and `Socket::close` are taken to be atomic,
as they are when one thread makes the calls and runs the tasks of `m_acceptWorker`. While `bind` is
running nothing calls `start` or `bind`.

The hook of `accept` looks the descriptor up in `FdManager`. For the -1 of a socket that has been
closed this reads `m_datas[-1]`, and nothing is said of what comes after it (`faulted`).

* `owns_of_run`: every descriptor that is opened for a socket is closed once, with its socket, but
  for those that `init` refuses; and no other descriptor is closed.
-/

namespace Captain

/-- Where the loop of `startAccept` is: at its condition, or in `accept` on the descriptor that
`m_sock` was when it was called (`none` for -1). -/
inductive AcceptPc
  | checking
  | accepting (m_sock : Option Nat)
  | ended
  deriving DecidableEq, Repr

structure Acceptor where
  sock : Nat
  pc : AcceptPc
  deriving DecidableEq, Repr

/-- The task of `handleClient`. -/
structure Handler where
  client : Nat
  ended : Bool
  deriving DecidableEq, Repr

structure Serving where
  sockets : Sockets
  m_socks : List Nat
  m_isStop : Bool
  m_recvTimeout : UInt64
  /-- In a call of `bind`, whether `fails` has an address. -/
  binding : Option Bool
  acceptors : List Acceptor
  /-- The tasks of `stop`, and whether they have ended. -/
  stops : List Bool
  handlers : List Handler
  /-- The rest of the program holds the server. -/
  held : Bool
  alive : Bool

namespace Serving

/-- `TcpServer::TcpServer`. -/
def init (taken : Nat → Bool) (m_recvTimeout : UInt64) : Serving :=
  ⟨.init taken, [], true, m_recvTimeout, none, [], [], [], true, true⟩

/-- The sockets that are pointed to. -/
def refs (s : Serving) : List Nat :=
  s.m_socks ++ (s.acceptors.filter fun a => a.pc ≠ .ended).map Acceptor.sock ++
    (s.handlers.filter fun h => !h.ended).map Handler.client

/-- Pointers to these sockets have gone; the last one destroys the socket. -/
def drop (ids : List Nat) (s : Serving) : Serving :=
  { s with sockets :=
      ids.foldl (fun sockets id => if id ∈ s.refs then sockets else sockets.destroy id) s.sockets }

inductive Label
  | bindBegin (fails : Bool)
  | bindAddr (fd : Option Nat) (ok : Bool)
  | bindEnd
  | start
  | stop
  | stopTask (j : Nat)
  | setRecvTimeout (v : UInt64)
  | acceptCall (i : Nat)
  | acceptFail (i : Nat)
  | acceptNew (i fd : Nat) (ok : Bool)
  | clientClose (c : Nat)
  | clientEnd (c : Nat)
  | release
  | destroy
  | openForeign (fd : Nat)
  | closeForeign (fd : Nat)
  deriving DecidableEq, Repr

/-- A round of the loop of `bind`: what `socket` returns, and whether `bind` and `listen` succeed. A
socket that is not kept is destroyed at the end of the round. -/
def bindAddr (s : Serving) (fd : Option Nat) (ok : Bool) : Option Serving :=
  match fd with
  | none =>
    some { s with
      sockets := (s.sockets.make none false none).destroy s.sockets.next
      binding := some true }
  | some fd =>
    if s.sockets.table fd ≠ none then none
    else if ok then
      some { s with
        sockets := s.sockets.make (some fd) false none
        m_socks := s.m_socks ++ [s.sockets.next] }
    else
      some { s with
        sockets := (s.sockets.make (some fd) false none).destroy s.sockets.next
        binding := some true }

/-- `startAccept` at its condition. -/
def acceptCall (s : Serving) (i : Nat) (sock : Nat) : Serving :=
  if s.m_isStop then drop [sock] { s with acceptors := s.acceptors.set i ⟨sock, .ended⟩ }
  else
    { s with acceptors :=
        s.acceptors.set i ⟨sock, .accepting ((s.sockets.objects sock).bind SocketObject.m_sock)⟩ }

/-- `accept` returns the descriptor `fd`; `ok` is what `Socket::init` makes of it. -/
def acceptNew (s : Serving) (i sock fd : Nat) (ok : Bool) : Serving :=
  if ok then
    { s with
      sockets := s.sockets.make (some fd) true (some s.m_recvTimeout)
      acceptors := s.acceptors.set i ⟨sock, .checking⟩
      handlers := s.handlers ++ [⟨s.sockets.next, false⟩] }
  else
    { s with
      sockets := s.sockets.leak fd
      acceptors := s.acceptors.set i ⟨sock, .checking⟩ }

def closeAll (s : Serving) : Serving :=
  drop s.m_socks { s with sockets := s.m_socks.foldl Sockets.close s.sockets, m_socks := [] }

/-- No task holds the server. -/
def idle (s : Serving) : Bool :=
  s.acceptors.all (fun a => a.pc = .ended) && s.stops.all (fun ended => ended) &&
    s.handlers.all Handler.ended

/-- A loop has called `accept` on -1. -/
def faulted (s : Serving) : Bool := s.acceptors.any fun a => a.pc = .accepting none

/-- What a task, or the rest of the program, does. -/
def move (s : Serving) : Label → Option Serving
  | .bindBegin fails =>
    if s.alive ∧ s.binding = none then some { s with binding := some fails } else none
  | .bindAddr fd ok => if s.binding = none then none else s.bindAddr fd ok
  | .bindEnd =>
    match s.binding with
    | none => none
    | some true => some (drop s.m_socks { s with m_socks := [], binding := none })
    | some false => some { s with binding := none }
  | .start =>
    if s.alive ∧ s.binding = none then
      some (if !s.m_isStop then s
        else { s with
          m_isStop := false
          acceptors := s.acceptors ++ s.m_socks.map fun sock => ⟨sock, .checking⟩ })
    else none
  | .stop =>
    if s.alive then some { s with m_isStop := true, stops := s.stops ++ [false] } else none
  | .stopTask j =>
    if s.stops[j]? = some false then some { s.closeAll with stops := s.stops.set j true } else none
  | .setRecvTimeout v => if s.alive then some { s with m_recvTimeout := v } else none
  | .acceptCall i =>
    match s.acceptors[i]? with
    | some ⟨sock, .checking⟩ => some (s.acceptCall i sock)
    | _ => none
  | .acceptFail i =>
    match s.acceptors[i]? with
    | some ⟨sock, .accepting (some _)⟩ =>
      some { s with acceptors := s.acceptors.set i ⟨sock, .checking⟩ }
    | _ => none
  | .acceptNew i fd ok =>
    match s.acceptors[i]? with
    | some ⟨sock, .accepting (some m_sock)⟩ =>
      if s.sockets.table m_sock ≠ none ∧ s.sockets.table fd = none then
        some (s.acceptNew i sock fd ok)
      else none
    | _ => none
  | .clientClose c =>
    match s.handlers[c]? with
    | some ⟨client, false⟩ => some { s with sockets := s.sockets.close client }
    | _ => none
  | .clientEnd c =>
    match s.handlers[c]? with
    | some ⟨client, false⟩ =>
      some (drop [client] { s with handlers := s.handlers.set c ⟨client, true⟩ })
    | _ => none
  | .release => some { s with held := false }
  | .destroy =>
    if s.alive ∧ s.held = false ∧ s.binding = none ∧ s.idle then
      some { s.closeAll with alive := false }
    else none
  | .openForeign fd =>
    if s.sockets.table fd = none then some { s with sockets := s.sockets.openForeign fd } else none
  | .closeForeign fd =>
    if s.sockets.table fd = some .foreign then
      some { s with sockets := s.sockets.closeForeign fd }
    else none

def next (s : Serving) (l : Label) : Option Serving := if s.faulted then none else s.move l

def Step (s : Serving) (l : Label) (s' : Serving) : Prop := s.next l = some s'

theorem step_iff {s s' : Serving} {l : Label} :
    Step s l s' ↔ s.faulted = false ∧ s.move l = some s' := by
  unfold Step next
  cases s.faulted with
  | false => simp
  | true => simp

/-! ## The pointers -/

variable {s s' : Serving} {id : Nat}

/-- A `startAccept` points to the socket. -/
def Accepts (acceptors : List Acceptor) (id : Nat) : Prop :=
  ∃ a ∈ acceptors, a.pc ≠ .ended ∧ a.sock = id

/-- A `handleClient` points to the socket. -/
def Handles (handlers : List Handler) (id : Nat) : Prop :=
  ∃ h ∈ handlers, h.ended = false ∧ h.client = id

theorem mem_refs :
    id ∈ s.refs ↔ id ∈ s.m_socks ∨ Accepts s.acceptors id ∨ Handles s.handlers id := by
  unfold refs Accepts Handles
  simp only [List.mem_append, List.mem_map, List.mem_filter, decide_eq_true_eq,
    Bool.not_eq_true', and_assoc, or_assoc]

/-- What the elements are when one of them is replaced. -/
theorem exists_set_iff {α : Type} {l : List α} {i : Nat} {a b : α} (h : l[i]? = some a)
    (Q : α → Prop) : (∃ x ∈ l.set i b, Q x) ∨ Q a ↔ (∃ x ∈ l, Q x) ∨ Q b := by
  induction l generalizing i with
  | nil => cases h
  | cons x l ih =>
    cases i with
    | zero =>
      cases h
      rw [List.set_cons_zero, List.exists_mem_cons_iff, List.exists_mem_cons_iff]
      generalize (∃ x ∈ l, Q x) = others
      tauto
    | succ i =>
      rw [List.set_cons_succ, List.exists_mem_cons_iff, List.exists_mem_cons_iff, or_assoc,
        @ih i h, or_assoc]

/-- An acceptor that goes on points to the same socket. -/
theorem mem_refs_acceptor {i sock : Nat} {pc pc' : AcceptPc} (h : s.acceptors[i]? = some ⟨sock, pc⟩)
    (hpc : pc ≠ .ended) (hpc' : pc' ≠ .ended) :
    id ∈ refs { s with acceptors := s.acceptors.set i ⟨sock, pc'⟩ } ↔ id ∈ s.refs := by
  have hset := @exists_set_iff _ _ _ _ ⟨sock, pc'⟩ h fun a => a.pc ≠ .ended ∧ a.sock = id
  have hsame : Accepts (s.acceptors.set i ⟨sock, pc'⟩) id ↔ Accepts s.acceptors id := by
    constructor
    · intro hex
      exact (hset.mp (.inl hex)).elim (fun h => h) fun hb =>
        ⟨_, List.mem_of_getElem? h, hpc, hb.2⟩
    · intro hex
      exact (hset.mpr (.inl hex)).elim (fun h => h) fun ha =>
        ⟨_, List.mem_set (List.getElem?_eq_some_iff.mp h).1 _, hpc', ha.2⟩
  rw [mem_refs, mem_refs, hsame]

/-- One that ends may have been the last to point to its socket. -/
theorem mem_refs_ended {i sock : Nat} {pc : AcceptPc} (h : s.acceptors[i]? = some ⟨sock, pc⟩)
    (hpc : pc ≠ .ended) :
    id ∈ s.refs ↔ id ∈ refs { s with acceptors := s.acceptors.set i ⟨sock, .ended⟩ } ∨
      id = sock := by
  have hset := @exists_set_iff _ _ _ _ ⟨sock, .ended⟩ h fun a => a.pc ≠ .ended ∧ a.sock = id
  have hends : Accepts s.acceptors id ↔
      Accepts (s.acceptors.set i ⟨sock, .ended⟩) id ∨ id = sock := by
    constructor
    · intro hex
      exact (hset.mpr (.inl hex)).imp_right fun ha => ha.2.symm
    · rintro (hex | rfl)
      · exact (hset.mp (.inl hex)).elim (fun h => h) fun hb => absurd rfl hb.1
      · exact ⟨_, List.mem_of_getElem? h, hpc, rfl⟩
  rw [mem_refs, mem_refs, hends]
  tauto

theorem mem_refs_handler {c client : Nat} (h : s.handlers[c]? = some ⟨client, false⟩) :
    id ∈ s.refs ↔ id ∈ refs { s with handlers := s.handlers.set c ⟨client, true⟩ } ∨
      id = client := by
  have hset := @exists_set_iff _ _ _ _ ⟨client, true⟩ h fun k => k.ended = false ∧ k.client = id
  have hends : Handles s.handlers id ↔
      Handles (s.handlers.set c ⟨client, true⟩) id ∨ id = client := by
    constructor
    · intro hex
      exact (hset.mpr (.inl hex)).imp_right fun ha => ha.2.symm
    · rintro (hex | rfl)
      · exact (hset.mp (.inl hex)).elim (fun h => h) fun hb => nomatch hb.1
      · exact ⟨_, List.mem_of_getElem? h, rfl, rfl⟩
  rw [mem_refs, mem_refs, hends, or_assoc, or_assoc]

theorem accepts_append {acceptors acceptors' : List Acceptor} :
    Accepts (acceptors ++ acceptors') id ↔ Accepts acceptors id ∨ Accepts acceptors' id := by
  simp only [Accepts, List.mem_append, or_and_right, exists_or]

theorem accepts_started {m_socks : List Nat} :
    Accepts (m_socks.map fun sock => ⟨sock, .checking⟩) id ↔ id ∈ m_socks := by
  simp [Accepts]

theorem handles_concat {handlers : List Handler} {client : Nat} :
    Handles (handlers ++ [⟨client, false⟩]) id ↔ Handles handlers id ∨ id = client := by
  simp only [Handles, List.mem_append, List.mem_singleton, or_and_right, exists_or,
    exists_eq_left, true_and, @eq_comm _ client]

/-! ## Who owns the sockets -/

/-- What the pointers that have gone leave of the sockets. -/
theorem foldl_destroy {refs ids : List Nat} {sockets : Sockets} (h : sockets.Ok) :
    (ids.foldl (fun sockets id => if id ∈ refs then sockets else sockets.destroy id) sockets).Ok ∧
      ∀ id, (ids.foldl (fun sockets id => if id ∈ refs then sockets else sockets.destroy id)
        sockets).objects id = if id ∈ ids ∧ id ∉ refs then none else sockets.objects id := by
  induction ids generalizing sockets with
  | nil => exact ⟨h, fun id => (if_neg fun hand => absurd hand.1 List.not_mem_nil).symm⟩
  | cons id₀ ids ih =>
    rw [List.foldl_cons]
    by_cases hmem : id₀ ∈ refs
    · rw [if_pos hmem]
      refine ⟨(ih h).1, fun id => ((ih h).2 id).trans (if_congr ?_ rfl rfl)⟩
      rw [List.mem_cons]
      refine ⟨fun hand => ⟨.inr hand.1, hand.2⟩, fun hand => ⟨?_, hand.2⟩⟩
      exact hand.1.resolve_left fun heq => hand.2 (heq ▸ hmem)
    · rw [if_neg hmem]
      refine ⟨(ih (h.destroy id₀)).1, fun id => ((ih (h.destroy id₀)).2 id).trans ?_⟩
      rw [Sockets.destroy_objects]
      by_cases heq : id = id₀
      · subst heq
        rw [if_pos rfl, ite_self, if_pos ⟨List.mem_cons_self, hmem⟩]
      · rw [if_neg heq]
        refine if_congr ?_ rfl rfl
        rw [List.mem_cons, or_iff_right heq]

structure Owns (s : Serving) : Prop where
  ok : s.sockets.Ok
  /-- The sockets that are alive are those that are pointed to. -/
  live : ∀ id, (s.sockets.objects id).isSome = true ↔ id ∈ s.refs
  /-- When the server has gone, so have its tasks. -/
  gone : s.alive = false → s.m_socks = [] ∧ s.binding = none ∧ s.idle = true

/-- The pointers to `ids` have gone. -/
theorem owns_drop {ids : List Nat} (hok : s.sockets.Ok)
    (hlive : ∀ id, (s.sockets.objects id).isSome = true ↔ id ∈ s.refs ∨ id ∈ ids)
    (hgone : s.alive = false → s.m_socks = [] ∧ s.binding = none ∧ s.idle = true) :
    (drop ids s).Owns := by
  obtain ⟨hok', hobjects⟩ := @foldl_destroy s.refs ids _ hok
  refine ⟨hok', fun id => ?_, hgone⟩
  have hrefs : (drop ids s).refs = s.refs := rfl
  rw [hrefs]
  unfold drop
  dsimp only
  rw [hobjects]
  by_cases hid : id ∈ s.refs
  · rw [if_neg fun hand => hand.2 hid]
    exact iff_of_true ((hlive id).mpr (.inl hid)) hid
  · by_cases hmem : id ∈ ids
    · rw [if_pos ⟨hmem, hid⟩]
      exact iff_of_false (fun hsome => nomatch hsome) hid
    · rw [if_neg fun hand => hmem hand.1, hlive]
      tauto

theorem Owns.of_same (h : s.Owns) (hok : s'.sockets.Ok)
    (hobjects : ∀ id, (s'.sockets.objects id).isSome = (s.sockets.objects id).isSome)
    (hrefs : ∀ id, id ∈ s'.refs ↔ id ∈ s.refs) (halive : s'.alive = true) : s'.Owns where
  ok := hok
  live id := by rw [hobjects, hrefs, h.live]
  gone hdead := nomatch halive.symm.trans hdead

/-- One more socket, and one that points to it. -/
theorem Owns.of_new (h : s.Owns) (hok : s'.sockets.Ok)
    (hobjects : ∀ id, (s'.sockets.objects id).isSome = true ↔
      id = s.sockets.next ∨ (s.sockets.objects id).isSome = true)
    (hrefs : ∀ id, id ∈ s'.refs ↔ id = s.sockets.next ∨ id ∈ s.refs) (halive : s'.alive = true) :
    s'.Owns where
  ok := hok
  live id := by rw [hobjects, hrefs, h.live]
  gone hdead := nomatch halive.symm.trans hdead

theorem Owns.alive_of_task (h : s.Owns) (hidle : s.idle = false) : s.alive = true := by
  by_contra hdead
  rw [(h.gone (Bool.eq_false_iff.mpr hdead)).2.2] at hidle
  cases hidle

theorem not_idle_of_acceptor {i : Nat} {a : Acceptor} (h : s.acceptors[i]? = some a)
    (hpc : a.pc ≠ .ended) : s.idle = false := by
  have hall : s.acceptors.all (fun a => a.pc = .ended) = false :=
    List.all_eq_false.mpr ⟨a, List.mem_of_getElem? h, by simpa using hpc⟩
  unfold idle
  rw [hall, Bool.false_and, Bool.false_and]

theorem not_idle_of_stop {j : Nat} (h : s.stops[j]? = some false) : s.idle = false := by
  have hall : s.stops.all (fun ended => ended) = false :=
    List.all_eq_false.mpr ⟨false, List.mem_of_getElem? h, Bool.false_ne_true⟩
  unfold idle
  rw [hall, Bool.and_false, Bool.false_and]

theorem not_idle_of_handler {c client : Nat} (h : s.handlers[c]? = some ⟨client, false⟩) :
    s.idle = false := by
  have hall : s.handlers.all Handler.ended = false :=
    List.all_eq_false.mpr ⟨_, List.mem_of_getElem? h, Bool.false_ne_true⟩
  unfold idle
  rw [hall, Bool.and_false]

/-- The pointers of `m_socks` have gone, and the sockets are closed or not. -/
theorem Owns.clear (h : s.Owns) {sockets : Sockets} (hok : sockets.Ok)
    (hobjects : ∀ id, (sockets.objects id).isSome = (s.sockets.objects id).isSome)
    {binding : Option Bool} (hgone : s.alive = false → binding = none) :
    (drop s.m_socks { s with sockets, m_socks := [], binding }).Owns := by
  refine owns_drop hok (fun id => ?_) fun hdead => ⟨rfl, hgone hdead, (h.gone hdead).2.2⟩
  dsimp only
  rw [hobjects, h.live, mem_refs, mem_refs]
  simp only [List.not_mem_nil, false_or]
  exact or_comm

theorem foldl_close {ids : List Nat} {sockets : Sockets} (h : sockets.Ok) :
    (ids.foldl Sockets.close sockets).Ok ∧
      ∀ id, ((ids.foldl Sockets.close sockets).objects id).isSome =
        (sockets.objects id).isSome := by
  induction ids generalizing sockets with
  | nil => exact ⟨h, fun _ => rfl⟩
  | cons id₀ ids ih =>
    refine ⟨(ih (h.close id₀)).1, fun id => ((ih (h.close id₀)).2 id).trans ?_⟩
    rw [Sockets.close_objects]
    split
    · next heq => rw [heq, Option.isSome_map]
    · rfl

theorem Owns.closeAll (h : s.Owns) : s.closeAll.Owns := by
  obtain ⟨hok, hobjects⟩ := @foldl_close s.m_socks _ h.ok
  exact h.clear hok hobjects fun hdead => (h.gone hdead).2.1

theorem Owns.bindAddr (h : s.Owns) (halive : s.alive = true) {fd : Option Nat} {ok : Bool}
    (hnext : s.bindAddr fd ok = some s') : s'.Owns := by
  unfold Serving.bindAddr at hnext
  split at hnext
  · cases hnext
    exact h.of_same ((h.ok.make_none _ _).destroy _) (Sockets.destroy_make h.ok _ _ _)
      (fun _ => Iff.rfl) halive
  · next fd =>
    split at hnext
    · cases hnext
    · next hfree =>
      have hmake := h.ok.make_some (Decidable.not_not.mp hfree) false none
      split at hnext
      · cases hnext
        refine h.of_new hmake (Sockets.make_isSome (some fd) false none) (fun id => ?_) halive
        rw [mem_refs, mem_refs]
        dsimp only
        rw [List.mem_append, List.mem_singleton]
        tauto
      · cases hnext
        exact h.of_same (hmake.destroy _) (Sockets.destroy_make h.ok _ _ _) (fun _ => Iff.rfl)
          halive

theorem Owns.acceptCall (h : s.Owns) {i sock : Nat}
    (hi : s.acceptors[i]? = some ⟨sock, .checking⟩) : (s.acceptCall i sock).Owns := by
  have halive := h.alive_of_task (not_idle_of_acceptor hi nofun)
  unfold Serving.acceptCall
  split
  · refine owns_drop h.ok (fun id => ?_) fun hdead => nomatch halive.symm.trans hdead
    rw [List.mem_singleton, ← mem_refs_ended hi nofun]
    exact h.live id
  · exact h.of_same h.ok (fun _ => rfl)
      (fun id => mem_refs_acceptor hi nofun nofun) halive

theorem Owns.acceptNew (h : s.Owns) {i sock m_sock fd : Nat} {ok : Bool}
    (hi : s.acceptors[i]? = some ⟨sock, .accepting (some m_sock)⟩)
    (hfree : s.sockets.table fd = none) : (s.acceptNew i sock fd ok).Owns := by
  have halive := h.alive_of_task (not_idle_of_acceptor hi nofun)
  have hrefs : ∀ id, id ∈ refs { s with acceptors := s.acceptors.set i ⟨sock, .checking⟩ } ↔
      id ∈ s.refs := fun id => mem_refs_acceptor hi nofun nofun
  unfold Serving.acceptNew
  split
  · refine h.of_new (h.ok.make_some hfree _ _)
      (Sockets.make_isSome (some fd) true (some s.m_recvTimeout)) (fun id => ?_) halive
    rw [← hrefs, mem_refs, mem_refs, handles_concat]
    tauto
  · exact h.of_same (h.ok.leak hfree) (fun _ => rfl) hrefs halive

/-- **Step.** -/
theorem Step.owns {l : Label} (h : s.Owns) (hstep : Step s l s') : s'.Owns := by
  replace hstep := (step_iff.mp hstep).2
  cases l with
  | bindBegin fails =>
    simp only [move] at hstep
    obtain ⟨⟨halive, -⟩, hstep⟩ := (Option.ite_none_right_eq_some ..).mp hstep
    cases hstep
    exact h.of_same h.ok (fun _ => rfl) (fun _ => Iff.rfl) halive
  | bindAddr fd ok =>
    simp only [move] at hstep
    obtain ⟨hbinding, hstep⟩ := (Option.ite_none_left_eq_some ..).mp hstep
    refine h.bindAddr ?_ hstep
    by_contra hdead
    exact hbinding (h.gone (Bool.eq_false_iff.mpr hdead)).2.1
  | bindEnd =>
    simp only [move] at hstep
    split at hstep
    · cases hstep
    · cases hstep
      exact h.clear h.ok (fun _ => rfl) fun _ => rfl
    · next hbinding =>
      cases hstep
      refine h.of_same h.ok (fun _ => rfl) (fun _ => Iff.rfl) ?_
      by_contra hdead
      rw [(h.gone (Bool.eq_false_iff.mpr hdead)).2.1] at hbinding
      cases hbinding
  | start =>
    simp only [move] at hstep
    obtain ⟨⟨halive, -⟩, hstep⟩ := (Option.ite_none_right_eq_some ..).mp hstep
    cases hstep
    split
    · exact h
    · refine h.of_same h.ok (fun _ => rfl) (fun id => ?_) halive
      rw [mem_refs, mem_refs, accepts_append, accepts_started]
      tauto
  | stop =>
    simp only [move] at hstep
    obtain ⟨halive, hstep⟩ := (Option.ite_none_right_eq_some ..).mp hstep
    cases hstep
    exact h.of_same h.ok (fun _ => rfl) (fun _ => Iff.rfl) halive
  | stopTask j =>
    simp only [move] at hstep
    obtain ⟨hj, hstep⟩ := (Option.ite_none_right_eq_some ..).mp hstep
    cases hstep
    exact h.closeAll.of_same h.closeAll.ok (fun _ => rfl) (fun _ => Iff.rfl)
      (h.alive_of_task (not_idle_of_stop hj))
  | setRecvTimeout v =>
    simp only [move] at hstep
    obtain ⟨halive, hstep⟩ := (Option.ite_none_right_eq_some ..).mp hstep
    cases hstep
    exact h.of_same h.ok (fun _ => rfl) (fun _ => Iff.rfl) halive
  | acceptCall i =>
    simp only [move] at hstep
    split at hstep
    · cases hstep
      exact h.acceptCall ‹_›
    · cases hstep
  | acceptFail i =>
    simp only [move] at hstep
    split at hstep
    · next sock m_sock hi =>
      cases hstep
      exact h.of_same h.ok (fun _ => rfl)
        (fun id => mem_refs_acceptor hi nofun nofun)
        (h.alive_of_task (not_idle_of_acceptor hi nofun))
    · cases hstep
  | acceptNew i fd ok =>
    simp only [move] at hstep
    split at hstep
    · next sock m_sock hi =>
      obtain ⟨⟨-, hfree⟩, hstep⟩ := (Option.ite_none_right_eq_some ..).mp hstep
      cases hstep
      exact h.acceptNew hi hfree
    · cases hstep
  | clientClose c =>
    simp only [move] at hstep
    split at hstep
    · next client hc =>
      cases hstep
      refine h.of_same (h.ok.close _) (fun id => ?_) (fun _ => Iff.rfl)
        (h.alive_of_task (not_idle_of_handler hc))
      dsimp only
      rw [Sockets.close_objects]
      split
      · next heq => rw [heq, Option.isSome_map]
      · rfl
    · cases hstep
  | clientEnd c =>
    simp only [move] at hstep
    split at hstep
    · next client hc =>
      cases hstep
      refine owns_drop h.ok (fun id => ?_) fun hdead =>
        nomatch (h.alive_of_task (not_idle_of_handler hc)).symm.trans hdead
      rw [List.mem_singleton, ← mem_refs_handler hc]
      exact h.live id
    · cases hstep
  | release =>
    cases hstep
    exact ⟨h.ok, h.live, h.gone⟩
  | destroy =>
    simp only [move] at hstep
    obtain ⟨⟨-, -, hbinding, hidle⟩, hstep⟩ := (Option.ite_none_right_eq_some ..).mp hstep
    cases hstep
    exact ⟨h.closeAll.ok, h.closeAll.live, fun _ => ⟨rfl, hbinding, hidle⟩⟩
  | openForeign fd =>
    simp only [move] at hstep
    obtain ⟨hfree, hstep⟩ := (Option.ite_none_right_eq_some ..).mp hstep
    cases hstep
    exact ⟨h.ok.openForeign hfree, h.live, h.gone⟩
  | closeForeign fd =>
    simp only [move] at hstep
    obtain ⟨hforeign, hstep⟩ := (Option.ite_none_right_eq_some ..).mp hstep
    cases hstep
    exact ⟨h.ok.closeForeign hforeign, h.live, h.gone⟩

theorem owns_init (taken : Nat → Bool) (m_recvTimeout : UInt64) :
    (init taken m_recvTimeout).Owns :=
  ⟨Sockets.ok_init taken, fun _ => iff_of_false (fun h => nomatch h) (fun h => nomatch h),
    fun h => nomatch h⟩

/-! ## The files that no socket takes -/

/-- `Socket::init` refuses the descriptor. -/
def Label.refused : Label → Bool
  | .acceptNew _ _ ok => !ok
  | _ => false

@[simp] theorem drop_leaked (ids : List Nat) : (drop ids s).sockets.leaked = s.sockets.leaked := by
  unfold drop
  dsimp only
  generalize s.sockets = sockets
  induction ids generalizing sockets with
  | nil => rfl
  | cons id ids ih =>
    rw [List.foldl_cons, ih]
    split
    · rfl
    · exact Sockets.destroy_leaked id

@[simp] theorem closeAll_leaked : s.closeAll.sockets.leaked = s.sockets.leaked := by
  have hclose : ∀ (ids : List Nat) (sockets : Sockets),
      (ids.foldl Sockets.close sockets).leaked = sockets.leaked := by
    intro ids
    induction ids with
    | nil => exact fun _ => rfl
    | cons id ids ih => exact fun sockets => (ih _).trans (Sockets.close_leaked id)
  unfold closeAll
  rw [drop_leaked]
  exact hclose _ _

theorem Step.leaked {l : Label} (hstep : Step s l s') :
    s'.sockets.leaked.length = s.sockets.leaked.length + l.refused.toNat := by
  replace hstep := (step_iff.mp hstep).2
  cases l with
  | acceptNew i fd ok =>
    simp only [move] at hstep
    split at hstep
    · obtain ⟨-, hstep⟩ := (Option.ite_none_right_eq_some ..).mp hstep
      cases hstep
      unfold acceptNew
      cases ok with
      | true => simp [Label.refused]
      | false => simp [Label.refused, Sockets.leak, Sockets.openAt]
    · cases hstep
  | bindAddr fd ok =>
    simp only [move, bindAddr] at hstep
    split at hstep
    · cases hstep
    · split at hstep
      · cases hstep
        simp [Label.refused]
      · split at hstep
        · cases hstep
        · split at hstep <;>
          · cases hstep
            simp [Label.refused]
  | acceptCall i =>
    simp only [move] at hstep
    split at hstep
    · cases hstep
      unfold acceptCall
      split <;> simp [Label.refused]
    · cases hstep
  | _ =>
    simp only [move] at hstep
    repeat' split at hstep
    all_goals cases hstep
    all_goals simp [Label.refused, Sockets.openForeign, Sockets.closeForeign]

/-- A server that takes a connection, refuses another one, and stops. -/
def session : List Label :=
  [.bindBegin false, .bindAddr (some 3) true, .bindEnd, .start, .acceptCall 0, .acceptNew 0 4 true,
    .acceptCall 0, .acceptNew 0 5 false, .stop, .stopTask 0, .acceptCall 0, .clientEnd 0, .release,
    .destroy]

end Serving

end Captain
