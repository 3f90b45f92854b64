import Captain.Transition
import Mathlib.Data.List.Forall2

/-!
# `TcpServer::bind` (`captain/tcp_server.cpp`, `captain/socket.cpp`)

The sockets of a call are appended to those of earlier calls, and the addresses that failed to a
list of the caller.

* `bind_allOrNothing_iff`: the call is all or nothing exactly when the server had no socket before,
  if some address fails, and when the caller's list was empty before, if none fails.
-/

namespace Captain

variable {α : Type}

/-- What the system's `socket`, `bind` and `listen` return, should they be called for an address. -/
structure SocketCalls where
  socket : Int
  bind : Int
  listen : Int

structure Socket (α : Type) where
  m_sock : Int
  m_family : Int
  m_type : Int
  m_protocol : Int
  /-- The address to which the system has bound the descriptor. -/
  bound : Option α
  /-- The system takes connections on the descriptor. -/
  listening : Bool
  deriving DecidableEq

namespace Socket

def TCP : Int := 1

def CreateTCP (getFamily : α → Int) (address : α) : Socket α :=
  ⟨-1, getFamily address, TCP, 0, none, false⟩

def isValid (sock : Socket α) : Bool := sock.m_sock ≠ -1

def newSock (calls : SocketCalls) (sock : Socket α) : Socket α :=
  { sock with m_sock := calls.socket }

def bind (getFamily : α → Int) (calls : SocketCalls) (sock : Socket α) (addr : α) :
    Bool × Socket α :=
  let sock := if !sock.isValid then sock.newSock calls else sock
  if !sock.isValid then (false, sock)
  else if getFamily addr ≠ sock.m_family then (false, sock)
  else if calls.bind ≠ 0 then (false, sock)
  else (true, { sock with bound := some addr })

def listen (calls : SocketCalls) (sock : Socket α) : Bool × Socket α :=
  if !sock.isValid then (false, sock)
  else if calls.listen ≠ 0 then (false, sock)
  else (true, { sock with listening := true })

/-- It takes connections at the address. -/
def ListensAt (addr : α) (sock : Socket α) : Prop :=
  sock.isValid = true ∧ sock.bound = some addr ∧ sock.listening = true

end Socket

/-- None of the system's calls fails. -/
def SocketCalls.succeed (calls : SocketCalls) : Bool :=
  calls.socket ≠ -1 && calls.bind = 0 && calls.listen = 0

structure TcpServer (α : Type) where
  m_socks : List (Socket α)
  m_ssl : Bool
  deriving DecidableEq

namespace TcpServer

variable (getFamily : α → Int)

/-- A round of the loop over the addresses: the sockets and `fails`. -/
def bindOne (acc : List (Socket α) × List α) (addr : α × SocketCalls) :
    List (Socket α) × List α :=
  let sock := Socket.CreateTCP getFamily addr.1
  let (bound, sock) := sock.bind getFamily addr.2 addr.1
  if !bound then (acc.1, acc.2 ++ [addr.1])
  else
    let (listening, sock) := sock.listen addr.2
    if !listening then (acc.1, acc.2 ++ [addr.1])
    else (acc.1 ++ [sock], acc.2)

/-- The result, the server and `fails`. Each address comes with what the system answers. -/
def bind (s : TcpServer α) (addrs : List (α × SocketCalls)) (fails : List α) (ssl : Bool) :
    Bool × TcpServer α × List α :=
  let (m_socks, fails) := addrs.foldl (bindOne getFamily) (s.m_socks, fails)
  if !fails.isEmpty then (false, ⟨[], ssl⟩, fails)
  else (true, ⟨m_socks, ssl⟩, fails)

/-- The addresses for which one of the system's calls fails. -/
def failed (addrs : List (α × SocketCalls)) : List α :=
  (addrs.filter fun addr => !addr.2.succeed).map Prod.fst

/-- What a call that is all or nothing leaves, from the state `s` and the list `fails`. -/
def AllOrNothing (s : TcpServer α) (addrs : List (α × SocketCalls)) (fails : List α) :
    Bool × TcpServer α × List α → Prop
  | (result, s', fails') =>
    (failed addrs ≠ [] → result = false ∧ fails' = fails ++ failed addrs ∧
      s'.m_socks = s.m_socks) ∧
    (failed addrs = [] → result = true ∧ ∃ socks, s'.m_socks = s.m_socks ++ socks ∧
      List.Forall₂ (fun addr sock => Socket.ListensAt addr.1 sock) addrs socks)

/-- The socket that a round adds. -/
def opened (addr : α × SocketCalls) : Socket α :=
  ⟨addr.2.socket, getFamily addr.1, Socket.TCP, 0, some addr.1, true⟩

variable {getFamily}

theorem bindOne_eq (acc : List (Socket α) × List α) (addr : α × SocketCalls) :
    bindOne getFamily acc addr =
      if addr.2.succeed then (acc.1 ++ [opened getFamily addr], acc.2)
      else (acc.1, acc.2 ++ [addr.1]) := by
  obtain ⟨address, calls⟩ := addr
  unfold bindOne Socket.bind Socket.listen Socket.CreateTCP SocketCalls.succeed opened
  by_cases hsocket : calls.socket = -1
  · simp [Socket.isValid, Socket.newSock, hsocket]
  · by_cases hbind : calls.bind = 0
    · by_cases hlisten : calls.listen = 0 <;>
        simp [Socket.isValid, Socket.newSock, hsocket, hbind, hlisten]
    · simp [Socket.isValid, Socket.newSock, hsocket, hbind]

/-- The sockets and the failures of the whole loop. -/
theorem foldl_bindOne (addrs : List (α × SocketCalls)) (m_socks : List (Socket α))
    (fails : List α) :
    addrs.foldl (bindOne getFamily) (m_socks, fails) =
      (m_socks ++ (addrs.filter fun addr => addr.2.succeed).map (opened getFamily),
        fails ++ failed addrs) := by
  induction addrs generalizing m_socks fails with
  | nil => simp only [List.foldl_nil, failed, List.filter_nil, List.map_nil, List.append_nil]
  | cons addr addrs ih =>
    rw [List.foldl_cons, bindOne_eq]
    unfold failed at ih ⊢
    cases hcalls : addr.2.succeed with
    | true =>
      rw [if_pos rfl, ih]
      simp only [List.filter_cons, hcalls, Bool.not_true, Bool.false_eq_true, if_true, if_false,
        List.map_cons, List.append_assoc, List.singleton_append]
    | false =>
      rw [if_neg Bool.false_ne_true, ih]
      simp only [List.filter_cons, hcalls, Bool.not_false, Bool.false_eq_true, if_true, if_false,
        List.map_cons, List.append_assoc, List.singleton_append]

theorem failed_eq_nil_iff {addrs : List (α × SocketCalls)} :
    failed addrs = [] ↔ ∀ addr ∈ addrs, addr.2.succeed = true := by
  unfold failed
  rw [List.map_eq_nil_iff, List.filter_eq_nil_iff]
  simp only [Bool.not_eq_true', Bool.not_eq_false]

/-- The result of the call: the sockets are kept only if `fails` is empty at the end. -/
theorem bind_eq (s : TcpServer α) (addrs : List (α × SocketCalls)) (fails : List α) (ssl : Bool) :
    s.bind getFamily addrs fails ssl =
      if fails ++ failed addrs = [] then
        (true, ⟨s.m_socks ++ addrs.map (opened getFamily), ssl⟩, [])
      else (false, ⟨[], ssl⟩, fails ++ failed addrs) := by
  unfold bind
  rw [foldl_bindOne]
  by_cases h : fails ++ failed addrs = []
  · have hall := failed_eq_nil_iff.mp (List.append_eq_nil_iff.mp h).2
    have hfilter : (addrs.filter fun addr => addr.2.succeed) = addrs :=
      List.filter_eq_self.mpr hall
    simp only [h, hfilter, List.isEmpty_nil, Bool.not_true, Bool.false_eq_true, if_false, if_true]
  · have hne : (fails ++ failed addrs).isEmpty = false := by
      rw [Bool.eq_false_iff, ne_eq, List.isEmpty_iff]
      exact h
    simp only [hne, h, Bool.not_false, if_true, if_false]

theorem listensAt_opened {addr : α × SocketCalls} (h : addr.2.succeed = true) :
    Socket.ListensAt addr.1 (opened getFamily addr) := by
  unfold SocketCalls.succeed at h
  rw [Bool.and_eq_true, Bool.and_eq_true] at h
  exact ⟨h.1.1, rfl, rfl⟩

theorem forall₂_listensAt {addrs : List (α × SocketCalls)}
    (h : ∀ addr ∈ addrs, addr.2.succeed = true) :
    List.Forall₂ (fun addr sock => Socket.ListensAt addr.1 sock) addrs
      (addrs.map (opened getFamily)) := by
  rw [List.forall₂_map_right_iff, List.forall₂_same]
  exact fun addr haddr => listensAt_opened (h addr haddr)

theorem bind_allOrNothing_iff (s : TcpServer α) (addrs : List (α × SocketCalls)) (fails : List α)
    (ssl : Bool) :
    AllOrNothing s addrs fails (s.bind getFamily addrs fails ssl) ↔
      (failed addrs ≠ [] → s.m_socks = []) ∧ (failed addrs = [] → fails = []) := by
  rw [bind_eq]
  by_cases hfailed : failed addrs = []
  · rw [hfailed, List.append_nil]
    by_cases hfails : fails = []
    · rw [if_pos hfails]
      refine iff_of_true ⟨fun h => absurd hfailed h, fun _ => ⟨rfl, _, rfl, ?_⟩⟩
        ⟨fun h => absurd rfl h, fun _ => hfails⟩
      exact forall₂_listensAt (failed_eq_nil_iff.mp hfailed)
    · rw [if_neg hfails]
      -- The list of an earlier call makes this one fail.
      refine iff_of_false (fun h => ?_) fun h => hfails (h.2 rfl)
      exact Bool.false_ne_true (h.2 hfailed).1
  · have hne : fails ++ failed addrs ≠ [] := fun h => hfailed (List.append_eq_nil_iff.mp h).2
    rw [if_neg hne]
    constructor
    · intro h
      exact ⟨fun _ => (h.1 hfailed).2.2.symm, fun h' => absurd h' hfailed⟩
    · intro h
      exact ⟨fun _ => ⟨rfl, rfl, (h.1 hfailed).symm⟩, fun h' => absurd h' hfailed⟩

/-- The server listens at an address, and the next one cannot be bound. -/
theorem bind_drops_earlier :
    ¬∀ (s : TcpServer Nat) (addrs : List (Nat × SocketCalls)) (fails : List Nat) (ssl : Bool),
      AllOrNothing s addrs fails (s.bind (fun _ => 2) addrs fails ssl) := by
  intro h
  have hkept := ((h ⟨[⟨3, 2, Socket.TCP, 0, some 80, true⟩], false⟩ [(81, ⟨4, -1, 0⟩)] [] false).1
    (by decide)).2.2
  exact absurd hkept (by decide)

end TcpServer

end Captain
