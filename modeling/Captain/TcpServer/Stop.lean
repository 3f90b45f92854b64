import Captain.TcpServer.Serving

/-!
# `TcpServer::stop` and the loops of `startAccept` (`captain/tcp_server.cpp`)

`stop` sets `m_isStop`, which the loops look at between two calls of `accept`, and schedules the
closing of the sockets. `start` sets it back, and looks at nothing else.

* `loops_end_of_stop`: until the next `start`, each loop makes two more steps at most, and takes one
  more connection at most.
* `loop_faults_of_restart`: if `start` comes before the closing, a loop is left on a socket that has
  been closed, and until the next `stop` all that it can do is call `accept` on -1.
-/

namespace Captain

open Transition

/-- The steps that are left to a loop whose condition fails the next time. -/
def AcceptPc.left : AcceptPc → Nat
  | .accepting _ => 2
  | .checking => 1
  | .ended => 0

def AcceptPc.inAccept : AcceptPc → Bool
  | .accepting _ => true
  | _ => false

namespace Serving

variable {s s' t : Serving} {l : Label} {i : Nat}

/-- A step of the `i`-th loop. -/
def Label.ofLoop (i : Nat) : Label → Bool
  | .acceptCall j | .acceptFail j | .acceptNew j _ _ => i = j
  | _ => false

/-- The `i`-th loop gets a descriptor. -/
def Label.accepted (i : Nat) : Label → Bool
  | .acceptNew j _ _ => i = j
  | _ => false

/-- What a step of the `j`-th loop does to it. -/
inductive Turn (s : Serving) (j sock : Nat) : Label → AcceptPc → AcceptPc → Prop
  | ends (hstop : s.m_isStop = true) : Turn s j sock (.acceptCall j) .checking .ended
  | calls (hstop : s.m_isStop = false) : Turn s j sock (.acceptCall j) .checking
      (.accepting ((s.sockets.objects sock).bind SocketObject.m_sock))
  | fails (m_sock : Nat) : Turn s j sock (.acceptFail j) (.accepting (some m_sock)) .checking
  | takes (m_sock fd : Nat) (ok : Bool) :
      Turn s j sock (.acceptNew j fd ok) (.accepting (some m_sock)) .checking

/-- What a step does to the loops. -/
inductive Loops (s : Serving) (l : Label) (s' : Serving) : Prop
  | none (hl : ∀ i, l.ofLoop i = false ∧ l.accepted i = false)
      (hsame : s'.acceptors = s.acceptors)
  | started (hl : l = .start)
      (hmore : s'.acceptors = s.acceptors ++ s.m_socks.map fun sock => ⟨sock, .checking⟩)
  | turn (j sock : Nat) (pc pc' : AcceptPc) (hj : s.acceptors[j]? = some ⟨sock, pc⟩)
      (hset : s'.acceptors = s.acceptors.set j ⟨sock, pc'⟩) (hturn : Turn s j sock l pc pc')

theorem Step.loops (hstep : Step s l s') : Loops s l s' := by
  replace hstep := (step_iff.mp hstep).2
  cases l with
  | start =>
    simp only [move] at hstep
    obtain ⟨-, hstep⟩ := (Option.ite_none_right_eq_some ..).mp hstep
    cases hstep
    split
    · exact .none (fun _ => ⟨rfl, rfl⟩) rfl
    · exact .started rfl rfl
  | acceptCall j =>
    simp only [move] at hstep
    split at hstep
    · next sock hj =>
      cases hstep
      unfold acceptCall
      split
      · next hstop => exact .turn j sock _ _ hj rfl (.ends hstop)
      · next hstop => exact .turn j sock _ _ hj rfl (.calls (Bool.eq_false_iff.mpr hstop))
    · cases hstep
  | acceptFail j =>
    simp only [move] at hstep
    split at hstep
    · next sock m_sock hj =>
      cases hstep
      exact .turn j sock _ _ hj rfl (.fails m_sock)
    · cases hstep
  | acceptNew j fd ok =>
    simp only [move] at hstep
    split at hstep
    · next sock m_sock hj =>
      obtain ⟨-, hstep⟩ := (Option.ite_none_right_eq_some ..).mp hstep
      cases hstep
      unfold acceptNew
      split <;> exact .turn j sock _ _ hj rfl (.takes m_sock fd ok)
    · cases hstep
  | bindAddr fd ok =>
    simp only [move, bindAddr] at hstep
    repeat' split at hstep
    all_goals cases hstep
    all_goals exact .none (fun _ => ⟨rfl, rfl⟩) rfl
  | _ =>
    simp only [move] at hstep
    repeat' split at hstep
    all_goals cases hstep
    all_goals exact .none (fun _ => ⟨rfl, rfl⟩) rfl

theorem Step.m_isStop (hstep : Step s l s') : s'.m_isStop = s.m_isStop ∨
    (l = .start ∧ s'.m_isStop = false) ∨ (l = .stop ∧ s'.m_isStop = true) := by
  replace hstep := (step_iff.mp hstep).2
  cases l with
  | start =>
    simp only [move] at hstep
    obtain ⟨-, hstep⟩ := (Option.ite_none_right_eq_some ..).mp hstep
    cases hstep
    split
    · exact .inl rfl
    · exact .inr (.inl ⟨rfl, rfl⟩)
  | stop =>
    simp only [move] at hstep
    obtain ⟨-, hstep⟩ := (Option.ite_none_right_eq_some ..).mp hstep
    cases hstep
    exact .inr (.inr ⟨rfl, rfl⟩)
  | acceptCall j =>
    simp only [move, acceptCall] at hstep
    split at hstep
    · cases hstep
      split <;> exact .inl rfl
    · cases hstep
  | acceptNew j fd ok =>
    simp only [move, acceptNew] at hstep
    split at hstep
    · obtain ⟨-, hstep⟩ := (Option.ite_none_right_eq_some ..).mp hstep
      cases hstep
      split <;> exact .inl rfl
    · cases hstep
  | bindAddr fd ok =>
    simp only [move, bindAddr] at hstep
    repeat' split at hstep
    all_goals cases hstep
    all_goals exact .inl rfl
  | _ =>
    simp only [move] at hstep
    repeat' split at hstep
    all_goals cases hstep
    all_goals exact .inl rfl

/-! ## After `stop` -/

/-- The steps that are left to the `i`-th loop. -/
def left (s : Serving) (i : Nat) : Nat := (s.acceptors[i]?.map fun a => a.pc.left).getD 0

/-- The `i`-th loop is in `accept`. -/
def inAccept (s : Serving) (i : Nat) : Bool := s.acceptors[i]?.any fun a => a.pc.inAccept

/-- **Step.** -/
theorem Step.left (hstep : Step s l s') (hstop : s.m_isStop = true) (hl : l ≠ .start) (i : Nat) :
    s'.left i + (l.ofLoop i).toNat ≤ s.left i ∧
      (s'.inAccept i).toNat + (l.accepted i).toNat ≤ (s.inAccept i).toNat := by
  rcases hstep.loops with ⟨hnone, hsame⟩ | ⟨hstart, -⟩ | ⟨j, sock, pc, pc', hj, hset, hturn⟩
  · unfold Serving.left inAccept
    rw [(hnone i).1, (hnone i).2, hsame]
    exact ⟨Nat.le_refl _, Nat.le_refl _⟩
  · exact absurd hstart hl
  · unfold Serving.left inAccept
    rw [hset]
    by_cases heq : j = i
    · subst heq
      rw [List.getElem?_set_self' , hj]
      cases hturn with
      | ends => simp [AcceptPc.left, AcceptPc.inAccept, Label.ofLoop, Label.accepted]
      | calls hgo => exact absurd hstop (by rw [hgo]; exact Bool.false_ne_true)
      | fails => simp [AcceptPc.left, AcceptPc.inAccept, Label.ofLoop, Label.accepted]
      | takes => simp [AcceptPc.left, AcceptPc.inAccept, Label.ofLoop, Label.accepted]
    · have hother : l.ofLoop i = false ∧ l.accepted i = false := by
        cases hturn <;> simp [Label.ofLoop, Label.accepted, Ne.symm heq]
      rw [List.getElem?_set_ne heq, hother.1, hother.2]
      exact ⟨Nat.le_refl _, Nat.le_refl _⟩

/-- **Run.** Once `m_isStop` is set, and until the next `start`, a loop makes no more steps than are
left to it, two at most, and takes a connection only if it is in `accept`, and only one. -/
theorem loops_end_of_stop {ls : List Label}
    (h : Run (Guard (fun _ l => l ≠ .start) Step) s ls t) (hstop : s.m_isStop = true) (i : Nat) :
    t.m_isStop = true ∧ t.left i + ls.countP (Label.ofLoop i) ≤ s.left i ∧ s.left i ≤ 2 ∧
      (t.inAccept i).toNat + ls.countP (Label.accepted i) ≤ (s.inAccept i).toNat := by
  have hleft : ∀ u : Serving, u.left i ≤ 2 := by
    intro u
    unfold Serving.left
    cases u.acceptors[i]? with
    | none => exact Nat.zero_le _
    | some a =>
      obtain ⟨sock, pc⟩ := a
      cases pc <;> simp [AcceptPc.left]
  induction h with
  | nil => exact ⟨hstop, Nat.le_refl _, hleft _, Nat.le_refl _⟩
  | @cons s s₁ t l ls hst _ ih =>
    obtain ⟨hl, hstep⟩ := hst
    have hstop₁ : s₁.m_isStop = true := by
      rcases hstep.m_isStop with heq | ⟨hstart, -⟩ | ⟨-, heq⟩
      · exact heq.trans hstop
      · exact absurd hstart hl
      · exact heq
    obtain ⟨hend, hsteps, -, haccepted⟩ := ih hstop₁
    obtain ⟨hstepleft, hstepaccepted⟩ := hstep.left hstop hl i
    rw [List.countP_cons, List.countP_cons]
    have hcount : ∀ b : Bool, (if b = true then 1 else 0) = b.toNat := by decide
    rw [hcount, hcount]
    exact ⟨hend, by omega, hleft s, by omega⟩

/-- A server with one socket. -/
def bound : List Label := [.bindBegin false, .bindAddr (some 3) true, .bindEnd]

/-- The connection that comes while the loop is in `accept` is taken, and the loop ends. -/
theorem loops_end_of_stop_bound : ∃ s t,
    Run (Guard (fun _ l => l ≠ .start) Step) s [.acceptNew 0 4 true, .acceptCall 0] t ∧
      t.m_isStop = true ∧
      t.left 0 + [.acceptNew 0 4 true, .acceptCall 0].countP (Label.ofLoop 0) ≤ s.left 0 ∧
      s.left 0 ≤ 2 ∧
      (t.inAccept 0).toNat + [.acceptNew 0 4 true, .acceptCall 0].countP (Label.accepted 0) ≤
        (s.inAccept 0).toNat := by
  have hsome : ((exec next (init (· = 0) 120000) (bound ++ [.start, .acceptCall 0, .stop])).any
      fun s => s.m_isStop && (exec (guardNext (fun _ l => l ≠ .start) next) s
        [.acceptNew 0 4 true, .acceptCall 0]).isSome) = true := by decide
  obtain ⟨s, -, hs⟩ := Option.any_eq_true _ _ |>.mp hsome
  obtain ⟨hstop, hsome⟩ := Bool.and_eq_true_iff.mp hs
  have hrun := Run.of_exec_isSome (guardNext_sound fun _ _ _ h => h) hsome
  exact ⟨s, _, hrun, loops_end_of_stop hrun hstop 0⟩

/-! ## What becomes of a socket -/

theorem foldl_close_objects (ids : List Nat) (sockets : Sockets) (id : Nat) :
    (ids.foldl Sockets.close sockets).objects id =
      if id ∈ ids then (sockets.objects id).map Sockets.shut else sockets.objects id := by
  induction ids generalizing sockets with
  | nil => rfl
  | cons id₀ ids ih =>
    have hshut : ∀ k, Sockets.shut (Sockets.shut k) = Sockets.shut k := fun _ => rfl
    rw [List.foldl_cons, ih, Sockets.close_objects]
    by_cases heq : id = id₀
    · subst heq
      rw [if_pos rfl, if_pos List.mem_cons_self]
      split
      · rw [Option.map_map]
        exact Option.map_congr fun k _ => hshut k
      · rfl
    · rw [if_neg heq]
      exact if_congr (by rw [List.mem_cons, or_iff_right heq]) rfl rfl

/-- It stays, is closed, or is destroyed. -/
def Kept (k : SocketObject) (o : Option SocketObject) : Prop :=
  o = none ∨ o = some k ∨ o = some (Sockets.shut k)

theorem kept_drop {ids : List Nat} {k : SocketObject} {id : Nat} (hok : s.sockets.Ok)
    (h : Kept k (s.sockets.objects id)) : Kept k ((drop ids s).sockets.objects id) := by
  have hobjects := (@foldl_destroy s.refs ids _ hok).2 id
  unfold drop
  dsimp only
  rw [hobjects]
  split
  · exact .inl rfl
  · exact h

theorem kept_closeAll {k : SocketObject} {id : Nat} (hok : s.sockets.Ok)
    (h : s.sockets.objects id = some k) : Kept k (s.closeAll.sockets.objects id) := by
  refine kept_drop (foldl_close hok).1 ?_
  dsimp only
  rw [foldl_close_objects, h]
  split
  · exact .inr (.inr rfl)
  · exact .inr (.inl rfl)

theorem kept_make {m_sock : Option Nat} {m_isConnected : Bool} {recvTimeout : Option UInt64}
    {k : SocketObject} {id : Nat} (hok : s.sockets.Ok) (h : s.sockets.objects id = some k) :
    (s.sockets.make m_sock m_isConnected recvTimeout).objects id = some k ∧
      ((s.sockets.make m_sock m_isConnected recvTimeout).destroy s.sockets.next).objects id =
        some k := by
  have hne : id ≠ s.sockets.next := by
    rintro rfl
    rw [hok.bound _ (Nat.le_refl _)] at h
    cases h
  have hmake : (s.sockets.make m_sock m_isConnected recvTimeout).objects id = some k := by
    cases m_sock <;> exact (Function.update_of_ne hne _ _).trans h
  rw [Sockets.destroy_objects, if_neg hne]
  exact ⟨hmake, hmake⟩

theorem Step.kept (hstep : Step s l s') (hok : s.sockets.Ok) {k : SocketObject} {id : Nat}
    (h : s.sockets.objects id = some k) : Kept k (s'.sockets.objects id) := by
  have hsame : Kept k (s.sockets.objects id) := .inr (.inl h)
  replace hstep := (step_iff.mp hstep).2
  cases l with
  | bindAddr fd ok =>
    simp only [move, bindAddr] at hstep
    repeat' split at hstep
    all_goals cases hstep
    · exact .inr (.inl (kept_make hok h).2)
    · next fd _ _ => exact .inr (.inl (@kept_make s (some fd) false none _ _ hok h).1)
    · exact .inr (.inl (kept_make hok h).2)
  | stopTask j =>
    simp only [move] at hstep
    obtain ⟨-, hstep⟩ := (Option.ite_none_right_eq_some ..).mp hstep
    cases hstep
    exact kept_closeAll hok h
  | destroy =>
    simp only [move] at hstep
    obtain ⟨-, hstep⟩ := (Option.ite_none_right_eq_some ..).mp hstep
    cases hstep
    exact kept_closeAll hok h
  | acceptCall j =>
    simp only [move, acceptCall] at hstep
    split at hstep
    · cases hstep
      split
      · exact kept_drop hok hsame
      · exact hsame
    · cases hstep
  | acceptNew j fd ok =>
    simp only [move, acceptNew] at hstep
    split at hstep
    · obtain ⟨-, hstep⟩ := (Option.ite_none_right_eq_some ..).mp hstep
      cases hstep
      split
      · exact .inr (.inl (@kept_make s (some fd) true (some s.m_recvTimeout) _ _ hok h).1)
      · exact hsame
    · cases hstep
  | clientClose c =>
    simp only [move] at hstep
    split at hstep
    · cases hstep
      dsimp only
      rw [Sockets.close_objects]
      split
      · next heq =>
        rw [heq] at h
        rw [h]
        exact .inr (.inr rfl)
      · exact hsame
    · cases hstep
  | _ =>
    simp only [move] at hstep
    repeat' split at hstep
    all_goals cases hstep
    all_goals first | exact hsame | exact kept_drop hok hsame

/-! ## `start` before the closing -/

/-- The `i`-th loop goes on, on a socket that has no descriptor. -/
structure Closed (s : Serving) (i sock : Nat) : Prop where
  owns : s.Owns
  started : s.m_isStop = false
  loop : s.acceptors[i]? = some ⟨sock, .checking⟩ ∨ s.acceptors[i]? = some ⟨sock, .accepting none⟩
  closed : ∃ k, s.sockets.objects sock = some k ∧ k.m_sock = none

/-- **Step.** -/
theorem Closed.step {sock : Nat} (h : s.Closed i sock) (hstep : Step s l s') (hl : l ≠ .stop) :
    s'.Closed i sock ∧ l.accepted i = false ∧
      (l.ofLoop i = true → s'.acceptors[i]? = some ⟨sock, .accepting none⟩) := by
  have howns := hstep.owns h.owns
  obtain ⟨k, hk, hnone⟩ := h.closed
  have hstarted : s'.m_isStop = false := by
    rcases hstep.m_isStop with heq | ⟨-, heq⟩ | ⟨hstop, -⟩
    · exact heq.trans h.started
    · exact heq
    · exact absurd hstop hl
  obtain ⟨hloop, haccepted, hown⟩ : (s'.acceptors[i]? = some ⟨sock, .checking⟩ ∨
      s'.acceptors[i]? = some ⟨sock, .accepting none⟩) ∧ l.accepted i = false ∧
      (l.ofLoop i = true → s'.acceptors[i]? = some ⟨sock, .accepting none⟩) := by
    rcases hstep.loops with ⟨hl', hsame⟩ | ⟨rfl, hmore⟩ | ⟨j, sock', pc, pc', hj, hset, hturn⟩
    · rw [hsame]
      exact ⟨h.loop, (hl' i).2, fun hof => absurd hof (Bool.eq_false_iff.mp (hl' i).1)⟩
    · have hlt : i < s.acceptors.length := by
        rcases h.loop with hi | hi <;> exact (List.getElem?_eq_some_iff.mp hi).1
      rw [hmore, List.getElem?_append_left hlt]
      exact ⟨h.loop, rfl, nofun⟩
    · by_cases heq : j = i
      · subst heq
        rw [hset, List.getElem?_set_self', hj]
        rcases h.loop with hi | hi
        · rw [hj] at hi
          cases hi
          cases hturn with
          | ends hstop => exact nomatch hstop.symm.trans h.started
          | calls =>
            rw [hk, Option.bind_some, hnone]
            exact ⟨.inr rfl, rfl, fun _ => rfl⟩
        · rw [hj] at hi
          cases hi
          cases hturn
      · rw [hset, List.getElem?_set_ne heq]
        refine ⟨h.loop, ?_, fun hof => ?_⟩
        · cases hturn <;> simp [Label.accepted, Ne.symm heq]
        · cases hturn <;> simp [Label.ofLoop, Ne.symm heq] at hof
  have hrefs : sock ∈ s'.refs := by
    refine Serving.mem_refs.mpr (.inr (.inl ?_))
    rcases hloop with hi | hi
    · exact ⟨_, List.mem_of_getElem? hi, nofun, rfl⟩
    · exact ⟨_, List.mem_of_getElem? hi, nofun, rfl⟩
  have hlive := (howns.live sock).mpr hrefs
  refine ⟨⟨howns, hstarted, hloop, ?_⟩, haccepted, hown⟩
  rcases hstep.kept h.owns.ok hk with hgone | hkept | hshut
  · rw [hgone] at hlive
    cases hlive
  · exact ⟨k, hkept, hnone⟩
  · exact ⟨_, hshut, rfl⟩

/-- After `stop`. -/
def stopped (s : Serving) : Serving := { s with m_isStop := true, stops := s.stops ++ [false] }

/-- After the `start` that follows. -/
def restarted (s : Serving) : Serving :=
  { s.stopped with
    m_isStop := false
    acceptors := s.acceptors ++ s.m_socks.map fun sock => ⟨sock, .checking⟩ }

theorem faulted_restarted (h : s.faulted = false) : s.restarted.faulted = false := by
  unfold faulted restarted at *
  dsimp only
  rw [List.any_append, h, Bool.false_or, List.any_map]
  exact List.any_eq_false.mpr fun sock _ => Bool.false_ne_true

/-- The three calls leave a loop on a closed socket. -/
theorem closed_of_restart (howns : s.Owns) (halive : s.alive = true) (hbinding : s.binding = none)
    (hfault : s.faulted = false) {sock : Nat} (hmem : sock ∈ s.m_socks) :
    ∃ u i, Run Step s [.stop, .start, .stopTask s.stops.length] u ∧ u.m_socks = [] ∧
      u.faulted = false ∧ u.Closed i sock := by
  obtain ⟨n, hn⟩ := List.getElem?_of_mem hmem
  have h₁ : Step s .stop s.stopped := step_iff.mpr ⟨hfault, if_pos halive⟩
  have h₂ : Step s.stopped .start s.restarted :=
    step_iff.mpr ⟨hfault, if_pos ⟨halive, hbinding⟩⟩
  have htask : s.restarted.stops[s.stops.length]? = some false := by
    show (s.stops ++ [false])[s.stops.length]? = some false
    rw [List.getElem?_append_right (Nat.le_refl _), Nat.sub_self]
    rfl
  have hfault₂ := faulted_restarted hfault
  have h₃ : Step s.restarted (.stopTask s.stops.length)
      { s.restarted.closeAll with stops := s.restarted.stops.set s.stops.length true } :=
    step_iff.mpr ⟨hfault₂, if_pos htask⟩
  have howns₂ : s.restarted.Owns := h₂.owns (h₁.owns howns)
  have hloop : s.restarted.acceptors[s.acceptors.length + n]? = some ⟨sock, .checking⟩ := by
    show (s.acceptors ++ s.m_socks.map _)[s.acceptors.length + n]? = _
    rw [List.getElem?_append_right (Nat.le_add_right _ _), Nat.add_sub_cancel_left,
      List.getElem?_map, hn]
    rfl
  have hrefs : sock ∈ s.restarted.closeAll.refs :=
    Serving.mem_refs.mpr (.inr (.inl ⟨_, List.mem_of_getElem? hloop, nofun, rfl⟩))
  refine ⟨_, s.acceptors.length + n, .cons h₁ (.cons h₂ (.cons h₃ (.nil _))), rfl, hfault₂,
    h₃.owns howns₂, rfl, .inl hloop, ?_⟩
  -- The loop points to the socket, so it is closed but not destroyed.
  obtain ⟨k, hk⟩ := Option.isSome_iff_exists.mp ((howns₂.closeAll.live sock).mpr hrefs)
  refine ⟨k, hk, ?_⟩
  have hclose := foldl_close_objects s.restarted.m_socks s.restarted.sockets sock
  have hobjects := (@foldl_destroy s.restarted.closeAll.refs s.restarted.m_socks _
    (@foldl_close s.restarted.m_socks _ howns₂.ok).1).2 sock
  have hmem₂ : sock ∈ s.restarted.m_socks := hmem
  rw [if_neg fun hand => hand.2 hrefs, hclose, if_pos hmem₂] at hobjects
  obtain ⟨k₀, -, rfl⟩ := Option.map_eq_some_iff.mp (hobjects.symm.trans hk)
  rfl

/-- **Restart.** If `start` is called between a call of `stop` and the closing that this has
scheduled, the server forgets each of its sockets and leaves a loop on it that never takes a
connection; until the next `stop` its one next step, which it can take at any time, is to call
`accept` on -1. -/
theorem loop_faults_of_restart {taken : Nat → Bool} {m_recvTimeout : UInt64} {ls : List Label}
    (h : Run Step (init taken m_recvTimeout) ls s) (halive : s.alive = true)
    (hbinding : s.binding = none) (hfault : s.faulted = false) {sock : Nat}
    (hmem : sock ∈ s.m_socks) :
    ∃ u i, Run Step s [.stop, .start, .stopTask s.stops.length] u ∧ u.m_socks = [] ∧
      u.faulted = false ∧
      ∀ ls t, Run (Guard (fun _ l => l ≠ .stop) Step) u ls t →
        ls.countP (Label.accepted i) = 0 ∧
          (t.faulted = false →
            ∃ t', Step t (.acceptCall i) t' ∧
              t'.acceptors[i]? = some ⟨sock, .accepting none⟩ ∧ t'.faulted = true) ∧
          ∀ l t', l.ofLoop i = true → Step t l t' →
            t'.acceptors[i]? = some ⟨sock, .accepting none⟩ ∧ t'.faulted = true := by
  have howns := h.invariant (fun _ _ _ howns hstep => Step.owns howns hstep)
    (owns_init taken m_recvTimeout)
  obtain ⟨u, i, hrun, hsocks, hfaultu, hclosed⟩ :=
    closed_of_restart howns halive hbinding hfault hmem
  refine ⟨u, i, hrun, hsocks, hfaultu, fun ls t hrun' => ?_⟩
  have hall : ls.countP (Label.accepted i) = 0 ∧ t.Closed i sock := by
    clear hrun hsocks hfaultu
    induction hrun' with
    | nil => exact ⟨rfl, hclosed⟩
    | cons hst _ ih =>
      obtain ⟨hnext, haccepted, -⟩ := hclosed.step hst.2 hst.1
      obtain ⟨hcount, hend⟩ := ih hnext
      exact ⟨by rw [List.countP_cons, hcount, haccepted]; rfl, hend⟩
  have hfaults : ∀ t' : Serving, t'.acceptors[i]? = some ⟨sock, .accepting none⟩ →
      t'.faulted = true := fun t' hi =>
    List.any_eq_true.mpr ⟨_, List.mem_of_getElem? hi, decide_eq_true rfl⟩
  have hown : ∀ l t', l.ofLoop i = true → Step t l t' →
      t'.acceptors[i]? = some ⟨sock, .accepting none⟩ ∧ t'.faulted = true := by
    intro l t' hof hstep
    have hl : l ≠ .stop := by
      rintro rfl
      cases hof
    have hi := (hall.2.step hstep hl).2.2 hof
    exact ⟨hi, hfaults t' hi⟩
  refine ⟨hall.1, fun hfaultt => ?_, hown⟩
  rcases hall.2.loop with hi | hi
  · have hstep : Step t (.acceptCall i) (t.acceptCall i sock) :=
      step_iff.mpr ⟨hfaultt, by simp only [move, hi]⟩
    exact ⟨_, hstep, hown (.acceptCall i) _ (decide_eq_true rfl) hstep⟩
  · rw [hfaults t hi] at hfaultt
    cases hfaultt

theorem loop_faults_of_restart_bound : ∃ s u i, Run Step (init (· = 0) 120000) bound s ∧
    Run Step s [.stop, .start, .stopTask s.stops.length] u ∧ u.m_socks = [] ∧
      u.faulted = false ∧
      ∀ ls t, Run (Guard (fun _ l => l ≠ .stop) Step) u ls t →
        ls.countP (Label.accepted i) = 0 ∧
          (t.faulted = false →
            ∃ t', Step t (.acceptCall i) t' ∧
              t'.acceptors[i]? = some ⟨0, .accepting none⟩ ∧ t'.faulted = true) ∧
          ∀ l t', l.ofLoop i = true → Step t l t' →
            t'.acceptors[i]? = some ⟨0, .accepting none⟩ ∧ t'.faulted = true := by
  have hany : ((exec next (init (· = 0) 120000) bound).any
      fun s => s.alive && s.binding = none && !s.faulted && s.m_socks.contains 0) = true := by
    decide
  obtain ⟨s, hrun, hs⟩ := Run.of_exec_any (fun _ _ _ h => h) hany
  simp only [Bool.and_eq_true, decide_eq_true_eq, Bool.not_eq_true', List.contains_iff_mem] at hs
  obtain ⟨u, i, hfaults⟩ := loop_faults_of_restart hrun hs.1.1.1 hs.1.1.2 hs.1.2 hs.2
  exact ⟨s, u, i, hrun, hfaults⟩

end Serving

end Captain
