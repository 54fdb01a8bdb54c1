import Vcmp.Lib.Views
import Vcmp.Theorems.Api
import Vcmp.Theorems.Session

/-! Many clients of one WebSocket server: whatever the others do, each connection goes through a session of its own,
    in which reports of the program are sent to it while it is registered. -/

namespace Vcmp.Websockets
open ByteMem Lts

/-! ### The user behind a connection -/

section Users
variable {σ τ : Type} {ssl : Digest} {ctx : WsCtx σ} {ctx' : WsCtx τ} {env : PassEnv} {bev : Nat} {s : Conn} {u : σ} {v : τ}

/-- A user that leaves the client objects as they are. -/
def Keeps (ctx : WsCtx σ) : Prop := ∀ bev client u, (ctx.callAccept bev client u).1 = client

/-- All callbacks are `NULL`. -/
def nobody : WsCtx Unit := ⟨none, none, none⟩

theorem keeps_nobody : Keeps nobody := fun _ _ _ => rfl

/-- What a pass does to the connection is the same for all such users. -/
theorem readHandshake_keeps (keeps : Keeps ctx) (keeps' : Keeps ctx') :
    (readHandshake ssl ctx env bev s u).1 = (readHandshake ssl ctx' env bev s v).1 := by
  simp only [readHandshake]
  split
  · rfl
  · cases wsHeaderGet ((wsParseHandshake env.malloc (CInt.toInt s.input.length)).run { mem := s.peek env }).1
        "Sec-WebSocket-Key".toUTF8.toList with
    | none => rfl
    | some entry =>
      simp only
      split
      · rfl
      · split
        · rfl
        · simp only [keeps bev, keeps' bev]

theorem readPass_keeps (keeps : Keeps ctx) (keeps' : Keeps ctx') :
    (readPass ssl ctx env bev s u).1 = (readPass ssl ctx' env bev s v).1 ∧
      (readPass ssl ctx env bev s u).2.2 = (readPass ssl ctx' env bev s v).2.2 := by
  cases young : s.client.handshakeDone with
  | false =>
    simp only [readPass, young, Bool.not_false, if_true]
    exact ⟨readHandshake_keeps keeps keeps', trivial⟩
  | true =>
    simp only [readPass, young, Bool.not_true, Bool.false_eq_true, if_false]
    by_cases mask : NoMaskBit s env
    · rw [readFrame_unmasked mask, readFrame_unmasked mask]
      exact ⟨rfl, rfl⟩
    · by_cases close : opcodeOf s env = wsOpcodeClose
      · cases write : env.write with
        | false =>
          rw [readFrame_unanswered mask close write, readFrame_unanswered mask close write]
          exact ⟨rfl, rfl⟩
        | true =>
          rw [readFrame_answered mask close write, readFrame_answered mask close write]
          exact ⟨rfl, rfl⟩
      · rw [readFrame_data mask close, readFrame_data mask close]
        exact ⟨rfl, rfl⟩

namespace Session
variable {e : Event} {pending : Bool} {t : Session σ}

/-- The session without its user. -/
def alone (w : Session σ) : Session Unit := ⟨w.conn, (), w.pending⟩

theorem runPass_alone (keeps : Keeps ctx) (w : Session σ) (p : PassEnv × Conn) :
    (w.runPass ssl ctx bev p).alone = w.alone.runPass ssl nobody bev p := by
  obtain ⟨hconn, hagain⟩ := readPass_keeps (v := ()) keeps keeps_nobody
  rw [runPass, runPass, alone, hconn, hagain]

theorem step_alone (keeps : Keeps ctx) {w : Session σ} (h : step ssl ctx bev w e = some t) :
    step ssl nobody bev w.alone e = some t.alone := by
  rw [step.eq_def, Option.ite_none_right_eq_some] at h
  obtain ⟨live, h⟩ := h
  rw [step.eq_def, if_pos (show w.alone.conn.Live from live)]
  cases e with
  | read bytes env =>
    obtain ⟨p, hp, rfl⟩ := Option.map_eq_some_iff.mp h
    exact Option.map_eq_some_iff.mpr ⟨p, hp, (runPass_alone keeps w p).symm⟩
  | trigger env =>
    obtain ⟨p, hp, rfl⟩ := Option.map_eq_some_iff.mp h
    exact Option.map_eq_some_iff.mpr ⟨p, hp, (runPass_alone keeps w p).symm⟩
  | event events =>
    obtain ⟨hpending, h⟩ := Option.ite_none_left_eq_some.mp h
    refine Option.ite_none_left_eq_some.mpr ⟨hpending, ?_⟩
    obtain rfl := Option.some.inj h
    by_cases bits : events &&& bevEventEofError ≠ 0
    · simp only [eventCb_ended bits, alone]
    · simp only [eventCb_other bits, alone]
  | drained =>
    obtain ⟨hpending, h⟩ := Option.ite_none_left_eq_some.mp h
    obtain rfl := Option.some.inj h
    exact Option.ite_none_left_eq_some.mpr ⟨hpending, rfl⟩
  | send malloc write opcode data =>
    obtain rfl := Option.some.inj h
    rfl

end Session
end Users

/-! ### The loop -/

section Loop
variable {σ : Type} {ssl : Digest} {ctx : WsCtx σ} {w t : Server σ} {e : Event}

/-- The connection that an event is for, and what it is there. -/
def Server.serves (w : Server σ) : Event → Option (Nat × Session.Event)
  | .accept _ _ => none
  | .read bev bytes env => some (bev, .read bytes env)
  | .trigger env => w.pending.map fun bev => (bev, .trigger env)
  | .event bev events => some (bev, .event events)
  | .drained bev => some (bev, .drained)

/-- `t` is what the loop makes of `w` by a step of the session of one connection. -/
inductive Serves (ssl : Digest) (ctx : WsCtx σ) (w : Server σ) (e : Event) : Server σ → Prop
  | intro (bev : Nat) (e' : Session.Event) (s : Conn) (u : Session σ) (serves : w.serves e = some (bev, e'))
      (live : w.live? bev = some s) (free : w.pending = none ∨ w.pending = some bev)
      (step : Session.step ssl ctx bev ⟨s, w.user, w.pending.isSome⟩ e' = some u) :
      Serves ssl ctx w e (w.set bev u.conn u.user (if u.pending then some bev else none))

theorem serves_of_step {bev : Nat} {e' : Session.Event} {s : Conn} (at' : e'.at? bev = some e) (serves : w.serves e = some (bev, e'))
    (free : w.pending = none ∨ w.pending = some bev) (live : w.live? bev = some s) (h : step ssl ctx w e = some t) :
    Serves ssl ctx w e t := by
  rw [Session.step_loop live free at'] at h
  obtain ⟨u, hu, rfl⟩ := Option.map_eq_some_iff.mp h
  exact .intro bev e' s u serves live free hu

/-- The loop accepts a connection, or takes a step of the session of one. -/
theorem step_serves (h : step ssl ctx w e = some t) : Serves ssl ctx w e t ∨
    w.serves e = none ∧ w.pending = none ∧
      (t = w ∨ ∃ bufferevent client s, acceptConnCb bufferevent client = some s ∧ t = { w with conns := w.conns ++ [s] }) := by
  have hstep := h
  cases e with
  | accept bufferevent client =>
    rw [step, Option.ite_none_left_eq_some, Option.not_isSome_iff_eq_none] at h
    obtain ⟨hpending, h⟩ := h
    refine Or.inr ⟨rfl, hpending, ?_⟩
    cases hconn : acceptConnCb bufferevent client with
    | none =>
      rw [hconn] at h
      exact Or.inl (Option.some.inj h).symm
    | some s =>
      rw [hconn] at h
      exact Or.inr ⟨bufferevent, client, s, hconn, (Option.some.inj h).symm⟩
  | read bev bytes env =>
    obtain ⟨p, hp, -⟩ := Option.map_eq_some_iff.mp h
    obtain ⟨hpending, hlive⟩ := Option.ite_none_left_eq_some.mp hp
    obtain ⟨s, hs, -⟩ := Option.map_eq_some_iff.mp hlive
    have at' : (Session.Event.read bytes env).at? bev = some (.read bev bytes env) := rfl
    exact Or.inl (serves_of_step at' rfl (Or.inl (Option.not_isSome_iff_eq_none.mp hpending)) hs hstep)
  | trigger env =>
    obtain ⟨p, hp, -⟩ := Option.map_eq_some_iff.mp h
    obtain ⟨bev, hpending, hlive⟩ := Option.bind_eq_some_iff.mp hp
    obtain ⟨s, hs, -⟩ := Option.map_eq_some_iff.mp hlive
    have at' : (Session.Event.trigger env).at? bev = some (.trigger env) := rfl
    exact Or.inl (serves_of_step at' (by rw [Server.serves, hpending]; rfl) (Or.inr hpending) hs hstep)
  | event bev events =>
    obtain ⟨hpending, hlive⟩ := Option.ite_none_left_eq_some.mp h
    obtain ⟨s, hs, -⟩ := Option.map_eq_some_iff.mp hlive
    have at' : (Session.Event.event events).at? bev = some (.event bev events) := rfl
    exact Or.inl (serves_of_step at' rfl (Or.inl (Option.not_isSome_iff_eq_none.mp hpending)) hs hstep)
  | drained bev =>
    obtain ⟨hpending, hlive⟩ := Option.ite_none_left_eq_some.mp h
    obtain ⟨s, hs, -⟩ := Option.map_eq_some_iff.mp hlive
    have at' : Session.Event.drained.at? bev = some (.drained bev) := rfl
    exact Or.inl (serves_of_step at' rfl (Or.inl (Option.not_isSome_iff_eq_none.mp hpending)) hs hstep)

end Loop
end Vcmp.Websockets

namespace Vcmp.Api
open ByteMem Lts Websockets

variable {ssl : Digest} {w t : Server (Option Nat)} {e : Event} {e' : Websockets.Event} {es : List Event}
  {i : Nat}

theorem keeps_apiCtx : Keeps apiCtx := fun _ _ u => by cases u <;> rfl

/-- The connection `s` is `c`, but that something may have been written to it after its bufferevent was freed. -/
def Shadows (c s : Conn) : Prop := ∃ later, s = { c with written := c.written ++ later } ∧ (c.Live → later = [])

/-- The connection `i` of the server, and the session that it goes through. -/
def View (i : Nat) (w : Server (Option Nat)) : Option (Session Unit) → Prop
  | none => w.conns[i]? = none ∧ w.pending ≠ some i
  | some p => p.pending = decide (w.pending = some i) ∧ ∃ s, w.conns[i]? = some s ∧ Shadows p.conn s

/-- What the session of connection `i` takes of an event: reports are sent to it while it is registered and open. -/
def see (i : Nat) (w : Server (Option Nat)) : Event → Option Session.Event
  | .server e => (w.serves e).bind fun p => if i = p.1 then some p.2 else none
  | .eventUser env type username =>
    if w.user = some i ∧ (w.live? i).isSome = true then
      (env.yyjsonMutWrite [("event", (eventName type).toUTF8.toList), ("username", username)]).map
        (.send env.malloc env.write wsOpcodeText)
    else none

/-- A session that has just been accepted. -/
def fresh : Session Unit := ⟨⟨⟨false, false, .null⟩, [], [], false, []⟩, (), false⟩

theorem Shadows.refl (s : Conn) : Shadows s s := ⟨[], by rw [List.append_nil], fun _ => rfl⟩

theorem Shadows.eq {c s : Conn} (h : Shadows c s) (live : s.Live) : s = c := by
  obtain ⟨later, rfl, hlater⟩ := h
  rw [hlater live, List.append_nil]

/-! ### One step -/

theorem view_serves (h : Serves ssl apiCtx w e' t) {p : Session Unit}
    (view : View i w (some p)) :
    ∃ q, run (Session.step ssl nobody i) p ((w.serves e').bind fun p => if i = p.1 then some p.2 else none).toList = some q ∧
      View i t (some q) := by
  obtain ⟨bev, e'', s, u, serves, live, free, hstep⟩ := h
  obtain ⟨hpending, s', hs', shadows⟩ := view
  obtain ⟨hs, hlive⟩ := live?_eq_some.mp live
  rw [serves, Option.bind_some]
  by_cases hi : i = bev
  · subst hi
    obtain rfl := Option.some.inj (hs.symm.trans hs')
    have hp : p = ⟨s, (), w.pending.isSome⟩ := by
      obtain ⟨conn, _, pending⟩ := p
      have hconn : s = conn := shadows.eq hlive
      have hdecide : decide (w.pending = some i) = w.pending.isSome := by
        rcases free with hnone | hsome
        · rw [hnone]; rfl
        · rw [hsome]; simp
      rw [hconn, ← hdecide, ← hpending]
    have halone := Session.step_alone keeps_apiCtx hstep
    refine ⟨u.alone, ?_, ?_, u.conn, ?_, Shadows.refl _⟩
    · rw [if_pos rfl, Option.toList_some, run, hp]
      exact Option.bind_eq_some_iff.mpr ⟨_, halone, rfl⟩
    · rw [Server.set]
      cases hu : u.pending <;> simp [Session.alone, hu]
    · rw [get_set hs, if_pos rfl]
  · refine ⟨p, by rw [if_neg hi]; rfl, ?_, s', ?_, shadows⟩
    · have hbefore : w.pending ≠ some i := by
        rcases free with hnone | hsome
        · rw [hnone]; exact (Option.some_ne_none i).symm
        · rw [hsome]; exact fun heq => hi (Option.some.inj heq).symm
      have hafter : (if u.pending then some bev else none) ≠ some i := by
        split
        · exact fun heq => hi (Option.some.inj heq).symm
        · exact (Option.some_ne_none i).symm
      rw [hpending, Server.set, decide_eq_false hbefore, decide_eq_false hafter]
    · rw [get_set hs, if_neg hi]
      exact hs'

theorem wsClientSend_later (malloc : Option Mem) (write : Bool) (s : Conn) (opcode : UInt8) (data : List UInt8) :
    ∃ later, (wsClientSend malloc write s opcode data).2 = { s with written := s.written ++ later } := by
  unfold wsClientSend
  split
  · exact ⟨[], by rw [List.append_nil]⟩
  · dsimp only
    split
    · exact ⟨[], by rw [List.append_nil]⟩
    · split
      · exact ⟨[], by rw [List.append_nil]⟩
      · exact ⟨_, rfl⟩

theorem dead_of_none (h : w.conns[i]? = none) : ¬(w.live? i).isSome = true := by
  rw [Server.live?, h]
  exact Bool.false_ne_true

section Report
variable {env : SendEnv} {type : UInt8} {username : List UInt8}

/-- A report is sent to the registered connection, or nothing happens and no session sees it. -/
theorem eventUser_send (env : SendEnv) (type : UInt8) (username : List UInt8) (w : Server (Option Nat)) :
    (∃ d json c, w.user = some d ∧ w.conns[d]? = some c ∧
      env.yyjsonMutWrite [("event", (eventName type).toUTF8.toList), ("username", username)] = some json ∧
      (vcmpApiEventUser env type username w).2 =
        { w with conns := w.conns.set d (wsClientSend env.malloc env.write c wsOpcodeText json).2 }) ∨
    (vcmpApiEventUser env type username w).2 = w ∧ ∀ i, see i w (.eventUser env type username) = none := by
  unfold vcmpApiEventUser
  split
  next huser =>
    refine Or.inr ⟨rfl, fun i => if_neg fun h => ?_⟩
    rw [huser] at h
    exact Option.some_ne_none i h.1.symm
  next d huser =>
    split
    next hjson =>
      refine Or.inr ⟨rfl, fun i => ?_⟩
      rw [see, hjson, Option.map_none, ite_self]
    next json hjson =>
      split
      next hconn =>
        refine Or.inr ⟨rfl, fun i => if_neg fun h => ?_⟩
        rw [huser] at h
        exact dead_of_none (Option.some.inj h.1 ▸ hconn) h.2
      next c hconn => exact Or.inl ⟨d, json, c, huser, hconn, hjson, by rw [huser]⟩

/-- A report changes the registered connection, by a step of its session if that is open. -/
theorem view_eventUser {p : Session Unit} (view : View i w (some p)) :
    ∃ q, run (Session.step ssl nobody i) p (see i w (.eventUser env type username)).toList = some q ∧
      View i (vcmpApiEventUser env type username w).2 (some q) := by
  rcases eventUser_send env type username w with ⟨d, json, c, huser, hconn, hjson, hset⟩ | ⟨hsame, hsee⟩
  · obtain ⟨hpending, s, hs, shadows⟩ := view
    rw [hset, see, hjson, Option.map_some, huser]
    by_cases hd : d = i
    · subst hd
      obtain rfl := Option.some.inj (hs.symm.trans hconn)
      have hnext : ∀ c, (w.conns.set d c)[d]? = some c := fun c => List.getElem?_set_self (List.getElem?_eq_some_iff.mp hs).1
      by_cases hlive : s.Live
      · have hp : s = p.conn := shadows.eq hlive
        have live : (w.live? d).isSome = true := by rw [live?_eq_some.mpr ⟨hs, hlive⟩]; rfl
        rw [if_pos ⟨rfl, live⟩]
        refine ⟨⟨(wsClientSend env.malloc env.write s wsOpcodeText json).2, (), p.pending⟩, ?_, hpending, _, hnext _, Shadows.refl _⟩
        rw [Option.toList_some, run, Session.step.eq_def, if_pos (hp ▸ hlive), hp]
        rfl
      · have dead : ¬(w.live? d).isSome = true := by
          rw [Server.live?, hs, Option.filter_some, decide_eq_false hlive]
          exact Bool.false_ne_true
        rw [if_neg fun h => dead h.2]
        refine ⟨p, rfl, hpending, _, hnext _, ?_⟩
        obtain ⟨later, hsend⟩ := wsClientSend_later env.malloc env.write s wsOpcodeText json
        obtain ⟨before, rfl, -⟩ := shadows
        rw [hsend]
        exact ⟨before ++ later, by rw [← List.append_assoc], fun live => absurd live hlive⟩
    · rw [if_neg fun h => hd (Option.some.inj h.1)]
      exact ⟨p, rfl, hpending, s, (List.getElem?_set_ne hd).trans hs, shadows⟩
  · rw [hsame, hsee]
    exact ⟨p, rfl, view⟩

end Report

theorem view_none (h : step ssl w e = some t) (view : View i w none) : see i w e = none ∧ (View i t none ∨ View i t (some fresh)) := by
  obtain ⟨hs, hpending⟩ := view
  have hle : w.conns.length ≤ i := List.getElem?_eq_none_iff.mp hs
  cases e with
  | server e' =>
    rcases step_serves h with ⟨bev, e'', s, u, serves, live, -, -⟩ | ⟨serves, -, rfl | ⟨_, _, s, hconn, rfl⟩⟩
    · have hlt : bev < w.conns.length := (List.getElem?_eq_some_iff.mp (live?_eq_some.mp live).1).1
      have hi : i ≠ bev := fun heq => Nat.not_lt_of_le hle (heq ▸ hlt)
      rw [see, serves, Option.bind_some, if_neg hi]
      refine ⟨rfl, Or.inl ⟨?_, ?_⟩⟩
      · rw [get_set (live?_eq_some.mp live).1, if_neg hi]
        exact hs
      · rw [Server.set]
        split
        · exact fun heq => hi (Option.some.inj heq).symm
        · exact (Option.some_ne_none i).symm
    · rw [see, serves]
      exact ⟨rfl, Or.inl ⟨hs, hpending⟩⟩
    · rw [see, serves]
      refine ⟨rfl, ?_⟩
      rcases Nat.eq_or_lt_of_le hle with hlast | hlt
      · refine Or.inr ⟨(decide_eq_false hpending).symm, s, ?_, ?_⟩
        · rw [← hlast]
          exact List.getElem?_concat_length
        · rw [acceptConnCb_cases hconn]
          exact Shadows.refl _
      · exact Or.inl ⟨List.getElem?_eq_none (by simpa using hlt), hpending⟩
  | eventUser env type username =>
    rw [step, Option.ite_none_left_eq_some] at h
    obtain rfl := Option.some.inj h.2
    refine ⟨if_neg fun h => dead_of_none hs h.2, Or.inl ?_⟩
    rcases eventUser_cases env type username w with hsame | ⟨bev, s, written, hbev, hset⟩
    · rw [hsame]
      exact ⟨hs, hpending⟩
    · rw [hset]
      refine ⟨?_, hpending⟩
      rw [get_set hbev]
      split
      next heq =>
        subst heq
        cases hs.symm.trans hbev
      · exact hs

theorem follows (ssl : Digest) (i : Nat) : Follows (step ssl) (View i) (see i) (Session.step ssl nobody i) fresh where
  steps w e t p h view := by
    cases e with
    | server e' =>
      rcases step_serves h with hserves | ⟨serves, -, hsame⟩
      · exact view_serves hserves view
      · refine ⟨p, by rw [see, serves]; rfl, ?_⟩
        rcases hsame with rfl | ⟨_, _, s, -, rfl⟩
        · exact view
        · obtain ⟨hpending, s', hs', shadows⟩ := view
          exact ⟨hpending, s', (List.getElem?_append_left (List.getElem?_eq_some_iff.mp hs').1).trans hs', shadows⟩
    | eventUser env type username =>
      rw [step, Option.ite_none_left_eq_some, Option.not_isSome_iff_eq_none] at h
      obtain rfl := Option.some.inj h.2
      exact view_eventUser view
  begins _ _ _ := view_none

/-! ### Every order of events -/

/-- Each connection of a run is where a session of its own ends, up to what was written after it was freed; while it is
    open it is exactly there. -/
theorem sessions_apart (hr : run (step ssl) start es = some w) {s : Conn} (hs : w.conns[i]? = some s) :
    ∃ q, run (Session.step ssl nobody i) fresh (seen (step ssl) (see i) start es) = some q ∧
      q.pending = decide (w.pending = some i) ∧ Shadows q.conn s := by
  rcases (follows ssl i).run_fresh ⟨rfl, (Option.some_ne_none i).symm⟩ hr with hnone | ⟨q, hq, hpending, s', hs', shadows⟩
  · cases hnone.1.symm.trans hs
  · obtain rfl := Option.some.inj (hs.symm.trans hs')
    exact ⟨q, hq, hpending, shadows⟩

theorem sessions_apart_sample : ∃ w s, run (step sampleDigest) start secondRun = some w ∧ w.conns[0]? = some s ∧
    ∃ q, run (Session.step sampleDigest nobody 0) fresh (seen (step sampleDigest) (see 0) start secondRun) = some q ∧
      q.pending = decide (w.pending = some 0) ∧ Shadows q.conn s := by
  have taken : ((run (step sampleDigest) start secondRun).bind (·.conns[0]?)).isSome = true := by decide +kernel
  obtain ⟨s, hs⟩ := Option.isSome_iff_exists.mp taken
  obtain ⟨w, hw, hs⟩ := Option.bind_eq_some_iff.mp hs
  exact ⟨w, s, hw, hs, sessions_apart hw hs⟩

end Vcmp.Api
