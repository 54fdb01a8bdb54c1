import Vcmp.Api
import Vcmp.Theorems.Server

/-! The registration of the API user over whole runs of the server: when it is left on a bufferevent that was
    freed, and when one connection takes it from another. -/

namespace Vcmp.Api
open Websockets Lts

variable {ssl : Digest} {w t : Server (Option Nat)} {e : Event} {es : List Event} {bev : Nat}

/-! ### One step -/

/-- What every reachable server satisfies: no write callback is set, and the registered connection has done
    its handshake. -/
structure Wired (w : Server (Option Nat)) : Prop where
  noWriteCb : ∀ (bev : Nat) (s : Conn), w.conns[bev]? = some s → s.hasWriteCb = false
  registered : ∀ bev, w.user = some bev → ∃ s, w.conns[bev]? = some s ∧ s.client.handshakeDone = true

/-- What an event does to the connection `bev` and to the registration. -/
inductive Effect (w : Server (Option Nat)) (e : Event) (bev : Nat) (s s' : Conn) (user : Option Nat) : Prop
  | quiet (client : s'.client = s.client) (freed : s'.freed = s.freed) (same : user = w.user)
  | refused (young : s.client.handshakeDone = false) (dead : ¬s'.Live) (same : user = w.user)
  | upgraded (sent : ∃ e', e = .server e' ∧ InHandshake w e' bev) (done : s'.client.handshakeDone = true) (live : s'.Live)
      (free : w.user = none) (registers : user = some bev)
  | spare (young : s.client.handshakeDone = false) (done : s'.client.handshakeDone = true)
      (freed : s'.freed = s.freed) (same : user = w.user)
  | malformed (client : s'.client = s.client) (sent : ∃ e', e = .server e' ∧ Malformed w e' bev) (same : user = w.user)
  | closed (done : s'.client.handshakeDone = s.client.handshakeDone) (sent : ∃ e', e = .server e' ∧ Closes w e' bev)
      (cleared : user = none)

theorem acceptCb_done {client : WsClient} {user : Option Nat} (h : client.handshakeDone = true) :
    (apiCtx.callAccept bev client user).1.handshakeDone = true := by
  cases user with
  | none => exact h
  | some d => exact h

section Pass
variable {e' : Websockets.Event} {env : PassEnv} {s s₀ : Conn}

theorem effect_handshake (ssl : Digest) (h : w.pass? e' = some (bev, env, s)) (live : s₀.Live)
    (client : s.client = s₀.client) (freed : s.freed = s₀.freed) (hdone : s.client.handshakeDone = false) :
    let r := Websockets.readHandshake ssl apiCtx env bev s w.user
    Effect w (.server e') bev s₀ r.1 r.2 ∧ r.1.hasWriteCb = s.hasWriteCb := by
  have young : s₀.client.handshakeDone = false := client ▸ hdone
  rcases readHandshake_cases ssl apiCtx env bev s w.user with
    ⟨t, hr, -, hwrite, dead⟩ | ⟨t, hr, haccept, hwrite, hfreed⟩
  · rw [hr]
    exact ⟨.refused young dead rfl, hwrite⟩
  · rw [hr]
    refine ⟨?_, hwrite⟩
    have done : t.client.handshakeDone = true := haccept ▸ acceptCb_done rfl
    cases huser : w.user with
    | none =>
      have live' : t.Live := fun hm => live (freed ▸ hfreed ▸ hm)
      exact .upgraded ⟨e', rfl, env, s, h, hdone⟩ done live' huser rfl
    | some d => exact .spare young done (hfreed.trans freed) huser.symm

theorem effect_frame (h : w.pass? e' = some (bev, env, s)) (client : s.client = s₀.client) (freed : s.freed = s₀.freed)
    (hdone : s.client.handshakeDone = true) :
    let r := readFrame apiCtx env bev s w.user
    Effect w (.server e') bev s₀ r.1 r.2.1 ∧ r.1.hasWriteCb = s.hasWriteCb := by
  by_cases hmask : NoMaskBit s env
  · rw [readFrame_unmasked hmask]
    exact ⟨.malformed client ⟨e', rfl, env, s, h, hdone, hmask⟩ rfl, rfl⟩
  · by_cases hclose : opcodeOf s env = wsOpcodeClose
    · obtain ⟨t, again, hr, hdone', hwrite, -⟩ := readFrame_close apiCtx bev w.user hmask hclose
      rw [hr]
      exact ⟨.closed (hdone'.trans (congrArg _ client)) ⟨e', rfl, Or.inl ⟨env, s, h, hdone, hmask, hclose⟩⟩ rfl, hwrite⟩
    · rw [readFrame_data hmask hclose]
      exact ⟨.quiet client freed rfl, rfl⟩

theorem effect_pass (ssl : Digest) (h : w.pass? e' = some (bev, env, s)) (live : s₀.Live)
    (client : s.client = s₀.client) (freed : s.freed = s₀.freed) :
    let r := readPass ssl apiCtx env bev s w.user
    Effect w (.server e') bev s₀ r.1 r.2.1 ∧ r.1.hasWriteCb = s.hasWriteCb := by
  cases hdone : s.client.handshakeDone with
  | false =>
    simp only [readPass, hdone, Bool.not_false, if_true]
    exact effect_handshake ssl h live client freed hdone
  | true =>
    simp only [readPass, hdone, Bool.not_true, Bool.false_eq_true, if_false]
    exact effect_frame h client freed hdone

end Pass

theorem eventUser_cases (env : SendEnv) (type : UInt8) (username : List UInt8) (w : Server (Option Nat)) :
    (vcmpApiEventUser env type username w).2 = w ∨ ∃ bev s written, w.conns[bev]? = some s ∧
      (vcmpApiEventUser env type username w).2 = w.set bev { s with written } w.user w.pending := by
  unfold vcmpApiEventUser
  split
  · exact Or.inl rfl
  · next bev huser =>
    split
    · exact Or.inl rfl
    · next json hjson =>
      split
      · exact Or.inl rfl
      · next s hs =>
        obtain ⟨written, hsend⟩ := wsClientSend_cases env.malloc env.write s wsOpcodeText json
        refine Or.inr ⟨bev, s, written, hs, ?_⟩
        rw [Server.set, ← hsend, huser]

/-- A step adds connections, or changes one and perhaps the registration. -/
inductive Outcome (w : Server (Option Nat)) (e : Event) (t : Server (Option Nat)) : Prop
  | adds (user : t.user = w.user) (fresh : List Conn) (conns : t.conns = w.conns ++ fresh)
      (noWriteCb : ∀ s ∈ fresh, s.hasWriteCb = false)
  | changes (bev : Nat) (s s' : Conn) (before : w.conns[bev]? = some s)
      (after : ∀ d, t.conns[d]? = if d = bev then some s' else w.conns[d]?) (hasWriteCb : s'.hasWriteCb = s.hasWriteCb)
      (effect : Effect w e bev s s' t.user)

theorem Outcome.same (w : Server (Option Nat)) (e : Event) : Outcome w e w :=
  .adds rfl [] (List.append_nil _).symm fun _ hs => absurd hs List.not_mem_nil

theorem outcome_server {e' : Websockets.Event} (wired : Wired w) (h : Websockets.step ssl apiCtx w e' = some t) :
    Outcome w (.server e') t := by
  cases Websockets.step_cases h with
  | pass p hpass =>
    obtain ⟨bev, env, s⟩ := p
    obtain ⟨s₀, hs₀, live, client, freed, hw⟩ := pass?_conn hpass
    obtain ⟨heffect, hwrite⟩ := effect_pass ssl hpass live client freed
    exact .changes bev s₀ _ hs₀ (fun d => get_set hs₀) (hwrite.trans hw) heffect
  | refused => exact .same w _
  | accepted bufferevent client s hconn =>
    refine .adds rfl [s] rfl fun s' hs' => ?_
    rw [List.mem_singleton.mp hs']
    exact hasWriteCb_acceptConnCb hconn
  | event bev events s hlive =>
    obtain ⟨hs, -⟩ := live?_eq_some.mp hlive
    by_cases hend : events &&& bevEventEofError ≠ 0
    · rw [eventCb_ended hend]
      exact .changes bev s _ hs (fun d => get_set hs) rfl (.closed rfl ⟨_, rfl, Or.inr ⟨events, rfl, hend⟩⟩ rfl)
    · rw [eventCb_other hend]
      exact .changes bev s _ hs (fun d => get_set hs) rfl (.quiet rfl rfl rfl)
  | drained bev s hlive =>
    obtain ⟨hs, -⟩ := live?_eq_some.mp hlive
    rw [wired.noWriteCb bev s hs]
    exact .changes bev s s hs (fun d => get_set hs) rfl (.quiet rfl rfl rfl)

theorem outcome (wired : Wired w) (h : step ssl w e = some t) : Outcome w e t := by
  cases e with
  | server e' => exact outcome_server wired h
  | eventUser env type username =>
    rw [step, Option.ite_none_left_eq_some] at h
    obtain rfl := Option.some.inj h.2
    rcases eventUser_cases env type username w with hsame | ⟨bev, s, written, hs, hset⟩
    · rw [hsame]
      exact .same w _
    · rw [hset]
      exact .changes bev s _ hs (fun d => get_set hs) rfl (.quiet rfl rfl rfl)

/-! ### The invariant -/

theorem Effect.user_cases {s s' : Conn} {user : Option Nat} (h : Effect w e bev s s' user) :
    user = w.user ∨ (w.user = none ∧ user = some bev ∧ s'.client.handshakeDone = true) ∨ user = none := by
  cases h with
  | quiet _ _ same => exact Or.inl same
  | refused _ _ same => exact Or.inl same
  | upgraded _ done _ free registers => exact Or.inr (Or.inl ⟨free, registers, done⟩)
  | spare _ _ _ same => exact Or.inl same
  | malformed _ _ same => exact Or.inl same
  | closed _ _ cleared => exact Or.inr (Or.inr cleared)

theorem Effect.done {s s' : Conn} {user : Option Nat} (h : Effect w e bev s s' user)
    (before : s.client.handshakeDone = true) : s'.client.handshakeDone = true := by
  cases h with
  | quiet client => exact client ▸ before
  | refused young => exact absurd (young.symm.trans before) Bool.false_ne_true
  | upgraded _ done => exact done
  | spare _ done => exact done
  | malformed client => exact client ▸ before
  | closed done => exact done.trans before

theorem wired_start : Wired start where
  noWriteCb bev s h := by cases h
  registered bev h := by cases h

theorem Wired.done (wired : Wired w) {s : Conn} (hs : w.conns[bev]? = some s) (registered : w.user = some bev) :
    s.client.handshakeDone = true := by
  obtain ⟨c, hc, done⟩ := wired.registered bev registered
  rw [hs] at hc
  cases hc
  exact done

theorem get_appended {fresh : List Conn} {d : Nat} {c : Conn} (h : t.conns = w.conns ++ fresh) (hc : w.conns[d]? = some c) :
    t.conns[d]? = some c := by
  rw [h, List.getElem?_append_left (List.getElem?_eq_some_iff.mp hc).1, hc]

theorem noWriteCb_step (wired : Wired w) (h : step ssl w e = some t) {d : Nat} {c : Conn} (hc : t.conns[d]? = some c) :
    c.hasWriteCb = false := by
  rcases outcome wired h with ⟨-, fresh, hconns, hfresh⟩ | ⟨bev, s, s', hs, hget, hwrite, -⟩
  · rw [hconns] at hc
    rcases List.mem_append.mp (List.mem_of_getElem? hc) with hold | hnew
    · obtain ⟨i, hi⟩ := List.mem_iff_getElem?.mp hold
      exact wired.noWriteCb i c hi
    · exact hfresh c hnew
  · rw [hget] at hc
    by_cases hd : d = bev
    · rw [if_pos hd] at hc
      cases hc
      exact hwrite.trans (wired.noWriteCb bev s hs)
    · rw [if_neg hd] at hc
      exact wired.noWriteCb d c hc

theorem handshaken_step (wired : Wired w) (h : step ssl w e = some t) {d : Nat} (hd : t.user = some d) :
    ∃ c, t.conns[d]? = some c ∧ c.client.handshakeDone = true := by
  rcases outcome wired h with ⟨huser, fresh, hconns, -⟩ | ⟨bev, s, s', hs, hget, -, heffect⟩
  · obtain ⟨c, hc, done⟩ := wired.registered d (huser ▸ hd)
    exact ⟨c, get_appended hconns hc, done⟩
  · rw [hget]
    rcases heffect.user_cases with same | ⟨-, registers, done⟩ | cleared
    · by_cases hbev : d = bev
      · subst hbev
        exact ⟨s', if_pos rfl, heffect.done (wired.done hs (same ▸ hd))⟩
      · rw [if_neg hbev]
        exact wired.registered d (same ▸ hd)
    · rw [registers] at hd
      cases hd
      exact ⟨s', if_pos rfl, done⟩
    · rw [cleared] at hd
      cases hd

theorem wired_step (wired : Wired w) (h : step ssl w e = some t) : Wired t :=
  ⟨fun _ _ hc => noWriteCb_step wired h hc, fun _ hd => handshaken_step wired h hd⟩

/-! ### The registered connection is open -/

/-- The registered connection, if there is one, has not been freed. -/
def Registered (w : Server (Option Nat)) : Prop := ∀ bev, w.user = some bev → ∃ s, w.conns[bev]? = some s ∧ s.Live

/-- The registered connection has sent a frame without the mask bit. -/
def FreesUser (w : Server (Option Nat)) (e : Event) : Prop :=
  ∃ e' bev, e = .server e' ∧ w.user = some bev ∧ Malformed w e' bev

/-- Such a frame frees the bufferevent and leaves the registration: `close_cb` is not called. -/
theorem not_registered_of_freesUser (frees : FreesUser w e) (h : step ssl w e = some t) : ¬Registered t := by
  obtain ⟨e', bev, rfl, huser, env, s, hpass, done, hmask⟩ := frees
  obtain ⟨s₀, hs₀, -⟩ := pass?_conn hpass
  rw [step, step_of_pass hpass] at h
  cases h
  simp only [Server.runPass, readPass, done, Bool.not_true, Bool.false_eq_true, if_false, readFrame_unmasked hmask]
  intro registered
  obtain ⟨c, hc, live⟩ := registered bev huser
  rw [get_set hs₀, if_pos rfl] at hc
  cases hc
  exact live (List.mem_append_right _ List.mem_cons_self)

theorem Effect.live {s s' : Conn} {user : Option Nat} (h : Effect w e bev s s' user) (hu : user = some bev)
    (done : w.user = some bev → s.client.handshakeDone = true) (live : w.user = some bev → s.Live)
    (other : ¬FreesUser w e) : s'.Live := by
  cases h with
  | quiet _ freed same => exact fun hm => live (same ▸ hu) (freed ▸ hm)
  | refused young _ same => exact absurd (young.symm.trans (done (same ▸ hu))) Bool.false_ne_true
  | upgraded _ _ live' => exact live'
  | spare _ _ freed same => exact fun hm => live (same ▸ hu) (freed ▸ hm)
  | malformed _ sent same =>
    obtain ⟨e', he, hsent⟩ := sent
    exact absurd ⟨e', bev, he, same ▸ hu, hsent⟩ other
  | closed _ _ cleared =>
    rw [cleared] at hu
    cases hu

theorem Registered.live (h : Registered w) {s : Conn} (hs : w.conns[bev]? = some s) (registered : w.user = some bev) :
    s.Live := by
  obtain ⟨c, hc, live⟩ := h bev registered
  rw [hs] at hc
  cases hc
  exact live

theorem registered_step (wired : Wired w) (before : Registered w) (h : step ssl w e = some t) :
    Registered t ↔ ¬FreesUser w e := by
  refine ⟨fun registered frees => not_registered_of_freesUser frees h registered, fun other => ?_⟩
  rcases outcome wired h with ⟨huser, fresh, hconns, -⟩ | ⟨bev, s, s', hs, hget, -, heffect⟩
  · intro d hd
    obtain ⟨c, hc, live⟩ := before d (huser ▸ hd)
    exact ⟨c, get_appended hconns hc, live⟩
  · intro d hd
    rw [hget]
    by_cases hbev : d = bev
    · subst hbev
      exact ⟨s', if_pos rfl, heffect.live hd (wired.done hs) (before.live hs) other⟩
    · rw [if_neg hbev]
      rcases heffect.user_cases with same | ⟨-, registers, -⟩ | cleared
      · exact before d (same ▸ hd)
      · rw [registers] at hd
        exact absurd (Option.some.inj hd).symm hbev
      · rw [cleared] at hd
        cases hd

def SendsLive (w : Server (Option Nat)) (e : Event) (_ : Server (Option Nat)) : Prop :=
  ∀ env type username, e = .eventUser env type username → ∀ bev, w.user = some bev →
    ∃ s, w.conns[bev]? = some s ∧ s.Live

/-- The registered connection is open throughout a run exactly when no frame without the mask bit arrives on
    it, and then every event goes to an open connection. -/
theorem registered_iff : (EachState (step ssl) Registered start es ↔
      EachStep (step ssl) (fun w e _ => ¬FreesUser w e) start es) ∧
    (EachState (step ssl) Registered start es → EachStep (step ssl) SendsLive start es) := by
  have fresh : Registered start := fun bev h => by cases h
  refine ⟨eachState_iff wired_start (fun w e t => wired_step) fresh fun w e t _ wired before h =>
    registered_step wired before h, fun all => ?_⟩
  exact all.before.mono fun w e t _ registered env type username _ bev hbev => registered bev hbev

/-! #### A run -/

def sampleRequest : List UInt8 := "GET / HTTP/1.1\r\nSec-WebSocket-Key: dGhlIHNhbXBsZQ==\r\n\r\n".toUTF8.toList

/-- A client is registered and sends a text frame without the mask bit. -/
def droppedRun : List Event :=
  [.server (.accept true true), .server (.read 0 sampleRequest samplePass), .server (.read 0 [0x81, 0x00] samplePass)]

theorem user_dropped : ¬∀ (ssl : Digest) (es : List Event), EachState (step ssl) Registered start es := by
  intro h
  have taken : (run (step sampleDigest) start droppedRun).isSome = true := by decide +kernel
  obtain ⟨w, hr⟩ := Option.isSome_iff_exists.mp taken
  have dropped : ((run (step sampleDigest) start droppedRun).map fun w =>
      (w.user, w.conns.map fun s => decide s.Live)) = some (some 0, [false]) := by decide +kernel
  rw [hr, Option.map_some, Option.some.injEq, Prod.mk.injEq] at dropped
  obtain ⟨s, hs, live⟩ := (h sampleDigest droppedRun).last hr 0 dropped.1
  have freed := congrArg (fun l => l[0]?) dropped.2
  rw [List.getElem?_map, hs, Option.map_some, decide_eq_true live] at freed
  cases freed

/-! ### Connections do not unregister one another -/

/-- What a step may do to the registration: register the connection that completes its handshake, or clear
    that of the connection that closes. -/
def Allowed (w : Server (Option Nat)) (e : Event) (t : Server (Option Nat)) : Prop :=
  t.user = w.user ∨
  (∃ e' bev s, e = .server e' ∧ InHandshake w e' bev ∧ t.conns[bev]? = some s ∧ s.client.handshakeDone = true ∧
    w.user = none ∧ t.user = some bev) ∨
  ∃ e' bev, e = .server e' ∧ Closes w e' bev ∧ w.user = some bev ∧ t.user = none

/-- A connection closes while another one is registered. -/
def ClosesOther (w : Server (Option Nat)) (e : Event) : Prop :=
  ∃ e' bev d, e = .server e' ∧ Closes w e' bev ∧ w.user = some d ∧ bev ≠ d

/-- `close_cb` clears the registration whoever closes. -/
theorem not_allowed_of_closesOther (other : ClosesOther w e) (h : step ssl w e = some t) : ¬Allowed w e t := by
  obtain ⟨e', bev, d, rfl, closes, huser, hne⟩ := other
  obtain ⟨p, cleared⟩ := closes.user h
  have none' : t.user = none := cleared
  rintro (same | ⟨-, -, -, -, -, -, -, free, -⟩ | ⟨e'', bev', heq, closes', huser', -⟩)
  · rw [none', huser] at same
    cases same
  · rw [huser] at free
    cases free
  · cases heq
    rw [huser] at huser'
    cases huser'
    exact hne (closes.unique closes')

theorem allowed_step (wired : Wired w) (h : step ssl w e = some t) : Allowed w e t ↔ ¬ClosesOther w e := by
  refine ⟨fun allowed other => not_allowed_of_closesOther other h allowed, fun none' => ?_⟩
  rcases outcome wired h with ⟨same, -⟩ | ⟨bev, s, s', hs, hget, -, heffect⟩
  · exact Or.inl same
  · cases heffect with
    | quiet _ _ same => exact Or.inl same
    | refused _ _ same => exact Or.inl same
    | upgraded sent done live free registers =>
      obtain ⟨e', he, hsent⟩ := sent
      exact Or.inr (Or.inl ⟨e', bev, s', he, hsent, (hget bev).trans (if_pos rfl), done, free, registers⟩)
    | spare _ _ _ same => exact Or.inl same
    | malformed _ _ same => exact Or.inl same
    | closed _ sent cleared =>
      obtain ⟨e', he, hsent⟩ := sent
      cases huser : w.user with
      | none => exact Or.inl (cleared.trans huser.symm)
      | some d =>
        by_cases hd : bev = d
        · subst hd
          exact Or.inr (Or.inr ⟨e', bev, he, hsent, huser, cleared⟩)
        · exact absurd ⟨e', bev, d, he, hsent, huser, hd⟩ none'

/-- Connections leave the registration of one another alone exactly in the runs in which no connection closes
    while another one is registered. -/
theorem allowed_iff : EachStep (step ssl) Allowed start es ↔
    EachStep (step ssl) (fun w e _ => ¬ClosesOther w e) start es :=
  eachStep_iff wired_start (fun _ _ _ wired h _ => wired_step wired h) fun _ _ _ wired h => allowed_step wired h

/-- A client is registered and a second one connects. -/
def secondRun : List Event :=
  [.server (.accept true true), .server (.read 0 sampleRequest samplePass), .server (.accept true true)]

theorem user_unregistered : ¬∀ (ssl : Digest) (es : List Event), EachStep (step ssl) Allowed start es := by
  intro h
  have taken : (run (step sampleDigest) start secondRun).isSome = true := by decide +kernel
  obtain ⟨w, hr⟩ := Option.isSome_iff_exists.mp taken
  have before : (run (step sampleDigest) start secondRun).map (·.user) = some (some 0) := by decide +kernel
  have ended : ((run (step sampleDigest) start secondRun).bind fun w =>
      step sampleDigest w (.server (.event 1 0x10))).map (·.user) = some none := by decide +kernel
  rw [hr, Option.map_some, Option.some.injEq] at before
  rw [hr, Option.bind_some, Option.map_eq_some_iff] at ended
  obtain ⟨t, ht, after⟩ := ended
  rcases (h sampleDigest (secondRun ++ [.server (.event 1 0x10)])).after hr ht with
    same | ⟨-, -, -, -, -, -, -, free, -⟩ | ⟨e', bev, heq, closes, huser, -⟩
  · rw [before, after] at same
    cases same
  · rw [before] at free
    cases free
  · cases heq
    rw [before] at huser
    cases huser
    have other : Closes w (.event 1 0x10) 1 := Or.inr ⟨0x10, rfl, by decide⟩
    exact absurd (closes.unique other) (by decide)

end Vcmp.Api
