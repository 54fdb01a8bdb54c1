import Vcmp.Theorems.Session

/-! The order of the calls made to the user's callbacks on one connection. -/

namespace Vcmp.Websockets.Session
open ByteMem Lts

variable {ssl : Digest} {bev : Nat} {p : Ptr} {es : List Event} {e : Event} {calls : List Traced}

/-! ### The protocol -/

/-- The calls in the order of the protocol, or as many of them as were made. -/
def Ordered (p : Ptr) (calls : List Traced) : Prop :=
  ∃ n, calls <+: .accept :: List.replicate n (.read p) ++ [.close p]

theorem ordered_nil : Ordered p [] := ⟨0, List.nil_prefix⟩

theorem ordered_open (p : Ptr) (n : Nat) : Ordered p (.accept :: List.replicate n (.read p)) := ⟨n, List.prefix_append _ _⟩

theorem ordered_closed (p : Ptr) (n : Nat) : Ordered p (.accept :: List.replicate n (.read p) ++ [.close p]) :=
  ⟨n, List.prefix_refl _⟩

theorem replicate_read (p : Ptr) (n : Nat) :
    .accept :: List.replicate n (.read p) ++ [.read p] = (.accept :: List.replicate (n + 1) (.read p) : List Traced) := by
  rw [List.replicate_succ', List.cons_append]

theorem not_ordered_closed {q : Ptr} {c : Traced} (h : .close q ∈ calls) : ¬Ordered p (calls ++ [c]) := by
  rintro ⟨n, hprefix⟩
  have hopen : calls <+: .accept :: List.replicate n (.read p) := by
    rcases List.prefix_concat_iff.mp hprefix with heq | hlt
    · exact (List.append_inj_left' heq rfl) ▸ List.prefix_refl _
    · exact (List.prefix_append _ _).trans hlt
  rcases List.mem_cons.mp (hopen.subset h) with hcall | hcall
  · cases hcall
  · cases List.eq_of_mem_replicate hcall

/-- The first call is `accept_cb`. -/
theorem not_ordered_close {q : Ptr} : ¬Ordered p [.close q] := by
  rintro ⟨n, hprefix⟩
  have hhead := (List.cons_prefix_cons.mp hprefix).1
  cases hhead

theorem ordered_close_iff {q : Ptr} {n : Nat} :
    Ordered p (.accept :: List.replicate n (.read p) ++ [.close q]) ↔ q = p := by
  constructor
  · rintro ⟨k, hprefix⟩
    have hmem : .close q ∈ (.accept :: List.replicate k (.read p) ++ [.close p] : List Traced) :=
      hprefix.subset (List.mem_append_right _ List.mem_cons_self)
    rcases List.mem_append.mp hmem with hopen | hclose
    · rcases List.mem_cons.mp hopen with hcall | hcall
      · cases hcall
      · cases List.eq_of_mem_replicate hcall
    · cases List.mem_singleton.mp hclose
      rfl
  · rintro rfl
    exact ordered_closed q n

/-! ### What a connection has called -/

/-- How far an open connection is, and what it has called. -/
inductive Phase (p : Ptr) (w : Session (List Traced)) : Prop
  | young (done : w.conn.client.handshakeDone = false) (staying : w.conn.client.disconnect = false) (calls : w.user = [])
  | open (done : w.conn.client.handshakeDone = true) (staying : w.conn.client.disconnect = false)
      (object : w.conn.client.ctx = p) (n : Nat) (calls : w.user = .accept :: List.replicate n (.read p))
  | closing (done : w.conn.client.handshakeDone = true) (leaving : w.conn.client.disconnect = true)
      (closed : ∃ q, .close q ∈ w.user)

/-- What makes a call out of order: the end of a connection whose handshake is not done, which was closed
    already or whose user object is not the client itself, and a frame behind a CLOSE frame. -/
def Disorders (p : Ptr) (bev : Nat) (w : Session (List Traced)) (e : Event) : Prop :=
  (∃ events, e = .event events ∧ events &&& bevEventEofError ≠ 0 ∧
    ¬(w.conn.client.handshakeDone = true ∧ w.conn.client.disconnect = false ∧ p = .client bev)) ∨
  ∃ env s, w.pass? e = some (env, s) ∧ w.conn.client.handshakeDone = true ∧ w.conn.client.disconnect = true ∧
    ¬NoMaskBit s env

variable {w t : Session (List Traced)}

theorem disorders_pass {env : PassEnv} {s : Conn} (pass : w.pass? e = some (env, s)) : Disorders p bev w e ↔
    w.conn.client.handshakeDone = true ∧ w.conn.client.disconnect = true ∧ ¬NoMaskBit s env := by
  constructor
  · rintro (⟨events, rfl, -⟩ | ⟨env', s', hpass, h⟩)
    · cases pass
    · rw [pass] at hpass
      cases hpass
      exact h
  · exact fun h => Or.inr ⟨env, s, pass, h⟩

theorem disorders_event {events : UInt16} : Disorders p bev w (.event events) ↔ events &&& bevEventEofError ≠ 0 ∧
    ¬(w.conn.client.handshakeDone = true ∧ w.conn.client.disconnect = false ∧ p = .client bev) := by
  constructor
  · rintro (⟨events', heq, h⟩ | ⟨env, s, hpass, -⟩)
    · cases heq
      exact h
    · cases hpass
  · exact fun h => Or.inl ⟨events, rfl, h⟩

theorem not_disorders_drained : ¬Disorders p bev w .drained := by
  rintro (⟨events, heq, -⟩ | ⟨env, s, hpass, -⟩)
  · cases heq
  · cases hpass

theorem not_disorders_sent {malloc : Option Mem} {write : Bool} {opcode : UInt8} {data : List UInt8} :
    ¬Disorders p bev w (.send malloc write opcode data) := by
  rintro (⟨events, heq, -⟩ | ⟨env, s, hpass, -⟩)
  · cases heq
  · cases hpass

theorem Phase.same (phase : Phase p w) (client : t.conn.client = w.conn.client) (user : t.user = w.user) : Phase p t := by
  cases phase with
  | young done staying calls => exact .young (client ▸ done) (client ▸ staying) (user.trans calls)
  | «open» done staying object n calls =>
    exact .open (client ▸ done) (client ▸ staying) (client ▸ object) n (user.trans calls)
  | closing done leaving closed => exact .closing (client ▸ done) (client ▸ leaving) (user ▸ closed)

/-! ### One step -/

theorem Phase.opened (phase : Phase p w) (done : w.conn.client.handshakeDone = true) :
    (w.conn.client.disconnect = false ∧ w.conn.client.ctx = p ∧
      ∃ n, w.user = .accept :: List.replicate n (.read p)) ∨
    (w.conn.client.disconnect = true ∧ ∃ q, .close q ∈ w.user) := by
  cases phase with
  | young young => exact absurd (young.symm.trans done) Bool.false_ne_true
  | «open» _ staying object n calls => exact Or.inl ⟨staying, object, n, calls⟩
  | closing _ leaving closed => exact Or.inr ⟨leaving, closed⟩

theorem Phase.fresh (phase : Phase p w) (young : w.conn.client.handshakeDone = false) :
    w.conn.client.disconnect = false ∧ w.user = [] := by
  cases phase with
  | young _ staying calls => exact ⟨staying, calls⟩
  | «open» done => exact absurd (young.symm.trans done) Bool.false_ne_true
  | closing done => exact absurd (young.symm.trans done) Bool.false_ne_true

theorem phase_step (phase : Phase p w) (h : step ssl (tracer p) bev w e = some t) (live : t.conn.Live) : Phase p t := by
  cases (step_cases h).2 with
  | refused => exact absurd live (not_live_free _)
  | malformed => exact absurd live (not_live_free _)
  | unanswered => exact absurd live (not_live_free _)
  | ended => exact absurd live fun hm => hm (List.mem_append_left _ (List.mem_append_right _ List.mem_cons_self))
  | ignored => exact phase
  | upgraded pass young key upgrades =>
    obtain ⟨hclient, -, -⟩ := pass_conn pass
    obtain ⟨staying, calls⟩ := phase.fresh (hclient ▸ young)
    exact .open rfl ((congrArg WsClient.disconnect hclient).trans staying) rfl 0 (congrArg (· ++ [Traced.accept]) calls)
  | @answered _ env s pass done mask close write =>
    exact .closing done rfl ⟨s.client.ctx, List.mem_append_right _ List.mem_cons_self⟩
  | @data _ env s pass done mask other =>
    obtain ⟨hclient, -, -⟩ := pass_conn pass
    rw [hclient] at done
    have hframed : (framed s env).client = w.conn.client := hclient
    rcases phase.opened done with ⟨staying, object, n, calls⟩ | ⟨leaving, q, closed⟩
    · refine .open (hframed ▸ done) (hframed ▸ staying) (hframed ▸ object) (n + 1) ?_
      rw [← replicate_read, ← calls, ← object, ← hclient]
      rfl
    · exact .closing (hframed ▸ done) (hframed ▸ leaving) ⟨q, List.mem_append_left _ closed⟩
  | drained => exact phase.same (drained_frame w.conn).1 rfl
  | sent malloc write opcode data =>
    obtain ⟨written, hsend⟩ := wsClientSend_cases malloc write w.conn opcode data
    exact phase.same (show (wsClientSend malloc write w.conn opcode data).2.client = _ by rw [hsend]) rfl

/-- A pass that makes a call is in order unless the connection has been closed. -/
theorem called_iff {env : PassEnv} {s : Conn} {c : Traced} (phase : Phase p w) (pass : w.pass? e = some (env, s))
    (done : w.conn.client.handshakeDone = true) (mask : ¬NoMaskBit s env)
    (open' : w.conn.client.ctx = p → ∀ n, Ordered p (.accept :: List.replicate n (.read p) ++ [c])) :
    Ordered p (w.user ++ [c]) ↔ ¬Disorders p bev w e := by
  rw [disorders_pass pass]
  rcases phase.opened done with ⟨staying, object, n, calls⟩ | ⟨leaving, q, closed⟩
  · rw [calls, staying]
    exact iff_of_true (open' object n) fun h => Bool.false_ne_true h.2.1
  · exact iff_of_false (not_ordered_closed closed) (not_not_intro ⟨done, leaving, mask⟩)

/-- From calls in order, a step leads out of order exactly if it is one of those listed. -/
theorem ordered_step (phase : Phase p w) (before : Ordered p w.user) (h : step ssl (tracer p) bev w e = some t) :
    Ordered p t.user ↔ ¬Disorders p bev w e := by
  cases (step_cases h).2 with
  | refused pass young =>
    rw [disorders_pass pass, ← (pass_conn pass).1, young]
    exact iff_of_true before fun h => Bool.false_ne_true h.1
  | upgraded pass young =>
    obtain ⟨hclient, -, -⟩ := pass_conn pass
    obtain ⟨-, calls⟩ := phase.fresh (hclient ▸ young)
    rw [disorders_pass pass, ← hclient, young]
    refine iff_of_true ?_ fun h => Bool.false_ne_true h.1
    show Ordered p (w.user ++ [.accept])
    rw [calls]
    exact ordered_open p 0
  | malformed pass done mask =>
    rw [disorders_pass pass]
    exact iff_of_true before fun h => h.2.2 mask
  | unanswered pass done mask close write =>
    obtain ⟨hclient, -, -⟩ := pass_conn pass
    rw [hclient] at done ⊢
    exact called_iff phase pass done mask fun object n => object ▸ ordered_closed _ n
  | answered pass done mask close write =>
    obtain ⟨hclient, -, -⟩ := pass_conn pass
    rw [hclient] at done ⊢
    exact called_iff phase pass done mask fun object n => object ▸ ordered_closed _ n
  | data pass done mask other =>
    obtain ⟨hclient, -, -⟩ := pass_conn pass
    rw [hclient] at done ⊢
    refine called_iff phase pass done mask fun object n => ?_
    rw [object, replicate_read]
    exact ordered_open p (n + 1)
  | ended events bits =>
    rw [disorders_event]
    show Ordered p (w.user ++ [.close (.client bev)]) ↔ _
    cases phase with
    | young done staying calls =>
      rw [calls, done]
      exact iff_of_false not_ordered_close (not_not_intro ⟨bits, fun h => Bool.false_ne_true h.1⟩)
    | «open» done staying object n calls =>
      rw [calls, ordered_close_iff, done, staying]
      simp [bits, eq_comm]
    | closing done leaving closed =>
      obtain ⟨q, hq⟩ := closed
      rw [leaving]
      exact iff_of_false (not_ordered_closed hq) (not_not_intro ⟨bits, fun h => Bool.false_ne_true h.2.1.symm⟩)
  | ignored events bits =>
    rw [disorders_event]
    exact iff_of_true before fun h => bits h.1
  | drained => exact iff_of_true before not_disorders_drained
  | sent => exact iff_of_true before not_disorders_sent

/-! ### Runs -/

variable {bufferevent client : Bool} {s : Conn}

/-- On an accepted connection the calls are in order throughout a run exactly if no step is one of those
    listed. -/
theorem ordered_iff (accept : acceptConnCb bufferevent client = some s) :
    EachState (step ssl (tracer p) bev) (fun w => Ordered p w.user) ⟨s, [], false⟩ es ↔
      EachStep (step ssl (tracer p) bev) (fun w e _ => ¬Disorders p bev w e) ⟨s, [], false⟩ es := by
  obtain rfl := acceptConnCb_cases accept
  have fresh (w : Session (List Traced)) (hw : w = ⟨⟨⟨false, false, .null⟩, [], [], false, []⟩, [], false⟩) :
      w.conn.Live → Phase p w := by
    rintro -
    rw [hw]
    exact .young rfl rfl rfl
  refine eachState_iff (J := fun w => w.conn.Live → Phase p w) (fresh _ rfl) ?_ ordered_nil ?_
  · intro w e t phase h live
    exact phase_step (phase (step_cases h).1) h live
  · intro w e t _ phase before h
    exact ordered_step (phase (step_cases h).1) before h

def accepted : Conn := { client := ⟨false, false, .null⟩, input := [], written := [], hasWriteCb := false, freed := [] }

theorem ordered_iff_eof :
    EachState (step sampleDigest (tracer (.user 7)) 0) (fun w => Ordered (.user 7) w.user) ⟨accepted, [], false⟩ [.event 0x10] ↔
      EachStep (step sampleDigest (tracer (.user 7)) 0) (fun w e _ => ¬Disorders (.user 7) 0 w e) ⟨accepted, [], false⟩
        [.event 0x10] :=
  ordered_iff (show acceptConnCb true true = some accepted from rfl)

/-- A client that connects and goes away: `close_cb` is called, with the client object, and nothing before it. -/
theorem eof_disordered : (run (step sampleDigest (tracer (.user 7)) 0) ⟨accepted, [], false⟩ [.event 0x10]).map Session.user =
      some [.close (.client 0)] ∧
    ¬EachState (step sampleDigest (tracer (.user 7)) 0) (fun w => Ordered (.user 7) w.user) ⟨accepted, [], false⟩
      [.event 0x10] := by
  have hcalls : (run (step sampleDigest (tracer (.user 7)) 0) ⟨accepted, [], false⟩ [.event 0x10]).map Session.user =
      some [.close (.client 0)] := by decide
  refine ⟨hcalls, fun h => ?_⟩
  obtain ⟨t, ht, huser⟩ := Option.map_eq_some_iff.mp hcalls
  have hlast : Ordered (.user 7) t.user := h.last ht
  rw [huser] at hlast
  exact not_ordered_close hlast

end Vcmp.Websockets.Session
