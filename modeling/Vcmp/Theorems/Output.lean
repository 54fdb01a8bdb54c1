import Vcmp.Theorems.FramePass
import Vcmp.Theorems.Session

/-! The output of the server behind its 101 response as a stream of frames. -/

namespace Vcmp.Websockets.Session
open ByteMem Lts Rfc6455

variable {σ : Type} {ssl : Digest} {ctx : WsCtx σ} {bev : Nat} {w t : Session σ} {e : Event} {es : List Event}
  {before : List (List UInt8)}

/-- What was written after `before` is a concatenation of whole frames. -/
def Framed (before : List (List UInt8)) (w : Session σ) : Prop :=
  ∃ later, w.conn.written = before ++ later ∧ Framing.Complete frameSize? later.flatten

/-- A CLOSE frame that declares a payload is answered. -/
def AnswersPayload (w : Session σ) (e : Event) : Prop :=
  ∃ env s, w.pass? e = some (env, s) ∧ ¬NoMaskBit s env ∧ opcodeOf s env = wsOpcodeClose ∧ env.write = true ∧
    closeLength s env ≠ 0

/-- What the program sends is at most 65535 bytes long. -/
def Event.Short : Event → Prop
  | .send _ _ _ data => data.length ≤ 65535
  | _ => True

theorem Framed.same (h : t.conn.written = w.conn.written) (framed : Framed before w) : Framed before t := by
  obtain ⟨later, hlater, complete⟩ := framed
  exact ⟨later, h.trans hlater, complete⟩

theorem Framed.write {bytes : List UInt8} (h : t.conn.written = w.conn.written ++ [bytes]) (framed : Framed before w) :
    Framed before t ↔ Framing.Complete frameSize? bytes := by
  obtain ⟨later, hlater, complete⟩ := framed
  have hwritten : t.conn.written = before ++ (later ++ [bytes]) := by rw [h, hlater, List.append_assoc]
  rw [← frameSize?_stable.complete_append complete]
  constructor
  · rintro ⟨later', hlater', complete'⟩
    rw [hwritten, List.append_cancel_left_eq] at hlater'
    rwa [← hlater', List.flatten_append, List.flatten_singleton] at complete'
  · intro hc
    refine ⟨later ++ [bytes], hwritten, ?_⟩
    rwa [List.flatten_append, List.flatten_singleton]

theorem wsClientSend_written (malloc : Option Mem) (write : Bool) (s : Conn) (opcode : UInt8) {data : List UInt8}
    (h : data.length ≤ 65535) : (wsClientSend malloc write s opcode data).2 = s ∨
      (wsClientSend malloc write s opcode data).2 = s.write (serverFrame opcode data) := by
  cases malloc with
  | none => exact Or.inl rfl
  | some block =>
    cases write with
    | false =>
      refine Or.inl ?_
      simp only [wsClientSend]
      split <;> rfl
    | true =>
      rw [wsClientSend_sent block s opcode (by omega), madeHeader_short opcode h]
      exact Or.inr rfl

theorem not_answers (mask : w.pass? e = none) : ¬AnswersPayload w e := by
  rintro ⟨env, s, hpass, -⟩
  rw [mask] at hpass
  cases hpass

theorem answers_iff {env : PassEnv} {s : Conn} (pass : w.pass? e = some (env, s)) : AnswersPayload w e ↔
    ¬NoMaskBit s env ∧ opcodeOf s env = wsOpcodeClose ∧ env.write = true ∧ closeLength s env ≠ 0 := by
  constructor
  · rintro ⟨env', s', hpass, h⟩
    rw [pass] at hpass
    cases hpass
    exact h
  · exact fun h => ⟨env, s, pass, h⟩

/-- Only the answer to a CLOSE frame with a payload breaks the stream: it is the header of such a frame. -/
theorem framed_step (done : w.conn.client.handshakeDone = true) (short : e.Short) (framed : Framed before w)
    (h : step ssl ctx bev w e = some t) : Framed before t ↔ ¬AnswersPayload w e := by
  cases (step_cases h).2 with
  | refused pass young =>
    rw [(pass_conn pass).1, done] at young
    cases young
  | upgraded pass young =>
    rw [(pass_conn pass).1, done] at young
    cases young
  | malformed pass _ mask =>
    rw [answers_iff pass]
    exact iff_of_true (framed.same (pass_conn pass).2.1) fun h => h.1 mask
  | @unanswered _ env _ pass _ mask close write =>
    rw [answers_iff pass, write]
    exact iff_of_true (framed.same (pass_conn pass).2.1) fun h => Bool.false_ne_true h.2.2.1
  | @answered _ env s pass _ mask close write =>
    have hwritten : (closed s env).written = w.conn.written ++ [madeHeader true wsOpcodeClose (closeLength s env)] := by
      rw [← (pass_conn pass).2.1]
      rfl
    have hlt : closeLength s env < 2 ^ 64 := UInt64.toNat_lt _
    rw [answers_iff pass, framed.write hwritten, complete_madeHeader _ hlt]
    simp [mask, close, write]
  | data pass _ _ other =>
    rw [answers_iff pass]
    exact iff_of_true (framed.same (pass_conn pass).2.1) fun h => other h.2.1
  | ended => exact iff_of_true (framed.same rfl) (not_answers rfl)
  | ignored => exact iff_of_true framed (not_answers rfl)
  | drained => exact iff_of_true (framed.same (drained_frame w.conn).2) (not_answers rfl)
  | sent malloc write opcode data =>
    refine iff_of_true ?_ (not_answers rfl)
    rcases wsClientSend_written malloc write w.conn opcode short with hsame | hsent
    · exact framed.same (congrArg Conn.written hsame)
    · refine (framed.write (congrArg Conn.written hsent)).mpr (.single ?_)
      have hsize := frameSize?_serverFrame opcode data [] (Nat.lt_of_le_of_lt short (by decide))
      rwa [List.append_nil] at hsize

theorem done_step (done : w.conn.client.handshakeDone = true) (h : step ssl ctx bev w e = some t) :
    t.conn.client.handshakeDone = true := by
  have before {env : PassEnv} {s : Conn} (pass : w.pass? e = some (env, s)) : s.client.handshakeDone = true := by
    rw [(pass_conn pass).1, done]
  cases (step_cases h).2 with
  | refused pass young => exact absurd (young.symm.trans (before pass)) Bool.false_ne_true
  | upgraded pass young => exact absurd (young.symm.trans (before pass)) Bool.false_ne_true
  | malformed _ done => exact done
  | unanswered _ done => exact done
  | answered _ done => exact done
  | data _ done => exact done
  | ended => exact done
  | ignored => exact done
  | drained => exact (congrArg WsClient.handshakeDone (drained_frame w.conn).1).trans done
  | sent malloc write opcode data =>
    obtain ⟨written, hsend⟩ := wsClientSend_cases malloc write w.conn opcode data
    exact (congrArg (fun s => s.client.handshakeDone) hsend).trans done

/-- Behind the 101 response the output is made of whole frames exactly in the runs in which no CLOSE frame that
    declares a payload is answered. -/
theorem framed_iff (done : w.conn.client.handshakeDone = true) (short : ∀ e ∈ es, e.Short) :
    EachState (step ssl ctx bev) (Framed w.conn.written) w es ↔
      EachStep (step ssl ctx bev) (fun w e _ => ¬AnswersPayload w e) w es := by
  have start : Framed w.conn.written w := ⟨[], (List.append_nil _).symm, .nil⟩
  exact eachState_iff done (fun _ _ _ => done_step) start fun s e t he done framed => framed_step done (short e he) framed

/-! ### A CLOSE frame with a status code -/

def openSession : Session (List Call) :=
  ⟨⟨⟨true, false, .null⟩, [], [], false, []⟩, [], false⟩

/-- Status code 1000 under a zero key. -/
def closeEvent : Event := .read [0x88, 0x82, 0, 0, 0, 0, 0x03, 0xe8] samplePass

theorem framed_iff_close : EachState (step sampleDigest recorder 0) (Framed []) openSession [closeEvent] ↔
    EachStep (step sampleDigest recorder 0) (fun w e _ => ¬AnswersPayload w e) openSession [closeEvent] := by
  refine framed_iff (show openSession.conn.client.handshakeDone = true from rfl) fun e he => ?_
  rw [List.mem_singleton.mp he]
  trivial

/-- The reply is the header of a frame with two bytes of payload, and nothing else. -/
theorem close_unframed : (step sampleDigest recorder 0 openSession closeEvent).map (fun t => t.conn.written) =
      some [[0x88, 0x02]] ∧
    ¬EachState (step sampleDigest recorder 0) (Framed []) openSession [closeEvent] := by
  have hwritten : (step sampleDigest recorder 0 openSession closeEvent).map (fun t => t.conn.written) =
      some [[0x88, 0x02]] := by decide +kernel
  refine ⟨hwritten, ?_⟩
  rintro ⟨-, h⟩
  obtain ⟨t, ht, hreply⟩ := Option.map_eq_some_iff.mp hwritten
  obtain ⟨later, hlater, complete⟩ := h t ht
  rw [hreply, List.nil_append] at hlater
  rw [← hlater] at complete
  have header : madeHeader true 8 2 = [0x88, 0x02] := by decide
  exact absurd ((complete_madeHeader 8 (n := 2) (by decide)).mp (header ▸ complete)) (by decide)

end Vcmp.Websockets.Session
