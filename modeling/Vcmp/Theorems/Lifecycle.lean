import Vcmp.Theorems.CallOrder

/-! The bufferevent and the client object of a connection as resources. -/

namespace Vcmp.Websockets.Session
open ByteMem Lts

variable {σ : Type} {ssl : Digest} {ctx : WsCtx σ} {bev : Nat} {w t : Session σ} {e : Event} {es : List Event}
  {env : PassEnv} {s : Conn}

/-- The connection is over: its bufferevent was freed, or the reply to a CLOSE frame has gone out. -/
def Ends (w : Session σ) (e : Event) (t : Session σ) : Prop :=
  ¬t.conn.Live ∨ e = .drained ∧ w.conn.client.disconnect = true

/-- A step uses a connection of which nothing was released, and if it is the last one, both resources are
    released once. -/
def Lifecycle (w : Session σ) (e : Event) (t : Session σ) : Prop :=
  w.conn.freed = [] ∧ (Ends w e t → t.conn.freed.Perm [.bufferevent, .client])

/-- A pass that frees the bufferevent: the handshake fails, the mask bit is missing, or the reply to a CLOSE
    frame cannot be written. -/
def Drops (s : Conn) (env : PassEnv) : Prop :=
  if s.client.handshakeDone then NoMaskBit s env ∨ opcodeOf s env = wsOpcodeClose ∧ env.write = false
  else ¬Upgrades s env

/-- The client object is lost in a pass that frees the bufferevent, and both stay where the output has drained
    behind the reply to a CLOSE frame. -/
def Leaks (w : Session σ) (e : Event) : Prop :=
  (∃ env s, w.pass? e = some (env, s) ∧ Drops s env) ∨ e = .drained ∧ w.conn.client.disconnect = true

theorem leaks_pass (pass : w.pass? e = some (env, s)) : Leaks w e ↔ Drops s env := by
  constructor
  · rintro (⟨env', s', hpass, h⟩ | ⟨rfl, -⟩)
    · rw [pass] at hpass
      cases hpass
      exact h
    · cases pass
  · exact fun h => Or.inl ⟨env, s, pass, h⟩

theorem ends_pass (pass : w.pass? e = some (env, s)) : Ends w e t ↔ ¬t.conn.Live := by
  constructor
  · rintro (h | ⟨rfl, -⟩)
    · exact h
    · cases pass
  · exact Or.inl

/-- Of an open connection nothing was freed, and it has no write callback. -/
structure Owned (w : Session σ) : Prop where
  freed : w.conn.freed = []
  noWriteCb : w.conn.hasWriteCb = false

theorem owned_step (owned : Owned w) (h : step ssl ctx bev w e = some t) (live : t.conn.Live) : Owned t := by
  have keep {env : PassEnv} {s : Conn} (pass : w.pass? e = some (env, s)) : s.freed = [] ∧ s.hasWriteCb = false := by
    obtain ⟨input, rfl⟩ := pass?_conn pass
    exact ⟨owned.freed, owned.noWriteCb⟩
  cases (step_cases h).2 with
  | refused => exact absurd live (not_live_free _)
  | malformed => exact absurd live (not_live_free _)
  | unanswered => exact absurd live (not_live_free _)
  | ended => exact absurd live fun hm => hm (List.mem_append_left _ (List.mem_append_right _ List.mem_cons_self))
  | upgraded pass => exact ⟨(keep pass).1, (keep pass).2⟩
  | answered pass => exact ⟨(keep pass).1, (keep pass).2⟩
  | data pass => exact ⟨(keep pass).1, (keep pass).2⟩
  | ignored => exact owned
  | drained =>
    rw [owned.noWriteCb]
    exact owned
  | sent malloc write opcode data =>
    obtain ⟨written, hsend⟩ := wsClientSend_cases malloc write w.conn opcode data
    rw [hsend]
    exact ⟨owned.freed, owned.noWriteCb⟩

theorem live_of_freed {s : Conn} (h : s.freed = []) : s.Live := fun hm => List.not_mem_nil (h ▸ hm)

theorem not_perm_one : ¬[Resource.bufferevent].Perm [.bufferevent, .client] := fun h => absurd h.length_eq (by decide)

/-- A pass that frees the bufferevent loses the client object. -/
theorem dropped_iff (owned : Owned w) (pass : w.pass? e = some (env, s)) (drops : Drops s env)
    (freed : t.conn.freed = s.freed ++ [.bufferevent]) :
    (Ends w e t → t.conn.freed.Perm [.bufferevent, .client]) ↔ ¬Leaks w e := by
  rw [(pass_conn pass).2.2, owned.freed, List.nil_append] at freed
  have dead : ¬t.conn.Live := fun live => live (freed ▸ List.mem_cons_self)
  rw [ends_pass pass, leaks_pass pass, freed]
  exact iff_of_false (fun h => not_perm_one (h dead)) (not_not_intro drops)

theorem kept_iff (owned : Owned w) (pass : w.pass? e = some (env, s)) (stays : ¬Drops s env)
    (freed : t.conn.freed = s.freed) :
    (Ends w e t → t.conn.freed.Perm [.bufferevent, .client]) ↔ ¬Leaks w e := by
  rw [(pass_conn pass).2.2, owned.freed] at freed
  rw [ends_pass pass, leaks_pass pass]
  exact iff_of_true (fun dead => absurd (live_of_freed freed) dead) stays

/-- An event that is no pass and not the drained one ends nothing, or releases both. -/
theorem other_iff (none : w.pass? e = none) (hne : e ≠ .drained) (h : t.conn.Live ∨ t.conn.freed = [.bufferevent, .client]) :
    (Ends w e t → t.conn.freed.Perm [.bufferevent, .client]) ↔ ¬Leaks w e := by
  refine iff_of_true ?_ ?_
  · rintro (dead | ⟨heq, -⟩)
    · exact h.resolve_left dead ▸ List.Perm.refl _
    · exact absurd heq hne
  · rintro (⟨env, s, hpass, -⟩ | ⟨heq, -⟩)
    · rw [none] at hpass
      cases hpass
    · exact hne heq

/-- Only `event_cb` releases both. -/
theorem lifecycle_step (owned : Owned w) (h : step ssl ctx bev w e = some t) : Lifecycle w e t ↔ ¬Leaks w e := by
  have live := live_of_freed owned.freed
  rw [Lifecycle, and_iff_right owned.freed]
  cases (step_cases h).2 with
  | refused pass young fails input =>
    refine dropped_iff owned pass ?_ rfl
    rw [Drops, young]
    exact fails
  | upgraded pass young key upgrades =>
    refine kept_iff owned pass ?_ rfl
    rw [Drops, young]
    exact not_not_intro upgrades
  | malformed pass done mask =>
    refine dropped_iff owned pass ?_ rfl
    rw [Drops, if_pos done]
    exact Or.inl mask
  | unanswered pass done mask close write =>
    refine dropped_iff owned pass ?_ rfl
    rw [Drops, if_pos done]
    exact Or.inr ⟨close, write⟩
  | answered pass done mask close write =>
    refine kept_iff owned pass ?_ rfl
    rw [Drops, if_pos done, write]
    exact fun h => h.elim mask fun h => Bool.false_ne_true h.2.symm
  | data pass done mask other =>
    refine kept_iff owned pass ?_ rfl
    rw [Drops, if_pos done]
    exact fun h => h.elim mask fun h => other h.1
  | ended events bits =>
    refine other_iff rfl Event.noConfusion (Or.inr ?_)
    show w.conn.freed ++ [Resource.bufferevent] ++ [Resource.client] = _
    rw [owned.freed]
    rfl
  | ignored events bits => exact other_iff rfl Event.noConfusion (Or.inl live)
  | drained =>
    rw [owned.noWriteCb, if_neg Bool.false_ne_true]
    have hends : Ends w .drained w ↔ w.conn.client.disconnect = true := by simp [Ends, live]
    have hleaks : Leaks w .drained ↔ w.conn.client.disconnect = true := by simp [Leaks, pass?]
    have hperm : ¬w.conn.freed.Perm [.bufferevent, .client] := by
      rw [owned.freed]
      exact fun h => absurd h.length_eq (by decide)
    rw [hends, hleaks]
    exact imp_congr_right fun _ => iff_of_false hperm id
  | sent malloc write opcode data =>
    obtain ⟨written, hsend⟩ := wsClientSend_cases malloc write w.conn opcode data
    rw [hsend]
    exact other_iff rfl Event.noConfusion (Or.inl live)

/-- The lifecycle of an accepted connection is kept throughout a run exactly if nothing ends it but EOF or an
    error. -/
theorem lifecycle_iff {bufferevent client : Bool} {u : σ} (accept : acceptConnCb bufferevent client = some s) :
    EachStep (step ssl ctx bev) Lifecycle ⟨s, u, false⟩ es ↔
      EachStep (step ssl ctx bev) (fun w e _ => ¬Leaks w e) ⟨s, u, false⟩ es := by
  obtain rfl := acceptConnCb_cases accept
  refine eachStep_iff (I := fun w => w.conn.Live → Owned w) (fun _ => ⟨rfl, rfl⟩) ?_ ?_
  · intro w e t owned h _ live
    exact owned_step (owned (step_cases h).1) h live
  · intro w e t owned h
    exact lifecycle_step (owned (step_cases h).1) h

theorem lifecycle_iff_rejected :
    EachStep (step sampleDigest (tracer (.user 7)) 0) Lifecycle ⟨accepted, [], false⟩ [.read [0x0a] samplePass] ↔
      EachStep (step sampleDigest (tracer (.user 7)) 0) (fun w e _ => ¬Leaks w e) ⟨accepted, [], false⟩
        [.read [0x0a] samplePass] :=
  lifecycle_iff (show acceptConnCb true true = some accepted from rfl)

/-- A request without a key: the bufferevent is freed and the client object is not. -/
theorem rejected_leaks : ¬EachStep (step sampleDigest (tracer (.user 7)) 0) Lifecycle ⟨accepted, [], false⟩
    [.read [0x0a] samplePass] := by
  intro h
  have hfreed : (step sampleDigest (tracer (.user 7)) 0 ⟨accepted, [], false⟩ (.read [0x0a] samplePass)).map
      (fun t => t.conn.freed) = some [.bufferevent] := by decide +kernel
  obtain ⟨t, ht, hone⟩ := Option.map_eq_some_iff.mp hfreed
  have dead : ¬t.conn.Live := fun live => live (hone ▸ List.mem_cons_self)
  exact not_perm_one (hone ▸ (h t ht).1.2 (Or.inl dead))

end Vcmp.Websockets.Session
