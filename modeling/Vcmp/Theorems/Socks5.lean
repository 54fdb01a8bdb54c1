import Vcmp.Socks5

/-! What one callback of a SOCKS5 connection can do, and the lifecycle of its context. -/

namespace Vcmp.Socks5
open ByteMem CInt Lts

variable {σ : Type} {app : App σ} {env : Env} {s t : Conn σ} {e : Event} {es : List Event}

/-! ### One callback -/

@[simp] theorem freed_callEvent (events : UInt16) : (s.callEvent app events).freed = s.freed := by
  unfold Conn.callEvent
  split <;> rfl

@[simp] theorem freed_fail : (s.fail app).freed = s.freed ++ [.bufferevent, .ctx] := by
  simp only [Conn.fail, freed_callEvent]

theorem freed_readCb (app : App σ) (env : Env) (s : Conn σ) :
    (readCb app env s).freed = s.freed ∨ (readCb app env s).freed = s.freed ++ [.bufferevent, .ctx] := by
  unfold readCb
  split
  · simp only [readIdent]
    split
    · exact Or.inr freed_fail
    split
    · split
      · exact Or.inr freed_fail
      · exact Or.inl rfl
    · exact Or.inr freed_fail
  split
  · simp only [readRequest]
    split
    · exact Or.inr freed_fail
    split
    · exact Or.inr freed_fail
    · exact Or.inl (freed_callEvent _)
  split
  · refine Or.inl ?_
    unfold readConnected
    split <;> rfl
  · exact Or.inl rfl

theorem freed_writeCb (app : App σ) (s : Conn σ) : (writeCb app s).freed = s.freed := by
  unfold writeCb
  split
  · split <;> rfl
  · rfl

/-- Libevent reports the end or an error of a connection, and not that it is connected. -/
def Strands : Event → Prop
  | .event events _ => events &&& bevEventConnected = 0 ∧ events &&& (bevEventError ||| bevEventEof) ≠ 0
  | _ => False

theorem freed_eventCb_strands {events : UInt16} (h : Strands (.event events env)) :
    (eventCb app env events s).freed = s.freed ++ [.ctx] := by
  rw [eventCb, if_neg (not_not_intro h.1), if_pos h.2]
  exact congrArg (· ++ [Resource.ctx]) (freed_callEvent events)

theorem freed_eventCb {events : UInt16} (h : ¬Strands (.event events env)) :
    (eventCb app env events s).freed = s.freed ∨ (eventCb app env events s).freed = s.freed ++ [.bufferevent, .ctx] := by
  simp only [eventCb]
  split
  · split
    · exact Or.inr freed_fail
    · exact Or.inl rfl
  next hconnected =>
    split
    next hend => exact absurd ⟨not_not.mp hconnected, hend⟩ h
    · exact Or.inl rfl

/-! ### The lifecycle -/

/-- The callback of the event looks into the context. -/
def Derefs : Event → Prop
  | .event events _ => events &&& (bevEventConnected ||| bevEventError ||| bevEventEof) ≠ 0
  | _ => True

/-- A step uses a context that was not freed; it is freed once at most, and its bufferevent with it. -/
structure Safe (s : Conn σ) (e : Event) (t : Conn σ) : Prop where
  live : Derefs e → .ctx ∉ s.freed
  once : t.freed.count .ctx ≤ 1
  together : .ctx ∈ t.freed → .bufferevent ∈ t.freed

/-- Nothing was freed, or both were. -/
def Whole (s : Conn σ) : Prop := s.freed = [] ∨ s.freed = [.bufferevent, .ctx]

theorem whole_of_live (live : s.freed = []) (h : t.freed = s.freed ∨ t.freed = s.freed ++ [.bufferevent, .ctx]) :
    Whole t := by
  rw [live] at h
  exact h

theorem step_freed (whole : Whole s) (h : step app s e = some t) : s.freed = [] ∧
    (Strands e → t.freed = [.ctx]) ∧ (¬Strands e → Whole t) := by
  rw [step.eq_def, Option.ite_none_left_eq_some] at h
  obtain ⟨open', h⟩ := h
  have live : s.freed = [] := whole.resolve_right fun hfreed => open' (hfreed ▸ List.mem_cons_self)
  refine ⟨live, ?_⟩
  cases e with
  | read bytes env =>
    obtain rfl := Option.some.inj h
    exact ⟨False.elim, fun _ => whole_of_live live (freed_readCb app env { s with input := s.input ++ bytes })⟩
  | write =>
    obtain rfl := Option.some.inj h
    exact ⟨False.elim, fun _ => Or.inl ((freed_writeCb app s).trans live)⟩
  | event events env =>
    obtain rfl := Option.some.inj h
    refine ⟨fun strands => ?_, fun strands => ?_⟩
    · rw [freed_eventCb_strands strands, live]
      rfl
    · exact whole_of_live live (freed_eventCb strands)

theorem Whole.safe (whole : Whole t) (live : s.freed = []) : Safe s e t := by
  have hctx : Resource.ctx ∉ s.freed := fun h => List.not_mem_nil (live ▸ h)
  rcases whole with hfreed | hfreed
  · refine ⟨fun _ => hctx, ?_, fun h => ?_⟩
    · rw [hfreed]
      decide
    · rw [hfreed] at h
      cases h
  · refine ⟨fun _ => hctx, ?_, fun _ => ?_⟩
    · rw [hfreed]
      decide
    · rw [hfreed]
      exact List.mem_cons_self

/-- EOF and errors free the context and leave it to the callbacks of the bufferevent. -/
theorem safe_step (whole : Whole s) (h : step app s e = some t) : Safe s e t ↔ ¬Strands e := by
  obtain ⟨live, hstrands, hkeeps⟩ := step_freed whole h
  constructor
  · intro safe strands
    have hfreed := hstrands strands
    have hbev : Resource.bufferevent ∈ t.freed := safe.together (hfreed ▸ List.mem_cons_self)
    rw [hfreed] at hbev
    exact absurd hbev (by decide)
  · exact fun strands => (hkeeps strands).safe live

/-- The context is safe throughout a run exactly if no event reports the end or an error of the connection,
    whatever the callbacks and in which order. -/
theorem safe_iff (ctx : Ctx) (u : σ) : EachStep (step app) Safe (start ctx u) es ↔
    EachStep (step app) (fun _ e _ => ¬Strands e) (start ctx u) es := by
  refine eachStep_iff (I := Whole) (Or.inl rfl) ?_ ?_
  · intro s e t whole h safe
    exact (step_freed whole h).2.2 ((safe_step whole h).mp safe)
  · intro s e t whole h
    exact safe_step whole h

def sampleEnv : Env := ⟨fun _ => 0, some fun _ => 0, true⟩

/-- A context for 127.0.0.1, port 443, in memory that was zero. -/
def sampleCtx : Ctx := ⟨⟨none, some ⟨#[127, 0, 0, 1], rfl⟩, 443, 0⟩, Or.inl rfl⟩

/-- Two events at the end of a connection: the context is freed twice. -/
theorem eof_unsafe : (run (step (σ := Unit) ⟨none, none, none⟩) (start sampleCtx ())
      [.event 0x10 sampleEnv, .event 0x10 sampleEnv]).map Conn.freed = some [.ctx, .ctx] ∧
    ¬EachStep (step (σ := Unit) ⟨none, none, none⟩) Safe (start sampleCtx ())
      [.event 0x10 sampleEnv, .event 0x10 sampleEnv] := by
  have hfreed : (run (step (σ := Unit) ⟨none, none, none⟩) (start sampleCtx ())
      [.event 0x10 sampleEnv, .event 0x10 sampleEnv]).map Conn.freed = some [.ctx, .ctx] := by decide
  refine ⟨hfreed, fun h => ?_⟩
  obtain ⟨t, ht, htwice⟩ := Option.map_eq_some_iff.mp hfreed
  obtain ⟨u, hu, hrest⟩ := Option.bind_eq_some_iff.mp ht
  obtain ⟨v, hv, hend⟩ := Option.bind_eq_some_iff.mp hrest
  obtain rfl := Option.some.inj hend
  have once := ((h u hu).2 v hv).1.once
  rw [htwice] at once
  exact absurd once (by decide)

end Vcmp.Socks5
