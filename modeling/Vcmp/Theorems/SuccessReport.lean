import Vcmp.Theorems.Socks5

/-! When a SOCKS5 connection tells its application that it is connected, against what the proxy sent so far. -/

namespace Vcmp.Socks5
open ByteMem CInt Lts

/-! ### The application -/

/-- The callbacks of an application that were called. -/
inductive Call where
  | read
  | write
  | event (events : UInt16)
  deriving DecidableEq

/-- An application that is told of events. -/
structure Client (σ : Type) where
  readcb : Option (List UInt8 → σ → List UInt8 × σ)
  writecb : Option (σ → σ)
  eventcb : UInt16 → σ → σ

variable {σ : Type} {client : Client σ} {s t : Conn (σ × List Call)} {e : Event} {env : Env} {calls : List Call}
  {bytes first second p : List UInt8} {past : Mem}

/-- The application, and its calls in order. -/
def Client.app (client : Client σ) : App (σ × List Call) where
  readcb := client.readcb.map fun readcb input u =>
    ((readcb input u.1).1, ((readcb input u.1).2, u.2 ++ [.read]))
  writecb := client.writecb.map fun writecb u => (writecb u.1, u.2 ++ [.write])
  eventcb := some fun events u => (client.eventcb events u.1, u.2 ++ [.event events])

/-- What libevent reports once the connection was made. -/
inductive Report where
  | read (bytes : List UInt8)
  | write
  | event (events : UInt16) (other : events &&& bevEventConnected = 0)

def Report.reads : Report → List (List UInt8)
  | .read bytes => [bytes]
  | _ => []

def Report.toEvent (env : Env) : Report → Event
  | .read bytes => .read bytes env
  | .write => .write
  | .event events _ => .event events env

/-- The method reply and the beginning of a reply to CONNECT that report success. -/
def accepted : List UInt8 := [socks5Version, socks5MethodNone, socks5Version, socks5ReplySucceeded, socks5Reserved]

/-- The application heard of the connection once at most, only if the proxy accepted it, and before any other
    callback was called. -/
structure HonestSoFar (stream : List UInt8) (calls : List Call) : Prop where
  accepted : .event bevEventConnected ∈ calls → accepted <+: stream
  once : calls.count (.event bevEventConnected) ≤ 1
  before : ∀ front call back, calls = front ++ call :: back → call = .read ∨ call = .write →
    .event bevEventConnected ∈ front

/-- Whatever the callbacks meet, the application is told nothing wrong at any time. -/
def Honest (client : Client σ) (ctx : Ctx) (u : σ) (reports : List Report) : Prop :=
  ∀ env (done : List (Report × Env)), done.map Prod.fst <+: reports →
    ∀ t ∈ run (step client.app) (start ctx (u, []))
      (.event bevEventConnected env :: done.map fun r => r.1.toEvent r.2),
    HonestSoFar ((done.map Prod.fst).flatMap Report.reads).flatten t.app.2

/-! ### The calls so far -/

/-- Only events were reported, and none of them is that of a connection. -/
def Silent (calls : List Call) : Prop := ∀ call ∈ calls, ∃ events, call = .event events ∧ events ≠ bevEventConnected

/-- The event of a connection was reported, once. -/
def Told (calls : List Call) : Prop :=
  ∃ front back, calls = front ++ .event bevEventConnected :: back ∧ Silent front ∧ .event bevEventConnected ∉ back

theorem Silent.not_mem (silent : Silent calls) : .event bevEventConnected ∉ calls := fun h => by
  obtain ⟨events, heq, hne⟩ := silent _ h
  exact hne (Call.event.inj heq).symm

theorem Silent.snoc {events : UInt16} (silent : Silent calls) (h : events ≠ bevEventConnected) :
    Silent (calls ++ [.event events]) := by
  intro call hmem
  rcases List.mem_append.mp hmem with hmem | hmem
  · exact silent call hmem
  · exact ⟨events, List.mem_singleton.mp hmem, h⟩

theorem Silent.told (silent : Silent calls) : Told (calls ++ [.event bevEventConnected]) :=
  ⟨calls, [], rfl, silent, List.not_mem_nil⟩

theorem Told.snoc {call : Call} (told : Told calls) (h : call ≠ .event bevEventConnected) : Told (calls ++ [call]) := by
  obtain ⟨front, back, rfl, silent, hback⟩ := told
  refine ⟨front, back ++ [call], by rw [List.append_assoc, List.cons_append], silent, fun hmem => ?_⟩
  rcases List.mem_append.mp hmem with hmem | hmem
  · exact hback hmem
  · exact h (List.mem_singleton.mp hmem).symm

theorem Silent.not_called {call : Call} (silent : Silent calls) (h : call ∈ calls) : ¬(call = .read ∨ call = .write) := by
  obtain ⟨events, rfl, -⟩ := silent call h
  rintro (h | h) <;> cases h

theorem Silent.honest {stream : List UInt8} (silent : Silent calls) : HonestSoFar stream calls := by
  refine ⟨fun h => absurd h silent.not_mem, ?_, fun front call back heq hcall => ?_⟩
  · rw [List.count_eq_zero.mpr silent.not_mem]
    exact Nat.zero_le _
  · exact absurd hcall (silent.not_called (heq ▸ List.mem_append_right front List.mem_cons_self))

theorem Told.honest {stream : List UInt8} (told : Told calls) (h : accepted <+: stream) : HonestSoFar stream calls := by
  obtain ⟨front, back, rfl, silent, hback⟩ := told
  refine ⟨fun _ => h, ?_, fun front' call back' heq hcall => ?_⟩
  · rw [List.count_append, List.count_cons_self, List.count_eq_zero.mpr silent.not_mem, List.count_eq_zero.mpr hback]
  · have hne : call ≠ .event bevEventConnected := by rcases hcall with rfl | rfl <;> exact Call.noConfusion
    rcases List.append_eq_append_iff.mp heq with ⟨mid, rfl, hmid⟩ | ⟨mid, rfl, hmid⟩
    · cases mid with
      | nil => exact absurd (List.cons.inj hmid).1.symm hne
      | cons c mid => exact (List.cons.inj hmid).1 ▸ List.mem_append_right front List.mem_cons_self
    · cases mid with
      | nil => exact absurd (List.cons.inj hmid).1 hne
      | cons c mid =>
        obtain ⟨rfl, -⟩ := List.cons.inj hmid
        exact absurd hcall (silent.not_called (List.mem_append_right _ List.mem_cons_self))

/-! ### How far a connection is -/

/-- The bytes at the input, as far as the callback looks. -/
def peeks (p bytes : List UInt8) (past : Mem) : Prop := slice (ofBytes bytes past) 0 p.length = p

def Event.reads : Event → List (List UInt8 × Mem)
  | .read bytes env => [(bytes, env.past)]
  | _ => []

def Event.Other : Event → Prop
  | .event events _ => events &&& bevEventConnected = 0
  | _ => True

/-- What is left of a first read. -/
def leftover (first : List UInt8) : List UInt8 := first.drop (toSize (toInt first.length))

def chosen : List UInt8 := [socks5Version, socks5MethodNone]
def succeeded : List UInt8 := [socks5Version, socks5ReplySucceeded, socks5Reserved]

theorem peeks_chosen : peeks chosen bytes past ↔
    ofBytes bytes past 0 = socks5Version ∧ ofBytes bytes past 1 = socks5MethodNone := by
  have hslice : slice (ofBytes bytes past) 0 chosen.length = [ofBytes bytes past 0, ofBytes bytes past 1] := rfl
  rw [peeks, hslice]
  simp [chosen]

theorem peeks_succeeded : peeks succeeded bytes past ↔ ofBytes bytes past 0 = socks5Version ∧
    ofBytes bytes past 1 = socks5ReplySucceeded ∧ ofBytes bytes past 2 = socks5Reserved := by
  have hslice : slice (ofBytes bytes past) 0 succeeded.length =
    [ofBytes bytes past 0, ofBytes bytes past 1, ofBytes bytes past 2] := rfl
  rw [peeks, hslice]
  simp [succeeded]

/-- How far a connection is after the reads so far. -/
inductive Phase (s : Conn (σ × List Call)) : List (List UInt8 × Mem) → Prop
  | failed (reads : List (List UInt8 × Mem)) : .bufferevent ∈ s.freed → Silent s.app.2 → Phase s reads
  | ident : s.ctx.stage = socks5StageIdent → s.input = [] → Silent s.app.2 → Phase s []
  | request (first : List UInt8 × Mem) : s.ctx.stage = socks5StageRequest → s.input = leftover first.1 →
      peeks chosen first.1 first.2 → Silent s.app.2 → Phase s [first]
  | connected (first second : List UInt8 × Mem) (reads : List (List UInt8 × Mem)) :
      s.ctx.stage = socks5StageConnected → peeks chosen first.1 first.2 →
      peeks succeeded (leftover first.1 ++ second.1) second.2 → Told s.app.2 → Phase s (first :: second :: reads)

theorem calls_fail (client : Client σ) (s : Conn (σ × List Call)) :
    (s.fail client.app).app.2 = s.app.2 ++ [.event bevEventError] := rfl

theorem Phase.of_fail (reads : List (List UInt8 × Mem)) (silent : Silent s.app.2) : Phase (s.fail client.app) reads := by
  refine .failed reads ?_ (calls_fail client s ▸ silent.snoc (by decide))
  rw [freed_fail]
  exact List.mem_append_right _ List.mem_cons_self

theorem phase_readIdent (env : Env) (hinput : s.input = bytes) (silent : Silent s.app.2) : Phase (readIdent client.app env s) [(bytes, env.past)] := by
  simp only [readIdent]
  split
  · exact .of_fail _ silent
  next hver =>
    split
    next hmethod =>
      split
      · exact .of_fail _ silent
      · refine .request _ rfl ?_ ?_ silent
        · simp only [Conn.drain, Conn.setStage, hinput, leftover]
        · exact hinput ▸ peeks_chosen.mpr ⟨not_not.mp hver, hmethod⟩
    · exact .of_fail _ silent

theorem phase_readRequest {first : List UInt8 × Mem} (env : Env) (hinput : s.input = leftover first.1 ++ bytes)
    (hfirst : peeks chosen first.1 first.2) (silent : Silent s.app.2) :
    Phase (readRequest client.app env s) [first, (bytes, env.past)] := by
  simp only [readRequest]
  split
  · exact .of_fail _ silent
  next hver =>
    split
    · exact .of_fail _ silent
    next hreply =>
      obtain ⟨hver, hreserved⟩ := not_or.mp hver
      refine .connected _ _ [] rfl hfirst ?_ silent.told
      exact hinput ▸ peeks_succeeded.mpr ⟨not_not.mp hver, not_not.mp hreply, not_not.mp hreserved⟩

theorem told_readConnected (told : Told s.app.2) : Told (readConnected client.app s).app.2 := by
  unfold readConnected Client.app
  cases client.readcb with
  | none => exact told
  | some readcb => exact told.snoc Call.noConfusion

theorem stage_readConnected (client : Client σ) (s : Conn (σ × List Call)) : (readConnected client.app s).ctx = s.ctx := by
  unfold readConnected
  split <;> rfl

/-- What a read does to a connection that is not given up. -/
theorem phase_read {reads : List (List UInt8 × Mem)} (env : Env) (bytes : List UInt8) (phase : Phase s reads)
    (live : .bufferevent ∉ s.freed) :
    Phase (readCb client.app env { s with input := s.input ++ bytes }) (reads ++ [(bytes, env.past)]) := by
  cases phase with
  | failed _ dead => exact absurd dead live
  | ident stage hinput silent =>
    rw [readCb, if_pos stage]
    exact phase_readIdent env (congrArg (· ++ bytes) hinput) silent
  | request first stage hinput hfirst silent =>
    rw [readCb, if_neg (by rw [stage]; decide), if_pos stage]
    exact phase_readRequest env (congrArg (· ++ bytes) hinput) hfirst silent
  | connected first second more stage hfirst hsecond told =>
    rw [readCb, if_neg (by rw [stage]; decide), if_neg (by rw [stage]; decide), if_pos stage]
    refine .connected first second _ ?_ hfirst hsecond (told_readConnected told)
    rw [stage_readConnected]
    exact stage

theorem phase_writeCb {reads : List (List UInt8 × Mem)} (phase : Phase s reads) (live : .bufferevent ∉ s.freed) :
    Phase (writeCb client.app s) reads := by
  unfold writeCb Client.app
  split
  next connected =>
    cases hcb : client.writecb with
    | none => exact phase
    | some writecb =>
      cases phase with
      | failed _ dead => exact absurd dead live
      | ident stage => exact absurd (stage.symm.trans connected) (by decide)
      | request _ stage => exact absurd (stage.symm.trans connected) (by decide)
      | connected first second more stage hfirst hsecond told =>
        exact .connected first second more stage hfirst hsecond (told.snoc Call.noConfusion)
  · exact phase

theorem phase_eventCb {reads : List (List UInt8 × Mem)} {events : UInt16} (env : Env) (phase : Phase s reads)
    (live : .bufferevent ∉ s.freed) (other : events &&& bevEventConnected = 0) :
    Phase (eventCb client.app env events s) reads := by
  have hne : events ≠ bevEventConnected := by
    rintro rfl
    exact absurd other (by decide)
  rw [eventCb, if_neg (not_not_intro other)]
  split
  · cases phase with
    | failed _ dead => exact absurd dead live
    | ident stage hinput silent => exact .ident stage hinput (silent.snoc hne)
    | request first stage hinput hfirst silent => exact .request first stage hinput hfirst (silent.snoc hne)
    | connected first second more stage hfirst hsecond told =>
      exact .connected first second more stage hfirst hsecond (told.snoc (hne ∘ Call.event.inj))
  · exact phase

theorem phase_step {reads : List (List UInt8 × Mem)} (phase : Phase s reads) (h : step client.app s e = some t)
    (other : e.Other) : Phase t (reads ++ e.reads) := by
  rw [step.eq_def, Option.ite_none_left_eq_some] at h
  obtain ⟨live, h⟩ := h
  cases e with
  | read bytes env =>
    obtain rfl := Option.some.inj h
    exact phase_read env bytes phase live
  | write =>
    obtain rfl := Option.some.inj h
    exact (List.append_nil reads).symm ▸ phase_writeCb phase live
  | event events env =>
    obtain rfl := Option.some.inj h
    exact (List.append_nil reads).symm ▸ phase_eventCb env phase live other

/-- The connection to the proxy is made: the methods go out, or the connection is given up. -/
theorem phase_start (ctx : Ctx) (u : σ) (env : Env) (h : step client.app (start ctx (u, [])) (.event bevEventConnected env) = some s) :
    Phase s [] := by
  have silent : Silent ([] : List Call) := fun call hmem => absurd hmem List.not_mem_nil
  obtain rfl := Option.some.inj h
  have connected : bevEventConnected &&& bevEventConnected ≠ 0 := by decide
  rw [eventCb, if_pos connected]
  split
  · exact .of_fail _ silent
  · exact .ident rfl rfl silent

/-- After any run the connection is as far as the reads in it tell. -/
theorem phase_run {ctx : Ctx} {u : σ} {es : List Event} (others : ∀ e ∈ es, e.Other)
    (h : run (step client.app) (start ctx (u, [])) (.event bevEventConnected env :: es) = some t) :
    Phase t (es.flatMap Event.reads) := by
  obtain ⟨s, hs, hrun⟩ := Option.bind_eq_some_iff.mp h
  have hstart : Phase s (([] : List Event).flatMap Event.reads) := phase_start ctx u env hs
  refine run_history (P := fun _ e _ => e.Other) (H := fun past s => Phase s (past.flatMap Event.reads)) hstart (fun past s e t phase h other => ?_)
    (eachStep_of_forall fun s e t he _ => others e he) hrun
  rw [List.flatMap_append, List.flatMap_singleton]
  exact phase_step phase h other

/-! ### The split of the stream -/

/-- In some memory the bytes begin with `p`. -/
def Meets (bytes p : List UInt8) : Prop := bytes <+: p ∨ p <+: bytes

/-- The first two reads and the memory behind them can look like success where they are none. -/
def Misread (first second : List UInt8) : Prop :=
  Meets first chosen ∧ Meets (leftover first ++ second) succeeded ∧ ¬accepted <+: first ++ second

theorem reads_done (done : List (Report × Env)) : ((done.map fun r => r.1.toEvent r.2).flatMap Event.reads).map Prod.fst =
    (done.map Prod.fst).flatMap Report.reads := by
  induction done with
  | nil => rfl
  | cons r done ih =>
    obtain ⟨report, env⟩ := r
    cases report with
    | read bytes => exact congrArg (bytes :: ·) ih
    | write => exact ih
    | event events other => exact ih

theorem others_done (done : List (Report × Env)) : ∀ e ∈ done.map fun r => r.1.toEvent r.2, e.Other := by
  intro e he
  obtain ⟨⟨report, env⟩, -, rfl⟩ := List.mem_map.mp he
  cases report with
  | read bytes => trivial
  | write => trivial
  | event events other => exact other

theorem Phase.honest {reads : List (List UInt8 × Mem)} (phase : Phase s reads)
    (h : ∀ first second rest, reads = first :: second :: rest → ¬Misread first.1 second.1) :
    HonestSoFar (reads.map Prod.fst).flatten s.app.2 := by
  cases phase with
  | failed _ _ silent => exact silent.honest
  | ident _ _ silent => exact silent.honest
  | request _ _ _ _ silent => exact silent.honest
  | connected first second rest _ hfirst hsecond told =>
    have hmisread := h first second rest rfl
    have haccepted : accepted <+: first.1 ++ second.1 := by
      by_contra hno
      exact hmisread ⟨exists_past_iff.mp ⟨_, hfirst⟩, exists_past_iff.mp ⟨_, hsecond⟩, hno⟩
    refine told.honest (haccepted.trans ?_)
    rw [List.map_cons, List.flatten_cons, List.map_cons, List.flatten_cons, ← List.append_assoc]
    exact List.prefix_append _ _

theorem split_at_read {reports : List Report} {rest : List (List UInt8)} (h : reports.flatMap Report.reads = bytes :: rest) :
    ∃ front back, reports = front ++ .read bytes :: back ∧ front.flatMap Report.reads = [] ∧
      back.flatMap Report.reads = rest := by
  induction reports with
  | nil => cases h
  | cons report reports ih =>
    cases report with
    | read bytes' =>
      obtain ⟨rfl, rfl⟩ := List.cons.inj h
      exact ⟨[], reports, rfl, rfl, rfl⟩
    | write =>
      obtain ⟨front, back, rfl, hfront, hback⟩ := ih h
      exact ⟨.write :: front, back, rfl, hfront, hback⟩
    | event events other =>
      obtain ⟨front, back, rfl, hfront, hback⟩ := ih h
      exact ⟨.event events other :: front, back, rfl, hfront, hback⟩

/-- Waiting for a reply with so much at the input. -/
structure Waits (stage : UInt32) (input : List UInt8) (s : Conn (σ × List Call)) : Prop where
  stage : s.ctx.stage = stage
  input : s.input = input
  live : .bufferevent ∉ s.freed

theorem Waits.step_report {stage : UInt32} {input : List UInt8} (client : Client σ) (env : Env) (report : Report) (waits : Waits stage input s)
    (unconnected : stage ≠ socks5StageConnected) (h : report.reads = []) :
    ∃ t, step client.app s (report.toEvent env) = some t ∧ Waits stage input t := by
  cases report with
  | read bytes => cases h
  | write =>
    refine ⟨writeCb client.app s, if_neg waits.live, ?_⟩
    rw [writeCb, if_neg (waits.stage ▸ unconnected)]
    exact waits
  | event events other =>
    refine ⟨eventCb client.app env events s, if_neg waits.live, ?_⟩
    rw [eventCb, if_neg (not_not_intro other)]
    split
    · refine ⟨waits.stage, waits.input, fun hfreed => ?_⟩
      rcases List.mem_append.mp hfreed with hfreed | hfreed
      · exact waits.live hfreed
      · exact absurd hfreed (by decide)
    · exact waits

theorem run_waits {stage : UInt32} {input : List UInt8} {reports : List Report} (client : Client σ) (env : Env) (waits : Waits stage input s)
    (unconnected : stage ≠ socks5StageConnected) (h : reports.flatMap Report.reads = []) :
    ∃ t, run (step client.app) s (reports.map (Report.toEvent env)) = some t ∧ Waits stage input t := by
  induction reports generalizing s with
  | nil => exact ⟨s, rfl, waits⟩
  | cons report reports ih =>
    obtain ⟨hreport, hrest⟩ := List.append_eq_nil_iff.mp h
    obtain ⟨t, ht, waits⟩ := waits.step_report client env report unconnected hreport
    obtain ⟨u, hu, waits⟩ := ih waits hrest
    exact ⟨u, by rw [List.map_cons, run, ht]; exact hu, waits⟩

/-- A callback whose allocation and write succeed. -/
def sending (past : Mem) : Env := ⟨past, some fun _ => 0, true⟩

theorem waits_start (client : Client σ) (ctx : Ctx) (u : σ) (past : Mem) : ∃ s,
    step client.app (start ctx (u, [])) (.event bevEventConnected (sending past)) = some s ∧ Waits socks5StageIdent [] s :=
  ⟨_, rfl, rfl, rfl, List.not_mem_nil⟩

theorem Waits.step_first (client : Client σ) (waits : Waits socks5StageIdent [] s) (h : peeks chosen first past) :
    ∃ t, step client.app s (.read first (sending past)) = some t ∧ Waits socks5StageRequest (leftover first) t := by
  obtain ⟨hver, hmethod⟩ := peeks_chosen.mp h
  refine ⟨_, if_neg waits.live, ?_⟩
  rw [readCb, if_pos waits.stage]
  simp only [readIdent, waits.input, List.nil_append, sending]
  rw [if_neg (not_not_intro hver), if_pos hmethod, if_neg (not_not_intro (show (socks5SendReq _ _ _).1 = 0 from rfl))]
  exact ⟨rfl, rfl, waits.live⟩

theorem Waits.step_second (client : Client σ) (waits : Waits socks5StageRequest (leftover first) s)
    (h : peeks succeeded (leftover first ++ second) past) :
    ∃ t, step client.app s (.read second (sending past)) = some t ∧ .event bevEventConnected ∈ t.app.2 := by
  obtain ⟨hver, hreply, hreserved⟩ := peeks_succeeded.mp h
  refine ⟨_, if_neg waits.live, ?_⟩
  rw [readCb, if_neg (by rw [waits.stage]; decide), if_pos waits.stage]
  simp only [readRequest, waits.input, sending]
  rw [if_neg (not_or.mpr ⟨not_not_intro hver, not_not_intro hreserved⟩), if_neg (not_not_intro hreply)]
  exact List.mem_append_right _ List.mem_cons_self

/-- Reports whose first two reads can look like success tell the application of a connection, in some memory. -/
theorem exists_told (client : Client σ) (ctx : Ctx) (u : σ) {reports : List Report} {rest : List (List UInt8)}
    (hreads : reports.flatMap Report.reads = first :: second :: rest) (hfirst : Meets first chosen)
    (hsecond : Meets (leftover first ++ second) succeeded) :
    ∃ env, ∃ done : List (Report × Env), done.map Prod.fst <+: reports ∧
      (done.map Prod.fst).flatMap Report.reads = [first, second] ∧
      ∃ t ∈ run (step client.app) (start ctx (u, []))
        (.event bevEventConnected env :: done.map fun r => r.1.toEvent r.2), .event bevEventConnected ∈ t.app.2 := by
  obtain ⟨past₁, hpast₁⟩ := exists_past_iff.mpr hfirst
  obtain ⟨past₂, hpast₂⟩ := exists_past_iff.mpr hsecond
  obtain ⟨front, back, rfl, hfront, hback⟩ := split_at_read hreads
  obtain ⟨mid, post, rfl, hmid, -⟩ := split_at_read hback
  obtain ⟨s₀, h₀, waits⟩ := waits_start client ctx u past₁
  obtain ⟨s₁, h₁, waits⟩ := run_waits client (sending past₁) waits (by decide) hfront
  obtain ⟨s₂, h₂, waits⟩ := waits.step_first client hpast₁
  obtain ⟨s₃, h₃, waits⟩ := run_waits client (sending past₁) waits (by decide) hmid
  obtain ⟨s₄, h₄, told⟩ := waits.step_second client hpast₂
  let quiet (reports : List Report) : List (Report × Env) := reports.map fun r => (r, sending past₁)
  have hevents (reports : List Report) :
      (quiet reports).map (fun r => r.1.toEvent r.2) = reports.map (Report.toEvent (sending past₁)) :=
    List.map_map
  have hreports (reports : List Report) : (quiet reports).map Prod.fst = reports :=
    List.map_map.trans (List.map_id reports)
  have hread (bytes : List UInt8) (env : Env) : (Report.read bytes).toEvent env = .read bytes env := rfl
  refine ⟨sending past₁, quiet front ++ (.read first, sending past₁) :: (quiet mid ++ [(.read second, sending past₂)]),
    ?_, ?_, s₄, ?_, told⟩
  · simp [hreports]
  · simp [hreports, hfront, hmid, Report.reads]
  · simp only [List.map_append, List.map_cons, List.map_nil, hevents, hread]
    rw [run, h₀, Option.bind_some, run_append, h₁, Option.bind_some, run, h₂, Option.bind_some, run_append, h₃,
      Option.bind_some, run, h₄]
    rfl

/-- The application is told of the connection honestly, whatever lies behind the reads, if and only if the first two
    reads look like success only where they report it. -/
theorem honest_iff (client : Client σ) (ctx : Ctx) (u : σ) (reports : List Report) : Honest client ctx u reports ↔
    ∀ first second rest, reports.flatMap Report.reads = first :: second :: rest → ¬Misread first second := by
  constructor
  · rintro honest first second rest hreads ⟨hfirst, hsecond, hno⟩
    obtain ⟨env, done, hdone, hstream, t, ht, told⟩ := exists_told client ctx u hreads hfirst hsecond
    have haccepted := (honest env done hdone t ht).accepted told
    rw [hstream] at haccepted
    exact hno (by simpa using haccepted)
  · intro h env done hdone t ht
    have phase := phase_run (others_done done) ht
    rw [← reads_done]
    refine phase.honest fun first second rest hreads => ?_
    obtain ⟨later, rfl⟩ := hdone
    refine h first.1 second.1 (rest.map Prod.fst ++ later.flatMap Report.reads) ?_
    rw [List.flatMap_append, ← reads_done, hreads]
    rfl

/-- An application without a state. -/
def sampleClient : Client Unit := ⟨none, none, fun _ u => u⟩

/-- Two reads of one byte: the bytes behind them make up the rest of both replies. -/
theorem bytewise_not_honest : (run (step sampleClient.app) (start sampleCtx ((), []))
      [.event bevEventConnected sampleEnv, .read [5] sampleEnv, .read [5] sampleEnv]).map (fun t => t.app.2) =
        some [.event bevEventConnected] ∧
    ¬Honest sampleClient sampleCtx () [.read [5], .read [5]] := by
  have hcalls : (run (step sampleClient.app) (start sampleCtx ((), []))
      [.event bevEventConnected sampleEnv, .read [5] sampleEnv, .read [5] sampleEnv]).map (fun t => t.app.2) =
        some [.event bevEventConnected] := by decide
  refine ⟨hcalls, fun honest => ?_⟩
  obtain ⟨t, ht, hcall⟩ := Option.map_eq_some_iff.mp hcalls
  have haccepted := (honest sampleEnv [(.read [5], sampleEnv), (.read [5], sampleEnv)] List.prefix_rfl t ht).accepted
    (hcall ▸ List.mem_cons_self)
  exact absurd haccepted (by decide)

end Vcmp.Socks5
