import Vcmp.Lib.Parts
import Vcmp.Theorems.Socks5

/-! The bytes that a SOCKS5 connection hands to its application: which reads end where the replies of the proxy
    end. -/

namespace Vcmp.Socks5
open ByteMem CInt Lts Parts

/-! ### The replies of the proxy -/

/-- `BND.ADDR` of a reply, of one of the address types. -/
inductive BndAddr where
  | ipv4 (addr : Vector UInt8 4)
  | domainname (name : List UInt8) (bound : name.length < 256)
  | ipv6 (addr : Vector UInt8 16)

def BndAddr.bytes : BndAddr → List UInt8
  | .ipv4 addr => socks5AtypIpv4 :: addr.toList
  | .domainname name _ => socks5AtypDomainname :: UInt8.ofNat name.length :: name
  | .ipv6 addr => socks5AtypIpv6 :: addr.toList

def methodReply : List UInt8 := [socks5Version, socks5MethodNone]

/-- A reply to a CONNECT request that was carried out. -/
structure Reply where
  addr : BndAddr
  port : Vector UInt8 2

def Reply.bytes (reply : Reply) : List UInt8 :=
  socks5Version :: socks5ReplySucceeded :: socks5Reserved :: (reply.addr.bytes ++ reply.port.toList)

theorem BndAddr.length_bytes (addr : BndAddr) : addr.bytes.length ≤ 257 := by
  cases addr with
  | ipv4 addr => simp [bytes]
  | domainname name bound =>
    simp only [bytes, List.length_cons]
    omega
  | ipv6 addr => simp [bytes]

theorem Reply.length_bytes (reply : Reply) : reply.bytes.length ≤ 262 := by
  have haddr := reply.addr.length_bytes
  simp only [bytes, List.length_cons, List.length_append, Vector.length_toList]
  omega

/-! ### The application -/

structure Inbox where
  received : List UInt8
  events : List UInt16

/-- An application that takes some of the bytes it can read, as `takes` tells, and keeps all it gets. -/
def recorder (takes : List UInt8 → Nat) : App Inbox where
  readcb := some fun input u =>
    (input.drop (takes input), { u with received := u.received ++ input.take (takes input) })
  writecb := none
  eventcb := some fun events u => { u with events := u.events ++ [events] }

/-- The allocation and the write of a callback succeed. -/
def Env.Sends (env : Env) : Prop := env.malloc.isSome = true ∧ env.write = true

variable {takes : List UInt8 → Nat} {ctx : Ctx} {env : Env} {s t : Conn Inbox} {bytes data : List UInt8}
  {reads : List (List UInt8 × Env)} {reply : Reply}

def readEvents (reads : List (List UInt8 × Env)) : List Event := reads.map fun r => .read r.1 r.2

/-- After the reads the application was told once that it is connected, and what it got and can still read is
    `data`. -/
def Delivers (takes : List UInt8 → Nat) (s : Conn Inbox) (reads : List (List UInt8 × Env)) (data : List UInt8) : Prop :=
  ∃ t ∈ run (step (recorder takes)) s (readEvents reads),
    t.app.events.count bevEventConnected = 1 ∧ t.app.received ++ t.input = data

/-- The reads after the connection to the proxy was made deliver `data`. -/
def Tunnels (takes : List UInt8 → Nat) (ctx : Ctx) (env : Env) (reads : List (List UInt8 × Env)) (data : List UInt8) :
    Prop :=
  ∃ s ∈ step (recorder takes) (start ctx ⟨[], []⟩) (.event bevEventConnected env), Delivers takes s reads data

/-! ### One read -/

theorem step_read (takes : List UInt8 → Nat) (env : Env) (bytes : List UInt8) (live : s.freed = []) :
    step (recorder takes) s (.read bytes env) = some (readCb (recorder takes) env { s with input := s.input ++ bytes }) := by
  rw [step, if_neg (live ▸ List.not_mem_nil)]

/-- A connection that was given up takes no more events, and told the application of an error only. -/
structure Failed (s : Conn Inbox) : Prop where
  freed : s.freed = [.bufferevent, .ctx]
  events : s.app.events.count bevEventConnected = 0

theorem failed_fail (live : s.freed = []) (events : s.app.events = []) : Failed (s.fail (recorder takes)) := by
  constructor
  · rw [freed_fail, live]
    rfl
  · simp only [Conn.fail, Conn.callEvent, recorder, events]
    decide

theorem Failed.not_delivers (failed : Failed s) : ¬Delivers takes s reads data := by
  rintro ⟨t, h, once, -⟩
  cases reads with
  | nil =>
    obtain rfl := Option.some.inj h
    rw [failed.events] at once
    cases once
  | cons r reads =>
    have refused : step (recorder takes) s (.read r.1 r.2) = none := by
      rw [step, if_pos (failed.freed ▸ List.mem_cons_self)]
    rw [readEvents, List.map_cons, Lts.run, refused] at h
    cases h

theorem delivers_cons {r : List UInt8 × Env} (h : step (recorder takes) s (.read r.1 r.2) = some t) :
    Delivers takes s (r :: reads) data ↔ Delivers takes t reads data := by
  rw [Delivers, readEvents, List.map_cons, run, h]
  rfl

/-- Waiting for a reply of the proxy, with nothing told to the application. -/
structure Awaits (stage : UInt32) (s : Conn Inbox) : Prop where
  stage : s.ctx.stage = stage
  freed : s.freed = []
  input : s.input = []
  app : s.app = ⟨[], []⟩

theorem awaits_ident (takes : List UInt8 → Nat) (ctx : Ctx) (sends : env.Sends) :
    ∃ s, step (recorder takes) (start ctx ⟨[], []⟩) (.event bevEventConnected env) = some s ∧ Awaits socks5StageIdent s := by
  refine ⟨_, rfl, ?_⟩
  have connected : bevEventConnected &&& bevEventConnected ≠ 0 := by decide
  simp only [eventCb]
  rw [if_pos connected, if_neg (by simp [sends.2])]
  exact ⟨rfl, rfl, rfl, rfl⟩

theorem sendReq_eq_zero (sends : env.Sends) (ctx : Ctx) : (socks5SendReq env.malloc env.write ctx).1 = 0 := by
  obtain ⟨buf, hbuf⟩ := Option.isSome_iff_exists.mp sends.1
  rw [hbuf, sends.2]
  rfl

theorem Awaits.step_ident (awaits : Awaits socks5StageIdent s) : step (recorder takes) s (.read bytes env) =
    some (readIdent (recorder takes) env { s with input := bytes }) := by
  rw [step_read _ _ _ awaits.freed, awaits.input, List.nil_append, readCb, if_pos awaits.stage]

theorem Awaits.step_request (awaits : Awaits socks5StageRequest s) : step (recorder takes) s (.read bytes env) =
    some (readRequest (recorder takes) env { s with input := bytes }) := by
  rw [step_read _ _ _ awaits.freed, awaits.input, List.nil_append, readCb, awaits.stage, if_neg (by decide), if_pos rfl]

/-- The first read of a method reply: the connection is given up, or the request goes out. -/
theorem step_ident (takes : List UInt8 → Nat) (env : Env) (awaits : Awaits socks5StageIdent s) (short : bytes.length < 2 ^ 31) :
    ∃ t, step (recorder takes) s (.read bytes env) = some t ∧ (Failed t ∨ Awaits socks5StageRequest t) := by
  refine ⟨_, awaits.step_ident, ?_⟩
  have events : s.app.events = [] := by rw [awaits.app]
  simp only [readIdent]
  split
  · exact Or.inl (failed_fail awaits.freed events)
  split
  · split
    · exact Or.inl (failed_fail awaits.freed events)
    · refine Or.inr ⟨rfl, awaits.freed, ?_, awaits.app⟩
      simp only [Conn.drain, Conn.setStage]
      rw [toSize_toInt short, List.drop_length]
  · exact Or.inl (failed_fail awaits.freed events)

theorem step_methodReply (takes : List UInt8 → Nat) (awaits : Awaits socks5StageIdent s) (sends : env.Sends) :
    ∃ t, step (recorder takes) s (.read methodReply env) = some t ∧ Awaits socks5StageRequest t := by
  refine ⟨_, awaits.step_ident, ?_⟩
  simp only [readIdent]
  rw [if_neg (by simp [ofBytes, methodReply]), if_pos (by simp [ofBytes, methodReply]),
    if_neg (not_not_intro (sendReq_eq_zero sends _))]
  exact ⟨rfl, awaits.freed, rfl, awaits.app⟩

/-- Connected, with what is left of a first read that a reply was taken from. -/
structure Connected (input : List UInt8) (s : Conn Inbox) : Prop where
  stage : s.ctx.stage = socks5StageConnected
  freed : s.freed = []
  input : s.input = input
  app : s.app = ⟨[], [bevEventConnected]⟩

/-- The first read of a reply is dropped up to its length as an `int`, whatever the reply is. -/
theorem step_request (takes : List UInt8 → Nat) (env : Env) (bytes : List UInt8) (awaits : Awaits socks5StageRequest s) :
    ∃ t, step (recorder takes) s (.read bytes env) = some t ∧
      (Failed t ∨ Connected (bytes.drop (toSize (toInt bytes.length))) t) := by
  refine ⟨_, awaits.step_request, ?_⟩
  have events : s.app.events = [] := by rw [awaits.app]
  simp only [readRequest]
  split
  · exact Or.inl (failed_fail awaits.freed events)
  split
  · exact Or.inl (failed_fail awaits.freed events)
  · refine Or.inr ⟨rfl, awaits.freed, rfl, ?_⟩
    simp only [Conn.callEvent, recorder, Conn.setStage, Conn.drain, awaits.app, List.nil_append]

/-- A reply that starts with no version is given up. -/
theorem step_request_fails (takes : List UInt8 → Nat) (env : Env) (bytes : List UInt8)
    (awaits : Awaits socks5StageRequest s) {b : UInt8} (h : b ≠ socks5Version) :
    ∃ t, step (recorder takes) s (.read (b :: bytes) env) = some t ∧ Failed t := by
  refine ⟨_, awaits.step_request, ?_⟩
  have events : s.app.events = [] := by rw [awaits.app]
  simp only [readRequest]
  rw [if_pos (Or.inl (by simpa [ofBytes] using h))]
  exact failed_fail awaits.freed events

theorem step_reply (takes : List UInt8 → Nat) (env : Env) (awaits : Awaits socks5StageRequest s)
    (whole : reply.bytes <+: bytes) :
    ∃ t, step (recorder takes) s (.read bytes env) = some t ∧ Connected (bytes.drop (toSize (toInt bytes.length))) t := by
  refine ⟨_, awaits.step_request, ?_⟩
  obtain ⟨rest, rfl⟩ := whole
  simp only [readRequest]
  rw [if_neg (by simp [ofBytes, Reply.bytes]), if_neg (by simp [ofBytes, Reply.bytes])]
  refine ⟨rfl, awaits.freed, rfl, ?_⟩
  simp only [Conn.callEvent, recorder, Conn.setStage, Conn.drain, awaits.app, List.nil_append]

theorem run_connected (takes : List UInt8 → Nat) (reads : List (List UInt8 × Env))
    (stage : s.ctx.stage = socks5StageConnected) (live : s.freed = []) :
    ∃ t, run (step (recorder takes)) s (readEvents reads) = some t ∧ t.app.events = s.app.events ∧
      t.app.received ++ t.input = s.app.received ++ s.input ++ (reads.map Prod.fst).flatten := by
  induction reads generalizing s with
  | nil => exact ⟨s, rfl, rfl, (List.append_nil _).symm⟩
  | cons r reads ih =>
    have hread := step_read takes r.2 r.1 live
    rw [readCb, stage, if_neg (by decide), if_neg (by decide), if_pos rfl] at hread
    obtain ⟨t, hrun, events, received⟩ :=
      ih (s := readConnected (recorder takes) { s with input := s.input ++ r.1 }) stage live
    refine ⟨t, ?_, events, received.trans ?_⟩
    · rw [readEvents, List.map_cons, Lts.run, hread]
      exact hrun
    · simp only [readConnected, recorder, List.append_assoc, List.take_append_drop, List.map_cons, List.flatten_cons]

theorem Connected.delivers_iff {input : List UInt8} (connected : Connected input s) :
    Delivers takes s reads data ↔ input ++ (reads.map Prod.fst).flatten = data := by
  obtain ⟨t, hrun, events, received⟩ := run_connected takes reads connected.stage connected.freed
  rw [connected.app, List.nil_append, connected.input] at received
  rw [connected.app] at events
  constructor
  · rintro ⟨u, hu, -, hdata⟩
    obtain rfl := Option.some.inj (hrun.symm.trans hu)
    exact received.symm.trans hdata
  · intro hdata
    refine ⟨t, hrun, ?_, received.trans hdata⟩
    rw [events]
    decide

/-! ### The split of the stream -/

/-- The reply ends where the read it came in ends, for an `int` that holds the length of the read. -/
theorem request_delivers_iff (awaits : Awaits socks5StageRequest s) {second : List UInt8 × Env}
    (stream : second.1 ++ (reads.map Prod.fst).flatten = reply.bytes ++ data) :
    Delivers takes s (second :: reads) data ↔ second.1.length % 2 ^ 32 = reply.bytes.length := by
  have short := reply.length_bytes
  rw [← min_toSize_toInt_eq (by omega), ← drop_append_eq_iff stream]
  obtain ⟨t, ht, failed | connected⟩ := step_request takes second.2 second.1 awaits
  · rw [delivers_cons ht]
    refine iff_of_false failed.not_delivers fun hdata => ?_
    have hlength := (min_toSize_toInt_eq (by omega)).mp ((drop_append_eq_iff stream _).mp hdata)
    have hle : reply.bytes.length ≤ second.1.length := hlength ▸ Nat.mod_le _ _
    have whole : reply.bytes <+: second.1 :=
      List.prefix_of_prefix_length_le ⟨data, rfl⟩ ⟨_, stream⟩ hle
    obtain ⟨u, hu, connected⟩ := step_reply takes second.2 awaits whole
    obtain rfl := Option.some.inj (ht.symm.trans hu)
    exact absurd connected.freed (by simp [failed.freed])
  · rw [delivers_cons ht]
    exact connected.delivers_iff

/-- A method reply in reads, none of them empty: it comes whole, or byte by byte. -/
theorem methodReply_cases {pre : List (List UInt8 × Env)} (h : (pre.map Prod.fst).flatten = methodReply)
    (nonempty : ∀ r ∈ pre, r.1 ≠ []) : (∃ first, pre = [first] ∧ first.1 = methodReply) ∨
      ∃ first second, pre = [first, second] ∧ first.1 = [socks5Version] ∧ second.1 = [socks5MethodNone] := by
  have hparts : ∀ part ∈ pre.map Prod.fst, part ≠ [] := by
    intro part hpart
    obtain ⟨r, hr, rfl⟩ := List.mem_map.mp hpart
    exact nonempty r hr
  rcases parts_pair h hparts with hpre | hpre
  · obtain ⟨first, rfl, hfirst⟩ := List.map_eq_singleton_iff.mp hpre
    exact Or.inl ⟨first, rfl, hfirst⟩
  · obtain ⟨first, rest, rfl, hfirst, hrest⟩ := List.map_eq_cons_iff.mp hpre
    obtain ⟨second, rfl, hsecond⟩ := List.map_eq_singleton_iff.mp hrest
    exact Or.inr ⟨first, second, rfl, hfirst, hsecond⟩

/-- A method reply and then a reply to CONNECT, not joined by a read: the application gets exactly what follows
    them if and only if the first read is the method reply and the `int` for the length of the second is that of
    the reply. -/
theorem tunnels_iff (sends : env.Sends) {pre post : List (List UInt8 × Env)}
    (hpre : (pre.map Prod.fst).flatten = methodReply) (hpost : (post.map Prod.fst).flatten = reply.bytes ++ data)
    (reads : ∀ r ∈ pre ++ post, r.1 ≠ [] ∧ r.2.Sends) :
    Tunnels takes ctx env (pre ++ post) data ↔ ∃ first second rest, pre ++ post = first :: second :: rest ∧
      first.1 = methodReply ∧ second.1.length % 2 ^ 32 = reply.bytes.length := by
  obtain ⟨s, hs, awaits⟩ := awaits_ident takes ctx sends
  have tunnels : Tunnels takes ctx env (pre ++ post) data ↔ Delivers takes s (pre ++ post) data := by
    simp only [Tunnels, hs, Option.mem_def, Option.some.injEq, exists_eq_left']
  rw [tunnels]
  rcases methodReply_cases hpre fun r hr => (reads r (List.mem_append_left post hr)).1 with
    ⟨first, rfl, hfirst⟩ | ⟨first, second, rfl, hfirst, hsecond⟩
  · obtain ⟨t, ht, awaits⟩ := step_methodReply takes awaits (reads first List.mem_cons_self).2
    rw [← hfirst] at ht
    rw [List.singleton_append, delivers_cons ht]
    match post, hpost with
    | second :: rest, hpost =>
      rw [request_delivers_iff awaits hpost]
      constructor
      · exact fun h => ⟨first, second, rest, rfl, hfirst, h⟩
      · rintro ⟨_, _, _, heq, -, h⟩
        obtain ⟨-, rfl, -⟩ : _ ∧ _ ∧ _ := by simpa using heq
        exact h
  · refine iff_of_false ?_ ?_
    · have hshort : first.1.length < 2 ^ 31 := by
        rw [hfirst]
        decide
      obtain ⟨t, ht, failed | awaits⟩ := step_ident takes first.2 awaits hshort
      · rw [List.cons_append, delivers_cons ht]
        exact failed.not_delivers
      · obtain ⟨u, hu, failed⟩ := step_request_fails takes second.2 [] awaits
          (b := socks5MethodNone) (by decide)
        rw [← hsecond] at hu
        rw [List.cons_append, delivers_cons ht, List.cons_append, delivers_cons hu]
        exact failed.not_delivers
    · rintro ⟨_, _, _, heq, h, -⟩
      obtain ⟨rfl, -⟩ := List.cons.inj heq
      rw [hfirst] at h
      exact absurd h (by decide)

/-- Bound to 0.0.0.0, port 80. -/
def sampleReply : Reply := ⟨.ipv4 (Vector.replicate 4 0), ⟨#[0, 80], rfl⟩⟩

theorem sampleEnv_sends : sampleEnv.Sends := ⟨rfl, rfl⟩

theorem tunnels_iff_sample : Tunnels List.length sampleCtx sampleEnv
    ([(methodReply, sampleEnv)] ++ [(sampleReply.bytes, sampleEnv), ([0x41], sampleEnv)]) [0x41] := by
  refine (tunnels_iff sampleEnv_sends rfl (show _ = sampleReply.bytes ++ [0x41] from rfl) ?_).mpr
    ⟨_, _, _, rfl, rfl, rfl⟩
  simp [methodReply, Reply.bytes, sampleEnv_sends]

/-- A byte that comes in the read of the reply is lost. -/
theorem coalesced_not_tunnels : (∃ t ∈ run (step (recorder List.length)) (start sampleCtx ⟨[], []⟩)
      [.event bevEventConnected sampleEnv, .read methodReply sampleEnv, .read (sampleReply.bytes ++ [0x41]) sampleEnv],
      t.app.events = [bevEventConnected] ∧ t.app.received = [] ∧ t.input = []) ∧
    ¬Tunnels List.length sampleCtx sampleEnv
      ([(methodReply, sampleEnv)] ++ [(sampleReply.bytes ++ [0x41], sampleEnv)]) [0x41] := by
  refine ⟨⟨_, rfl, rfl, rfl, rfl⟩, ?_⟩
  rintro ⟨s, hs, t, ht, -, hdata⟩
  obtain rfl := Option.some.inj hs
  obtain rfl := Option.some.inj ht
  exact absurd hdata (by decide)

end Vcmp.Socks5
