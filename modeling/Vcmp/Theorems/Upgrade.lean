import Vcmp.Lib.Parts
import Vcmp.Theorems.CallOrder
import Vcmp.Theorems.Handshake
import Vcmp.Theorems.Output

/-! The upgrade of a connection against the reads that bring the request: what is consumed, what is answered, and
    which reads do it right. -/

namespace Vcmp.Websockets
open ByteMem CInt CString Lts Parts

/-! ### What the parser finds in the first extent -/

def secWebsocketKey : List UInt8 := "Sec-WebSocket-Key".toUTF8.toList

theorem secWebsocketKey_ne_nil : secWebsocketKey ≠ [] := by decide +kernel

theorem secWebsocketKey_clean : ∀ b ∈ secWebsocketKey, b ≠ ':'.toUInt8 ∧ b ≠ '\r'.toUInt8 ∧ b ≠ '\n'.toUInt8 ∧ b ≠ 0 := by
  decide +kernel

/-- Outside of these bounds the parser reads behind the extent, or copies past `entry->key` or `entry->value` (an
    empty value by a negative length), and what it does is undefined. -/
structure Defined (request : Request) (env : PassEnv) : Prop where
  extent : request.bytes.length ≤ env.extent
  names : ∀ f ∈ request.fields, f.name.length ≤ 256
  values : ∀ f ∈ request.fields, f.value ≠ [] ∧ f.value.length ≤ 257

/-- The blocks of all fields are allocated, and in one of them the name reads `Sec-WebSocket-Key` up to the first
    zero behind it. -/
structure Keyed (request : Request) (malloc : Nat → Option Mem) : Prop where
  stores : ∀ l ∈ request.lines, (malloc l.2).isSome = true
  key : ∃ l ∈ request.lines, ∃ block ∈ malloc l.2, l.1.name ++ cstr block l.1.name.length addressSpace = secWebsocketKey

variable {request : Request} {env : PassEnv} {s : Conn}

theorem slice_peek {n : Nat} (hinput : n ≤ s.input.length) (hextent : n ≤ env.extent) :
    slice (s.peek env) 0 n = s.input.take n := by
  rw [Conn.peek, slice_ofBytes (by rw [List.length_take]; omega), List.drop_zero, List.take_take, Nat.min_eq_left hextent]

/-- Where the length of the buffer reads as that of the request in front of it, the fields of the request are
    found. -/
theorem requestHead_eq (whole : request.bytes <+: s.input) (short : request.bytes.length < 2 ^ 31)
    (hlen : s.input.length % 2 ^ 32 = request.bytes.length) (defined : Defined request env) :
    requestHead s env = storeLines env.malloc [] request.lines := by
  have hslice : slice (s.peek env) 0 request.bytes.length = request.bytes := by
    rw [slice_peek whole.length_le defined.extent]
    exact (List.prefix_iff_eq_take.mp whole).symm
  have hint : toInt s.input.length = request.bytes.length := by
    rw [toInt, hlen, if_pos short]
  rw [requestHead, hint]
  refine run_wsParseHandshake hslice (fun f hf => ?_) fun f hf => (defined.values f hf).1
  have hle := length_line_le hf
  have hbytes := request.length_bytes
  omega

theorem isSome_websocketKey? (whole : request.bytes <+: s.input) (short : request.bytes.length < 2 ^ 31)
    (hlen : s.input.length % 2 ^ 32 = request.bytes.length) (defined : Defined request env) :
    (websocketKey? s env).isSome = true ↔ Keyed request env.malloc := by
  rw [websocketKey?, requestHead_eq whole short hlen defined, wsHeaderGet, List.find?_isSome]
  have hkey : ∀ l ∈ request.lines, ∀ block, (l.1.stored block).key = secWebsocketKey ↔
      l.1.name ++ cstr block l.1.name.length addressSpace = secWebsocketKey := fun l hl block =>
    stored_key_iff (defined.names _ (mem_linesFrom hl)) (by decide +kernel) (by decide +kernel)
  by_cases stores : ∀ l ∈ request.lines, (env.malloc l.2).isSome = true
  · simp only [mem_storeLines stores, List.not_mem_nil, false_or, beq_iff_eq]
    constructor
    · rintro ⟨_, ⟨l, hl, block, hblock, rfl⟩, heq⟩
      exact ⟨stores, l, hl, block, hblock, (hkey l hl block).mp heq⟩
    · rintro ⟨-, l, hl, block, hblock, heq⟩
      exact ⟨_, ⟨l, hl, block, hblock, rfl⟩, (hkey l hl block).mpr heq⟩
  · obtain ⟨l, hl, hnone⟩ : ∃ l ∈ request.lines, env.malloc l.2 = none := by simpa using stores
    rw [storeLines_none hl hnone]
    exact iff_of_false (by simp) fun keyed => stores keyed.stores

/-- A table that holds anything was parsed from a positive length. -/
theorem toInt_pos_of_websocketKey? (h : (websocketKey? s env).isSome = true) : 0 < toInt s.input.length := by
  by_contra hle
  have hnat : (toInt s.input.length).toNat = 0 := Int.toNat_eq_zero.mpr (Int.not_lt.mp hle)
  rw [websocketKey?, requestHead, wsParseHandshake, hnat] at h
  cases h

/-! ### What happens once -/

namespace Session

def isUpgrade (message : List UInt8) : Bool := "HTTP/1.1 101".toUTF8.toList.isPrefixOf message

theorem isUpgrade_upgradeResponse (accept : List UInt8) : isUpgrade (upgradeResponse accept) = true := by
  rw [isUpgrade, List.isPrefixOf_iff_prefix, upgradeResponse, List.append_assoc]
  refine List.IsPrefix.trans ?_ (List.prefix_append _ _)
  decide +kernel

theorem not_isUpgrade_madeHeader (n : Nat) : isUpgrade (madeHeader true wsOpcodeClose n) = false := by
  have hhead : "HTTP/1.1 101".toUTF8.toList = 0x48 :: "HTTP/1.1 101".toUTF8.toList.tail := by decide +kernel
  rw [isUpgrade, hhead, madeHeader]
  rfl

/-- The handshake is done, and the response and the call that it ends with are there once. -/
structure Once (w : Session (List Traced)) : Prop where
  done : w.conn.client.handshakeDone = true
  accept : w.user.count .accept = 1
  response : w.conn.written.countP isUpgrade = 1

/-- Bytes arrive, or a pass that was triggered runs. -/
def Event.Arrives : Event → Prop
  | .read _ _ => True
  | .trigger _ => True
  | _ => False

variable {ssl : Digest} {bev : Nat} {p : Ptr} {w t : Session (List Traced)} {e : Event}

theorem Once.call {c : Traced} {conn : Conn} {pending : Bool} (once : Once w) (done : conn.client.handshakeDone = true)
    (other : c ≠ .accept) (written : conn.written.countP isUpgrade = 1) : Once ⟨conn, w.user ++ [c], pending⟩ := by
  refine ⟨done, ?_, written⟩
  rw [List.count_append, once.accept, List.count_singleton, if_neg (by simpa using other)]

theorem once_step (once : Once w) (arrives : e.Arrives) (h : step ssl (tracer p) bev w e = some t) : Once t := by
  have done := done_step once.done h
  have before {env : PassEnv} {s : Conn} (pass : w.pass? e = some (env, s)) : s.client.handshakeDone = true := by
    rw [(pass_conn pass).1, once.done]
  cases (step_cases h).2 with
  | refused pass young => exact absurd (young.symm.trans (before pass)) Bool.false_ne_true
  | upgraded pass young => exact absurd (young.symm.trans (before pass)) Bool.false_ne_true
  | malformed pass => exact ⟨done, once.accept, (pass_conn pass).2.1 ▸ once.response⟩
  | unanswered pass =>
    exact once.call done Traced.noConfusion ((pass_conn pass).2.1 ▸ once.response)
  | @answered _ env s pass =>
    refine once.call done Traced.noConfusion ?_
    rw [closed, (pass_conn pass).2.1, List.countP_append, once.response, List.countP_singleton, not_isUpgrade_madeHeader]
    rfl
  | data pass => exact once.call done Traced.noConfusion ((pass_conn pass).2.1 ▸ once.response)
  | ended => exact arrives.elim
  | ignored => exact arrives.elim
  | drained => exact arrives.elim
  | sent => exact arrives.elim

theorem once_run {es : List Event} (once : Once w) (arrives : ∀ e ∈ es, e.Arrives)
    (h : run (step ssl (tracer p) bev) w es = some t) : Once t := by
  have hall : EachState (step ssl (tracer p) bev) Once w es :=
    eachState_of_eachStep once (fun _ _ _ hw hs he => once_step hw he hs) (eachStep_of_forall fun _ e _ he _ => arrives e he)
  exact hall.last h

/-! ### The reads of a request -/

/-- Nothing was answered, called or decided, and the connection is open. -/
structure Untouched (w : Session (List Traced)) : Prop where
  live : w.conn.Live
  young : w.conn.client.handshakeDone = false
  calls : w.user = []
  written : w.conn.written = []

/-- The connection was upgraded and holds `rest` for the frame parser; whatever arrives, the upgrade is not
    repeated. -/
structure Opened (ssl : Digest) (p : Ptr) (bev : Nat) (t : Session (List Traced)) (rest : List UInt8) : Prop where
  live : t.conn.Live
  input : t.conn.input = rest
  later : ∀ es u, (∀ e ∈ es, Event.Arrives e) → run (step ssl (tracer p) bev) t es = some u → Once u

/-- Reads that bring the missing bytes of a request: each that leaves some missing leaves the connection untouched,
    and the one that completes the request opens it. -/
def Consumes (ssl : Digest) (p : Ptr) (bev : Nat) (request : Request) (missing : Nat) (w : Session (List Traced)) :
    List (List UInt8 × PassEnv) → Prop
  | [] => False
  | r :: reads => ∃ t, step ssl (tracer p) bev w (.read r.1 r.2) = some t ∧
      if r.1.length < missing then Untouched t ∧ Consumes ssl p bev request (missing - r.1.length) t reads
      else Defined request r.2 ∧ Opened ssl p bev t (r.1.drop missing)

/-- A read whose length, as an `int`, is that of the request it brings, where the parser finds the key and the reply
    is sent. -/
structure Completes (request : Request) (r : List UInt8 × PassEnv) : Prop where
  length : r.1.length % 2 ^ 32 = request.bytes.length
  short : request.bytes.length < 2 ^ 31
  defined : Defined request r.2
  keyed : Keyed request r.2.malloc
  concat : r.2.mallocConcat = true
  write : r.2.write = true

variable {reads : List (List UInt8 × PassEnv)} {r : List UInt8 × PassEnv} {rest : List UInt8}

theorem step_young {σ : Type} {ctx : WsCtx σ} {w : Session σ} {bytes : List UInt8} (live : w.conn.Live)
    (idle : w.pending = false) (young : w.conn.client.handshakeDone = false) :
    step ssl ctx bev w (.read bytes env) =
      let h := readHandshake ssl ctx env bev { w.conn with input := w.conn.input ++ bytes } w.user
      some ⟨h.1, h.2, false⟩ := by
  rw [step.eq_def, if_pos live]
  simp [pass?, idle, runPass, readPass, young]

theorem upgrades_of_completes (completes : Completes request r) (whole : request.bytes <+: s.input) (hs : s.input = r.1) :
    Upgrades s r.2 := by
  have length := completes.length
  rw [← hs] at length
  exact ⟨(isSome_websocketKey? whole completes.short length completes.defined).mpr completes.keyed, completes.concat,
    completes.write⟩

theorem completes_of_upgrades (upgrades : Upgrades s r.2) (whole : request.bytes <+: s.input) (hs : s.input = r.1)
    (defined : Defined request r.2) (drained : s.input.drop (toSize (toInt s.input.length)) = r.1.drop request.bytes.length) :
    Completes request r := by
  obtain ⟨hsize, hshort⟩ := toSize_toInt_of_pos (toInt_pos_of_websocketKey? upgrades.key)
  have hle := whole.length_le
  have hmod := Nat.mod_le s.input.length (2 ^ 32)
  have length : s.input.length % 2 ^ 32 = request.bytes.length := by
    have hlength := congrArg List.length drained
    rw [hsize, ← hs, List.length_drop, List.length_drop] at hlength
    omega
  rw [length] at hshort
  exact ⟨hs ▸ length, hshort, defined, (isSome_websocketKey? whole hshort length defined).mp upgrades.key, upgrades.malloc,
    upgrades.write⟩

/-- The reads of a request upgrade the connection as they should exactly if the first of them completes the
    request. -/
theorem consumes_iff {bufferevent client : Bool} (accept : acceptConnCb bufferevent client = some s)
    (split : (reads.map Prod.fst).flatten = request.bytes ++ rest) :
    Consumes ssl p bev request request.bytes.length ⟨s, [], false⟩ reads ↔
      ∃ first later, reads = first :: later ∧ Completes request first := by
  obtain rfl := acceptConnCb_cases accept
  cases reads with
  | nil => exact iff_of_false id not_exists_cons
  | cons r reads =>
    rw [exists_cons_iff, Consumes, step_young (w := ⟨_, [], false⟩) (fun h => List.not_mem_nil h) rfl rfl]
    simp only [List.nil_append, Option.some.injEq, exists_eq_left']
    generalize hs : (⟨⟨false, false, .null⟩, r.1, [], false, []⟩ : Conn) = s
    have hinput : s.input = r.1 := hs ▸ rfl
    by_cases upgrades : Upgrades s r.2
    · obtain ⟨entry, key⟩ := Option.isSome_iff_exists.mp upgrades.key
      rw [readHandshake_upgrades key upgrades]
      split
      next hless =>
        refine iff_of_false (fun h => absurd h.1.young (by simp [upgraded, WsCtx.callAccept, tracer])) fun completes => ?_
        have hmod := Nat.mod_le r.1.length (2 ^ 32)
        rw [completes.length] at hmod
        omega
      next hle =>
        have whole : request.bytes <+: s.input := by
          rw [hinput]
          exact List.prefix_of_prefix_length_le ⟨rest, rfl⟩ ⟨_, split⟩ (Nat.le_of_not_lt hle)
        constructor
        · rintro ⟨defined, opened⟩
          exact completes_of_upgrades upgrades whole hinput defined opened.input
        · intro completes
          have hsize : toSize (toInt s.input.length) = request.bytes.length := by
            rw [hinput]
            exact (toSize_toInt_eq_iff (Nat.lt_trans completes.short (by decide))).mpr ⟨completes.length, completes.short⟩
          have hwritten : s.written = [] := hs ▸ rfl
          refine ⟨completes.defined, hs ▸ List.not_mem_nil, ?_, fun es u arrives => once_run ⟨rfl, rfl, ?_⟩ arrives⟩
          · show s.input.drop (toSize (toInt s.input.length)) = r.1.drop request.bytes.length
            rw [hsize, hinput]
          · simp only [upgraded, hwritten, List.nil_append, List.countP_singleton, isUpgrade_upgradeResponse, if_true]
    · obtain ⟨input, hfails⟩ := readHandshake_fails ssl (tracer p) bev [] upgrades
      rw [hfails]
      refine iff_of_false (fun h => ?_) fun completes => ?_
      · split at h
        · exact not_live_free _ h.1.live
        · exact not_live_free _ h.2.live
      · have hle : request.bytes.length ≤ r.1.length := completes.length ▸ Nat.mod_le _ _
        have whole : request.bytes <+: s.input := by
          rw [hinput]
          exact List.prefix_of_prefix_length_le ⟨rest, rfl⟩ ⟨_, split⟩ hle
        exact upgrades (upgrades_of_completes completes whole hinput)

/-! ### A small request -/

def sampleRequest : Request where
  startLine := "GET / HTTP/1.1".toUTF8.toList
  fields := [⟨secWebsocketKey, " k".toUTF8.toList, secWebsocketKey_ne_nil, secWebsocketKey_clean, by decide +kernel⟩]
  startClean := by decide +kernel

def emptyFrame : List UInt8 := [0x81, 0x80, 0, 0, 0, 0]

theorem sampleRequest_completes : Completes sampleRequest (sampleRequest.bytes, samplePass) where
  length := by decide +kernel
  short := by decide +kernel
  defined := ⟨by decide +kernel, by decide +kernel, by decide +kernel⟩
  keyed := by
    refine ⟨fun _ _ => rfl, _, List.mem_cons_self, fun _ => 0, rfl, ?_⟩
    decide +kernel
  concat := rfl
  write := rfl

theorem consumes_iff_sample : Consumes sampleDigest (.user 7) 0 sampleRequest sampleRequest.bytes.length
    ⟨accepted, [], false⟩ [(sampleRequest.bytes, samplePass), (emptyFrame, samplePass)] := by
  have split : ([(sampleRequest.bytes, samplePass), (emptyFrame, samplePass)].map Prod.fst).flatten =
      sampleRequest.bytes ++ emptyFrame := congrArg (sampleRequest.bytes ++ ·) (List.append_nil emptyFrame)
  exact (consumes_iff (show acceptConnCb true true = some accepted from rfl) split).mpr
    ⟨_, _, rfl, sampleRequest_completes⟩

/-- A frame that comes in the read of the request is dropped with it, and a request that comes in two reads closes
    the connection. -/
theorem not_consumes :
    (step sampleDigest (tracer (.user 7)) 0 ⟨accepted, [], false⟩ (.read (sampleRequest.bytes ++ emptyFrame) samplePass)).map
      (fun t => (t.conn.client.handshakeDone, t.conn.input)) = some (true, []) ∧
    ¬Consumes sampleDigest (.user 7) 0 sampleRequest sampleRequest.bytes.length ⟨accepted, [], false⟩
      [(sampleRequest.bytes ++ emptyFrame, samplePass)] ∧
    (step sampleDigest (tracer (.user 7)) 0 ⟨accepted, [], false⟩ (.read (sampleRequest.bytes.take 10) samplePass)).map
      (fun t => t.conn.freed) = some [.bufferevent] ∧
    ¬Consumes sampleDigest (.user 7) 0 sampleRequest sampleRequest.bytes.length ⟨accepted, [], false⟩
      [(sampleRequest.bytes.take 10, samplePass), (sampleRequest.bytes.drop 10, samplePass)] := by
  have hdropped : (step sampleDigest (tracer (.user 7)) 0 ⟨accepted, [], false⟩
      (.read (sampleRequest.bytes ++ emptyFrame) samplePass)).map
      (fun t => (t.conn.client.handshakeDone, t.conn.input)) = some (true, []) := by decide +kernel
  have hclosed : (step sampleDigest (tracer (.user 7)) 0 ⟨accepted, [], false⟩
      (.read (sampleRequest.bytes.take 10) samplePass)).map (fun t => t.conn.freed) = some [.bufferevent] := by
    decide +kernel
  refine ⟨hdropped, ?_, hclosed, ?_⟩
  · rintro ⟨t, ht, h⟩
    rw [ht, Option.map_some] at hdropped
    rw [if_neg (by decide +kernel)] at h
    have hinput := h.2.input
    rw [(Prod.mk.inj (Option.some.inj hdropped)).2] at hinput
    exact absurd hinput (by decide +kernel)
  · rintro ⟨t, ht, h⟩
    rw [ht, Option.map_some] at hclosed
    rw [if_pos (by decide +kernel)] at h
    exact h.1.live (Option.some.inj hclosed ▸ List.mem_cons_self)

end Session
end Vcmp.Websockets
