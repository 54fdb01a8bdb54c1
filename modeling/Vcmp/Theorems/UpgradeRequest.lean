import Vcmp.Theorems.HeaderLookup
import Vcmp.Theorems.Upgrade

/-! The upgrade of a connection end to end: what a request that comes in one read is answered with. -/

namespace Vcmp.Websockets
open ByteMem CInt CString Rfc6455

variable {plain : PlainRequest} {env : PassEnv} {s : Conn} {h : Header} {key : List UInt8}

/-- What libevent, the allocator and the write are assumed to do: a read brings no more bytes than an `int` counts and
    puts them into one extent, blocks are there and zeroed, and the reply goes out. -/
structure Granted (bytes : List UInt8) (env : PassEnv) : Prop where
  short : bytes.length < 2 ^ 31
  extent : bytes.length ≤ env.extent
  zeroed : env.malloc = fun _ => some fun _ => 0
  concat : env.mallocConcat = true
  write : env.write = true

theorem PlainRequest.defined (plain : PlainRequest) (extent : plain.request.bytes.length ≤ env.extent) :
    Defined plain.request env := by
  refine ⟨extent, fun f hf => ?_, fun f hf => ?_⟩ <;> obtain ⟨h, -, rfl⟩ := List.mem_map.mp hf
  · exact Nat.le_succ_of_le h.short.1
  · exact ⟨h.short.2.1, Nat.le_succ_of_le h.short.2.2⟩

theorem PlainRequest.valueOf_mem (distinct : (plain.headers.map Header.name).Nodup) (hmem : h ∈ plain.headers) :
    plain.valueOf h.name = some h.value := by
  have hfound : (plain.headers.reverse.find? fun g => g.name == h.name).isSome = true :=
    List.find?_isSome.mpr ⟨h, List.mem_reverse.mpr hmem, beq_self_eq_true h.name⟩
  obtain ⟨g, hg⟩ := Option.isSome_iff_exists.mp hfound
  have hname : g.name = h.name := by simpa using List.find?_some hg
  have hgmem : g ∈ plain.headers := List.mem_reverse.mp (List.mem_of_find?_eq_some hg)
  rw [valueOf, hg, List.inj_on_of_nodup_map distinct hgmem hmem hname]
  rfl

theorem PlainRequest.valueOf_none (missing : ∀ h ∈ plain.headers, h.name ≠ key) : plain.valueOf key = none := by
  rw [valueOf, Option.map_eq_none_iff, List.find?_eq_none]
  exact fun h hmem => by simpa using missing h (List.mem_reverse.mp hmem)

/-- The handshake finds the value that the request has for the key. -/
theorem websocketKey?_plain (granted : Granted plain.request.bytes env) (hinput : s.input = plain.request.bytes) :
    (websocketKey? s env).map HeaderEntry.value = plain.valueOf secWebsocketKey := by
  have whole : plain.request.bytes <+: s.input := hinput ▸ List.prefix_refl _
  have hlen : s.input.length % 2 ^ 32 = plain.request.bytes.length := by
    rw [hinput]
    exact Nat.mod_eq_of_lt (Nat.lt_trans granted.short (by decide))
  have hhead := requestHead_eq whole granted.short hlen (plain.defined granted.extent)
  have hzero : ∀ l ∈ plain.request.lines, stringsOf (l.1.stored ((fun _ _ => 0 : Nat → Mem) l.2)) = l.1.strings := by
    intro l hl
    obtain ⟨g, -, hg⟩ := List.mem_map.mp (mem_linesFrom hl)
    exact (strings_stored_iff (hg ▸ g.short)).mpr ⟨rfl, rfl⟩
  rw [websocketKey?, hhead, granted.zeroed, storeLines_some_all (fun _ _ => 0), List.append_nil, ← plain.valueOf_eq]
  exact lookup_eq hzero secWebsocketKey

namespace Session

variable {σ : Type} {ssl : Digest} {ctx : WsCtx σ} {bev : Nat} {u : σ}

/-- One response, with the digest of the key, and one call of `accept_cb` where there is one, with the handshake done. -/
structure Accepts (ssl : Digest) (ctx : WsCtx σ) (bev : Nat) (u : σ) (key : List UInt8) (t : Session σ) : Prop where
  written : t.conn.written = [switchingProtocols (ssl.encodeBlock (ssl.sha1 (key ++ guid)))]
  called : ∀ acceptCb, ctx.acceptCb = some acceptCb → (t.conn.client, t.user) = acceptCb bev ⟨true, false, .null⟩ u
  uncalled : ctx.acceptCb = none → t.conn.client = ⟨true, false, .null⟩ ∧ t.user = u
  live : t.conn.Live

/-- The response of the code is the one of the protocol. -/
theorem upgradeResponse_eq (accept : List UInt8) : upgradeResponse accept = switchingProtocols accept := by
  have hhead : "HTTP/1.1 101 Switching Protocols\r\nUpgrade: websocket\r\nConnection: Upgrade\r\nSec-WebSocket-Accept: ".toUTF8.toList =
      "HTTP/1.1 101 Switching Protocols\r\n".toUTF8.toList ++ fieldLine "Upgrade" "websocket".toUTF8.toList ++
        fieldLine "Connection" "Upgrade".toUTF8.toList ++ ("Sec-WebSocket-Accept".toUTF8.toList ++ ": ".toUTF8.toList) := by
    decide +kernel
  have htail : "\r\n\r\n".toUTF8.toList = "\r\n".toUTF8.toList ++ "\r\n".toUTF8.toList := by decide +kernel
  rw [upgradeResponse, switchingProtocols, fieldLine.eq_def "Sec-WebSocket-Accept", hhead, htail]
  simp only [List.append_assoc]

theorem accepts_upgraded {s : Conn} {entry : HeaderEntry} (client : s.client = ⟨false, false, .null⟩)
    (written : s.written = []) (freed : s.freed = []) :
    let accepted := ctx.callAccept bev { s.client with handshakeDone := true } u
    Accepts ssl ctx bev u entry.value ⟨upgraded ssl s entry accepted.1, accepted.2, false⟩ := by
  refine ⟨?_, fun acceptCb hcb => ?_, fun hcb => ?_, fun hmem => ?_⟩
  · show s.written ++ _ = _
    rw [written, List.nil_append, upgradeResponse_eq]
    rfl
  · simp only [client, WsCtx.callAccept, hcb, upgraded, Prod.mk.eta]
  · simp only [client, WsCtx.callAccept, hcb, upgraded, and_self]
  · rw [show (upgraded ssl s entry _).freed = s.freed from rfl, freed] at hmem
    exact List.not_mem_nil hmem

/-- Nothing is written, nothing is called, and the bufferevent is freed. -/
structure Refuses (u : σ) (t : Session σ) : Prop where
  written : t.conn.written = []
  user : t.user = u
  freed : t.conn.freed = [.bufferevent]

/-- A request with the key is accepted with its digest, one without it is refused. -/
theorem request_answered {bufferevent client : Bool} (accept : acceptConnCb bufferevent client = some s)
    (distinct : (plain.headers.map Header.name).Nodup) (granted : Granted plain.request.bytes env) :
    ∃ t, step ssl ctx bev ⟨s, u, false⟩ (.read plain.request.bytes env) = some t ∧
      (∀ h ∈ plain.headers, h.name = secWebsocketKey → Accepts ssl ctx bev u h.value t) ∧
      ((∀ h ∈ plain.headers, h.name ≠ secWebsocketKey) → Refuses u t) := by
  obtain rfl := acceptConnCb_cases accept
  have hkey := websocketKey?_plain (s := ⟨⟨false, false, .null⟩, plain.request.bytes, [], false, []⟩) granted rfl
  refine ⟨_, step_young (fun h => List.not_mem_nil h) rfl rfl, fun h hmem hname => ?_, fun missing => ?_⟩
  · rw [← hname, plain.valueOf_mem distinct hmem, Option.map_eq_some_iff] at hkey
    obtain ⟨entry, hentry, hvalue⟩ := hkey
    have upgrades : Upgrades _ env := ⟨Option.isSome_of_eq_some hentry, granted.concat, granted.write⟩
    rw [List.nil_append, readHandshake_upgrades hentry upgrades]
    exact hvalue ▸ accepts_upgraded rfl rfl rfl
  · rw [plain.valueOf_none missing, Option.map_eq_none_iff] at hkey
    have refused : ¬Upgrades ⟨⟨false, false, .null⟩, plain.request.bytes, [], false, []⟩ env := by
      intro upgrades
      simpa [hkey] using upgrades.key
    obtain ⟨input, hfails⟩ := readHandshake_fails ssl ctx bev u refused
    rw [List.nil_append, hfails]
    exact ⟨rfl, rfl, rfl⟩

def sampleUpgrade : PlainRequest where
  startLine := "GET / HTTP/1.1".toUTF8.toList
  headers := [⟨secWebsocketKey, "k".toUTF8.toList, secWebsocketKey_ne_nil, by decide +kernel, secWebsocketKey_clean,
    by decide +kernel, by decide +kernel⟩]
  startClean := sampleRequest.startClean

theorem request_answered_sample :
    ∃ t, step sampleDigest (tracer (.user 7)) 0 ⟨accepted, [], false⟩ (.read sampleUpgrade.request.bytes samplePass) = some t ∧
      Accepts sampleDigest (tracer (.user 7)) 0 [] "k".toUTF8.toList t := by
  have distinct : (sampleUpgrade.headers.map Header.name).Nodup := List.nodup_singleton _
  have granted : Granted sampleUpgrade.request.bytes samplePass := ⟨by decide +kernel, by decide +kernel, rfl, rfl, rfl⟩
  obtain ⟨t, ht, accepts, -⟩ := request_answered (show acceptConnCb true true = some accepted from rfl) distinct granted
  exact ⟨t, ht, accepts _ List.mem_cons_self rfl⟩

end Session
end Vcmp.Websockets
