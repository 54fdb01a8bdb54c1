import Vcmp.Lib.Views
import Vcmp.Proxy
import Vcmp.Theorems.ConnectRequest
import Vcmp.Theorems.Leftover
import Vcmp.Theorems.SuccessReport

/-! A SOCKS5 client and its proxy agree: when the application is told that it is connected, the proxy has connected it to the
    destination of the context. -/

/-! ### What the proxy takes -/

namespace Vcmp.Rfc1928
open ByteOrder

variable {dest : Destination} {port : UInt16} {l more rest : List UInt8}

theorem take_append {n : Nat} (h : n ≤ l.length) : (l ++ more).take n = l.take n := List.take_append_of_le_length h

/-- What is behind an address is left where it is. -/
theorem decodeAddress_append {d : Destination} (h : decodeAddress l = some (d, rest)) :
    decodeAddress (l ++ more) = some (d, rest ++ more) := by
  unfold decodeAddress at h
  split at h
  · obtain ⟨rfl, rfl⟩ := Prod.mk.inj (Option.some.inj h)
    rfl
  next n tail =>
    split at h
    next hname =>
      obtain ⟨rfl, rfl⟩ := Prod.mk.inj (Option.some.inj h)
      have hlong : n.toNat ≤ (tail ++ more).length ∧ 0 ∉ (tail ++ more).take n.toNat := by
        rw [take_append hname.1, List.length_append]
        exact ⟨hname.1.trans (Nat.le_add_right _ _), hname.2⟩
      simp only [List.cons_append, decodeAddress]
      rw [dif_pos hlong]
      simp only [take_append hname.1, List.drop_append_of_le_length hname.1]
    · cases h
  · cases h

theorem takeRequest_append {r : Destination × UInt16} (h : takeRequest l = some (r, rest)) :
    takeRequest (l ++ more) = some (r, rest ++ more) := by
  unfold takeRequest at h
  split at h
  next tail =>
    obtain ⟨⟨d, tail'⟩, haddress, h⟩ := Option.bind_eq_some_iff.mp h
    dsimp only at h
    split at h
    next hport =>
      obtain ⟨rfl, rfl⟩ := Prod.mk.inj (Option.some.inj h)
      have hport : 2 ≤ tail'.length := hport
      simp only [List.cons_append, takeRequest, decodeAddress_append haddress]
      rw [Option.bind_eq_bind, Option.bind_some, List.length_append, if_pos (hport.trans (Nat.le_add_right _ _)), take_append hport,
        List.drop_append_of_le_length hport]
    · cases h
  · cases h

theorem takeRequest_connectRequest (h : dest.Representable) : takeRequest (connectRequest dest port) = some ((dest, port), []) := by
  have hlt := port.toNat_lt
  have hport : UInt16.ofNat (ofBE (toBE 2 port.toNat)) = port := by
    rw [ofBE_toBE, Nat.mod_eq_of_lt (by omega), UInt16.ofNat_toNat]
  have htwo : (toBE 2 port.toNat).length = 2 := length_toBE 2 _
  simp only [connectRequest, List.cons_append, List.nil_append, takeRequest, decodeAddress_bytes h]
  rw [Option.bind_eq_bind, Option.bind_some, if_pos htwo.ge, List.take_of_length_le htwo.le, List.drop_of_length_le htwo.le, hport]

/-- Of a request on its way nothing is taken before it is whole. -/
theorem taken_request (h : dest.Representable) (hl : l ++ more = connectRequest dest port) {r : Destination × UInt16}
    (htake : takeRequest l = some (r, rest)) : r = (dest, port) ∧ rest ++ more = [] := by
  have hwhole : takeRequest (l ++ more) = some (r, rest ++ more) := takeRequest_append htake
  rw [hl, takeRequest_connectRequest h] at hwhole
  obtain ⟨hr, hrest⟩ := Prod.mk.inj (Option.some.inj hwhole)
  exact ⟨hr.symm, hrest.symm⟩

/-- The greeting that offers no authentication and nothing else. -/
def hello : List UInt8 := [5, 1, 0]

theorem takeGreeting_append (h : takeGreeting l = some rest) : takeGreeting (l ++ more) = some (rest ++ more) := by
  unfold takeGreeting at h
  split at h
  next n tail =>
    split at h
    next hmethods =>
      obtain rfl := Option.some.inj h
      simp only [List.cons_append, takeGreeting]
      rw [take_append hmethods.1, List.length_append, if_pos ⟨hmethods.1.trans (Nat.le_add_right _ _), hmethods.2⟩,
        List.drop_append_of_le_length hmethods.1]
    · cases h
  · cases h

theorem taken_greeting (hl : l ++ more = hello) (htake : takeGreeting l = some rest) : rest ++ more = [] := by
  have hwhole : takeGreeting (l ++ more) = some (rest ++ more) := takeGreeting_append htake
  rw [hl] at hwhole
  exact (Option.some.inj hwhole).symm

/-! ### The proxy's side -/

/-- What the proxy has not taken yet, with what is on its way to it. -/
inductive Upward (dest : Destination) (port : UInt16) : ProxyStage → List UInt8 → Prop
  | idle : Upward dest port .greeting []
  | hello : Upward dest port .greeting hello
  | waiting : Upward dest port .request []
  | request : Upward dest port .request (connectRequest dest port)
  | connected (ahead : List UInt8) : Upward dest port (.connected dest port) ahead
  | refused (ahead : List UInt8) : Upward dest port .refused ahead

/-- What a move does, by the stage it is made in. -/
inductive Moved (dest : Destination) (port : UInt16) (proxy proxy' : Proxy) (up sent : List UInt8) : Prop
  | chose (stage : proxy.stage = .greeting) (ahead : proxy.inbox ++ up = hello) (stage' : proxy'.stage = .request)
      (ahead' : proxy'.inbox ++ up = []) (sent : sent = methodChosen)
  | accepted (stage : proxy.stage = .request) (ahead : proxy.inbox ++ up = connectRequest dest port)
      (stage' : proxy'.stage = .connected dest port) (sent : ∃ tail, sent = 5 :: 0 :: tail)
  | refused (stage : proxy.stage = .request) (ahead : proxy.inbox ++ up = connectRequest dest port)
      (stage' : proxy'.stage = .refused) (sent : ∃ rep tail, rep ≠ 0 ∧ sent = 5 :: rep :: tail)
  | relayed (stage : proxy.stage = .connected dest port) (same : proxy' = proxy)

theorem takeGreeting_nil {up : List UInt8} (h : l ++ up = []) : takeGreeting l = none := by
  rw [(List.append_eq_nil_iff.mp h).1]
  rfl

theorem takeRequest_nil {up : List UInt8} (h : l ++ up = []) : takeRequest l = none := by
  rw [(List.append_eq_nil_iff.mp h).1]
  rfl

/-- Whatever the proxy does, it does of what the client sends; it connects nowhere else. -/
theorem Upward.moved {proxy proxy' : Proxy} {up sent : List UInt8} {move : ProxyMove} (fits : dest.Representable)
    (h : Upward dest port proxy.stage (proxy.inbox ++ up)) (hstep : proxy.step move = some (proxy', sent)) :
    Moved dest port proxy proxy' up sent := by
  obtain ⟨stage, inbox⟩ := proxy
  generalize hahead : inbox ++ up = ahead at h
  cases move with
  | choose =>
    cases h with
    | idle =>
      simp only [Proxy.step, takeGreeting_nil hahead] at hstep
      cases hstep
    | hello =>
      obtain ⟨rest, htake, heq⟩ := Option.map_eq_some_iff.mp hstep
      obtain ⟨rfl, rfl⟩ := Prod.mk.inj heq
      exact .chose rfl hahead rfl (taken_greeting hahead htake) rfl
    | waiting | request | connected | refused => cases hstep
  | accept bound boundPort =>
    cases h with
    | waiting =>
      simp only [Proxy.step, takeRequest_nil hahead] at hstep
      cases hstep
    | request =>
      obtain ⟨⟨r, rest⟩, htake, heq⟩ := Option.map_eq_some_iff.mp hstep
      obtain ⟨rfl, rfl⟩ := Prod.mk.inj heq
      obtain ⟨rfl, -⟩ := taken_request fits hahead htake
      exact .accepted rfl hahead rfl ⟨_, rfl⟩
    | idle | hello | connected | refused => cases hstep
  | refuse rep bound boundPort =>
    cases h with
    | waiting =>
      simp only [Proxy.step, takeRequest_nil hahead] at hstep
      split at hstep <;> cases hstep
    | request =>
      simp only [Proxy.step] at hstep
      split at hstep
      · cases hstep
      next hrep =>
        obtain ⟨⟨r, rest⟩, -, heq⟩ := Option.map_eq_some_iff.mp hstep
        obtain ⟨rfl, rfl⟩ := Prod.mk.inj heq
        exact .refused rfl hahead rfl ⟨rep, _, hrep, rfl⟩
    | idle | hello | connected | refused => cases hstep
  | relay bytes =>
    cases h with
    | connected =>
      obtain ⟨rfl, -⟩ := Prod.mk.inj (Option.some.inj hstep)
      exact .relayed rfl rfl
    | idle | hello | waiting | request | refused => cases hstep

theorem Upward.step {proxy proxy' : Proxy} {up sent : List UInt8} (h : Upward dest port proxy.stage (proxy.inbox ++ up))
    (moved : Moved dest port proxy proxy' up sent) : Upward dest port proxy'.stage (proxy'.inbox ++ up) := by
  cases moved with
  | chose _ _ stage' ahead' =>
    rw [stage', ahead']
    exact .waiting
  | accepted _ _ stage' => exact stage' ▸ .connected _
  | refused _ _ stage' => exact stage' ▸ .refused _
  | relayed _ same => exact same ▸ h

end Vcmp.Rfc1928

namespace Vcmp.Socks5
open ByteMem CInt Lts Rfc1928

variable {σ : Type} {client : Client σ} {dest : Destination} {port : UInt16} {s t : Conn (σ × List Call)}
  {l l' : Link (σ × List Call)} {env : Env} {ctx : Ctx}

/-! ### The client's side -/

/-- A client that has not been told of anything but errors, with its request ahead. -/
structure Asks (dest : Destination) (port : UInt16) (s : Conn (σ × List Call)) : Prop where
  live : s.freed = []
  input : s.input = []
  silent : Silent s.app.2
  request : ∀ malloc write, socks5SendReq malloc write s.ctx = sends malloc write (connectRequest dest port)

/-- A client that was given up before it was told. -/
structure GivenUp (s : Conn (σ × List Call)) : Prop where
  dead : s.freed ≠ []
  silent : Silent s.app.2

theorem givenUp_fail (silent : Silent s.app.2) : GivenUp (s.fail client.app) := by
  refine ⟨?_, calls_fail client s ▸ silent.snoc (by decide)⟩
  rw [freed_fail]
  exact List.append_ne_nil_of_right_ne_nil _ (List.cons_ne_nil _ _)

variable (client) in
/-- The greeting is written, or the client is given up. -/
theorem eventCb_connected (env : Env) (asks : Asks dest port s) :
    (GivenUp (eventCb client.app env bevEventConnected s) ∧ (eventCb client.app env bevEventConnected s).written = s.written) ∨
      (Asks dest port (eventCb client.app env bevEventConnected s) ∧
        (eventCb client.app env bevEventConnected s).ctx.stage = socks5StageIdent ∧
        (eventCb client.app env bevEventConnected s).written = s.written ++ [hello]) := by
  have connected : bevEventConnected &&& bevEventConnected ≠ 0 := by decide
  simp only [eventCb]
  rw [if_pos connected]
  split
  · exact Or.inl ⟨givenUp_fail asks.silent, rfl⟩
  · refine Or.inr ⟨⟨asks.live, asks.input, asks.silent, fun malloc write => ?_⟩, rfl, rfl⟩
    exact (sendReq_stage _ _ _ _).trans (asks.request malloc write)

variable (client) in
/-- The reply that chose the method is answered with the request, or the client is given up. -/
theorem readIdent_asks (env : Env) {bytes : List UInt8} (short : bytes.length < 2 ^ 31) (asks : Asks dest port s) :
    (GivenUp (readIdent client.app env { s with input := bytes }) ∧
        (readIdent client.app env { s with input := bytes }).written = s.written) ∨
      (Asks dest port (readIdent client.app env { s with input := bytes }) ∧
        (readIdent client.app env { s with input := bytes }).ctx.stage = socks5StageRequest ∧
        (readIdent client.app env { s with input := bytes }).written = s.written ++ [connectRequest dest port]) := by
  simp only [readIdent]
  split
  · exact Or.inl ⟨givenUp_fail asks.silent, rfl⟩
  split
  · split
    · exact Or.inl ⟨givenUp_fail asks.silent, rfl⟩
    next hsent =>
      refine Or.inr ⟨⟨asks.live, ?_, asks.silent, fun malloc write => ?_⟩, rfl, ?_⟩
      · simp only [Conn.drain, Conn.setStage]
        rw [toSize_toInt short, List.drop_length]
      · exact (sendReq_stage _ _ _ _).trans (asks.request malloc write)
      · have hbytes : (socks5SendReq env.malloc env.write s.ctx).2 = some (connectRequest dest port) := by
          rw [asks.request, sends] at hsent ⊢
          by_cases hworks : (env.malloc.isSome && env.write) = true
          · rw [if_pos hworks]
          · rw [if_neg hworks] at hsent
            exact absurd Int.one_ne_zero hsent
        simp only [Conn.drain, Conn.setStage, hbytes]
        rfl
  · exact Or.inl ⟨givenUp_fail asks.silent, rfl⟩

variable (client) in
/-- A reply is judged by the three bytes from its first one on, whatever is there. -/
theorem readRequest_judged (env : Env) (bytes : List UInt8) (asks : Asks dest port s) :
    (readRequest client.app env { s with input := bytes }).written = s.written ∧
      (GivenUp (readRequest client.app env { s with input := bytes }) ∨
        peeks succeeded bytes env.past ∧ Told (readRequest client.app env { s with input := bytes }).app.2 ∧
          (readRequest client.app env { s with input := bytes }).ctx.stage = socks5StageConnected) := by
  simp only [readRequest]
  split
  · exact ⟨rfl, Or.inl (givenUp_fail asks.silent)⟩
  next hversion =>
    split
    · exact ⟨rfl, Or.inl (givenUp_fail asks.silent)⟩
    next hrep =>
      obtain ⟨hversion, hreserved⟩ := not_or.mp hversion
      exact ⟨rfl, Or.inr ⟨peeks_succeeded.mpr ⟨not_not.mp hversion, not_not.mp hrep, not_not.mp hreserved⟩, asks.silent.told, rfl⟩⟩

/-! ### Both sides -/

/-- The bytes that the proxy has not taken yet. -/
def Link.ahead (l : Link (σ × List Call)) : List UInt8 := l.proxy.inbox ++ l.up

/-- How far the client and the proxy are with each other. A client that judged the method reply by its first byte is `stray`: what it
    reads next is the second one. -/
inductive Talk (dest : Destination) (port : UInt16) (l : Link (σ × List Call)) : Prop
  | apart : l.connected = false → Asks dest port l.client → l.proxy.stage = .greeting → l.ahead = [] → l.down = [] → Talk dest port l
  | greeted : l.connected = true → l.client.ctx.stage = socks5StageIdent → Asks dest port l.client → l.proxy.stage = .greeting →
      l.ahead = hello → l.down = [] → Talk dest port l
  | chosen : l.connected = true → l.client.ctx.stage = socks5StageIdent → Asks dest port l.client → l.proxy.stage = .request →
      l.ahead = [] → l.down = methodChosen → Talk dest port l
  | asked : l.connected = true → l.client.ctx.stage = socks5StageRequest → Asks dest port l.client → l.proxy.stage = .request →
      l.ahead = connectRequest dest port → l.down = [] → Talk dest port l
  | stray (tail : List UInt8) : l.connected = true → l.client.ctx.stage = socks5StageRequest → Asks dest port l.client →
      Upward dest port l.proxy.stage l.ahead → l.down = 0 :: tail → Talk dest port l
  | accepted (tail : List UInt8) : l.connected = true → l.client.ctx.stage = socks5StageRequest → Asks dest port l.client →
      l.proxy.stage = .connected dest port → l.down = 5 :: 0 :: tail → Talk dest port l
  | refused (rep : UInt8) (tail : List UInt8) : l.connected = true → l.client.ctx.stage = socks5StageRequest →
      Asks dest port l.client → l.proxy.stage = .refused → rep ≠ 0 → l.down = 5 :: rep :: tail → Talk dest port l
  | told : l.connected = true → l.proxy.stage = .connected dest port → Told l.client.app.2 →
      l.client.ctx.stage = socks5StageConnected → Talk dest port l
  | ended : GivenUp l.client → Upward dest port l.proxy.stage l.ahead → Talk dest port l

theorem Talk.upward (h : Talk dest port l) : Upward dest port l.proxy.stage l.ahead := by
  cases h with
  | apart _ _ stage ahead =>
    rw [stage, ahead]
    exact .idle
  | greeted _ _ _ stage ahead =>
    rw [stage, ahead]
    exact .hello
  | chosen _ _ _ stage ahead =>
    rw [stage, ahead]
    exact .waiting
  | asked _ _ _ stage ahead =>
    rw [stage, ahead]
    exact .request
  | accepted _ _ _ _ stage | told _ stage => exact stage ▸ .connected _
  | refused _ _ _ _ _ stage => exact stage ▸ .refused _
  | stray _ _ _ _ upward | ended _ upward => exact upward

theorem ahead_quiet (h : t.written = l.client.written) : (l.became t).ahead = l.ahead := by
  rw [Link.ahead, Link.became, h, List.drop_length, List.flatten_nil, List.append_nil, Link.ahead]

theorem ahead_wrote {bytes : List UInt8} (h : t.written = l.client.written ++ [bytes]) : (l.became t).ahead = l.ahead ++ bytes := by
  rw [Link.ahead, Link.became, h, List.drop_left, List.flatten_singleton, ← List.append_assoc, Link.ahead]

/-- A callback is called on a context that was not freed. -/
theorem call_eq {e : Event} (h : l.call client.app e = some l') : l.client.freed = [] ∧
    ∃ t, Socks5.step client.app l.client e = some t ∧ l' = l.became t := by
  rw [Link.call] at h
  split at h
  · cases h
  next live =>
    obtain ⟨t, ht, rfl⟩ := Option.map_eq_some_iff.mp h
    exact ⟨not_not.mp live, t, ht, rfl⟩

/-- A client that was given up tells the proxy nothing more. -/
theorem Talk.of_givenUp (upward : Upward dest port l.proxy.stage l.ahead) (givenUp : GivenUp t)
    (hwritten : t.written = l.client.written) : Talk dest port (l.became t) :=
  .ended givenUp (ahead_quiet hwritten ▸ upward)

theorem talk_connect (h : Talk dest port l) (hstep : l.step client.app (.connect env) = some l') : Talk dest port l' := by
  rw [Link.step] at hstep
  split at hstep
  · cases hstep
  next hconnected =>
    obtain ⟨live, t, ht, rfl⟩ := call_eq hstep
    rw [Socks5.step.eq_def, if_neg (live ▸ List.not_mem_nil)] at ht
    obtain rfl := Option.some.inj ht
    cases h with
    | apart _ asks stage ahead down =>
      rcases eventCb_connected client env asks with ⟨givenUp, hwritten⟩ | ⟨asks', hstage, hwritten⟩
      · refine .of_givenUp (l := { l with connected := true }) ?_ givenUp hwritten
        exact (Talk.apart (Bool.eq_false_iff.mpr hconnected) asks stage ahead down).upward
      · refine .greeted rfl hstage asks' stage ?_ down
        rw [ahead_wrote (l := { l with connected := true }) hwritten]
        exact congrArg (· ++ hello) ahead
    | greeted connected | chosen connected | asked connected | stray _ connected | accepted _ connected | refused _ _ connected
    | told connected => exact absurd connected hconnected
    | ended givenUp => exact absurd live givenUp.dead

/-- A read does not hand over a single byte with two zeros behind it, which together look like a success. -/
def LinkEvent.Judged : LinkEvent → Prop
  | .read n env => 2 ≤ n ∨ env.past 0 ≠ 0 ∨ env.past 1 ≠ 0
  | _ => True

theorem peeks_taken {n : Nat} {rep : UInt8} {tail : List UInt8} (positive : n ≠ 0) (judged : (LinkEvent.read n env).Judged)
    (h : peeks succeeded ((5 :: rep :: tail).take n) env.past) : rep = 0 := by
  obtain ⟨-, hrep, hreserved⟩ := peeks_succeeded.mp h
  obtain ⟨n, rfl⟩ := Nat.exists_eq_succ_of_ne_zero positive
  cases n with
  | zero =>
    rcases judged with hlong | hzero | hone
    · exact absurd hlong (by decide)
    · exact absurd hrep hzero
    · exact absurd hreserved hone
  | succ n => exact hrep

theorem peeks_stray {n : Nat} {tail : List UInt8} {past : Mem} (positive : n ≠ 0) :
    ¬peeks succeeded ((0 :: tail).take n) past := by
  intro h
  obtain ⟨n, rfl⟩ := Nat.exists_eq_succ_of_ne_zero positive
  exact absurd (peeks_succeeded.mp h).1 (show (0 : UInt8) ≠ socks5Version by decide)

theorem readCb_ident {bytes : List UInt8} (asks : Asks dest port s) (stage : s.ctx.stage = socks5StageIdent) :
    readCb client.app env { s with input := s.input ++ bytes } = readIdent client.app env { s with input := bytes } := by
  rw [asks.input, List.nil_append, readCb, if_pos stage]

theorem readCb_request {bytes : List UInt8} (asks : Asks dest port s) (stage : s.ctx.stage = socks5StageRequest) :
    readCb client.app env { s with input := s.input ++ bytes } = readRequest client.app env { s with input := bytes } := by
  rw [asks.input, List.nil_append, readCb, if_neg (by rw [stage]; decide), if_pos stage]

/-- Of the reply that chose the method the client takes what is there, and asks. -/
theorem talk_chosen {n : Nat} {bytes : List UInt8} (connected : l.connected = true) (asks : Asks dest port l.client)
    (stage : l.proxy.stage = .request) (ahead : l.ahead = []) (short : bytes.length < 2 ^ 31) (positive : n ≠ 0)
    (down : l.down = methodChosen.drop n) :
    Talk dest port (l.became (readIdent client.app env { l.client with input := bytes })) := by
  rcases readIdent_asks client env short asks with ⟨givenUp, hwritten⟩ | ⟨asks', hstage, hwritten⟩
  · refine .of_givenUp ?_ givenUp hwritten
    rw [stage, ahead]
    exact .waiting
  · have hahead := ahead_wrote hwritten
    rw [ahead, List.nil_append] at hahead
    obtain ⟨n, rfl⟩ := Nat.exists_eq_succ_of_ne_zero positive
    cases n with
    | zero =>
      refine .stray [] connected hstage asks' ?_ down
      rw [hahead]
      exact stage ▸ .request
    | succ n => exact .asked connected hstage asks' stage hahead (down.trans List.drop_nil)

/-- A reply is followed by success only if the proxy reported it. -/
theorem talk_judged {bytes : List UInt8} (connected : l.connected = true) (asks : Asks dest port l.client)
    (upward : Upward dest port l.proxy.stage l.ahead) (accepts : peeks succeeded bytes env.past → l.proxy.stage = .connected dest port) :
    Talk dest port (l.became (readRequest client.app env { l.client with input := bytes })) := by
  obtain ⟨hwritten, givenUp | ⟨hpeeks, told, hstage⟩⟩ := readRequest_judged client env bytes asks
  · exact .of_givenUp upward givenUp hwritten
  · exact .told connected (accepts hpeeks) told hstage

theorem talk_read {n : Nat} (h : Talk dest port l) (judged : (LinkEvent.read n env).Judged)
    (hstep : l.step client.app (.read n env) = some l') : Talk dest port l' := by
  rw [Link.step] at hstep
  split at hstep
  · cases hstep
  next hn =>
    obtain ⟨hconnected, hn⟩ := not_or.mp hn
    obtain ⟨positive, hlength⟩ := not_or.mp hn
    obtain ⟨live, t, ht, rfl⟩ := call_eq hstep
    rw [Socks5.step.eq_def, if_neg (live ▸ List.not_mem_nil)] at ht
    obtain rfl := Option.some.inj ht
    dsimp only
    have short : (l.down.take n).length ≤ l.down.length := List.length_take_le' _ _
    cases h with
    | apart connected => exact absurd (Bool.eq_false_iff.mp connected) hconnected
    | greeted _ _ _ _ _ down | asked _ _ _ _ _ down =>
      rw [down] at hlength
      exact absurd (Nat.pos_of_ne_zero positive) hlength
    | chosen connected hstage asks stage ahead down =>
      rw [readCb_ident asks hstage]
      refine talk_chosen (l := { l with down := l.down.drop n }) connected asks stage ahead ?_ positive (congrArg (List.drop n) down)
      rw [down] at short ⊢
      exact short.trans_lt (by decide)
    | stray tail connected hstage asks upward down =>
      rw [readCb_request asks hstage]
      exact talk_judged (l := { l with down := l.down.drop n }) connected asks upward fun hpeeks =>
        absurd (down ▸ hpeeks) (peeks_stray positive)
    | accepted tail connected hstage asks stage down =>
      rw [readCb_request asks hstage]
      exact talk_judged (l := { l with down := l.down.drop n }) connected asks (stage ▸ .connected _) fun _ => stage
    | refused rep tail connected hstage asks stage hrep down =>
      rw [readCb_request asks hstage]
      exact talk_judged (l := { l with down := l.down.drop n }) connected asks (stage ▸ .refused _) fun hpeeks =>
        absurd (peeks_taken positive judged (down ▸ hpeeks)) hrep
    | told connected stage told hstage =>
      have hread : readCb client.app env { l.client with input := l.client.input ++ l.down.take n } =
          readConnected client.app { l.client with input := l.client.input ++ l.down.take n } := by
        rw [readCb, if_neg (by rw [hstage]; decide), if_neg (by rw [hstage]; decide), if_pos hstage]
      rw [hread]
      refine .told connected stage (told_readConnected told) ?_
      exact (congrArg (fun ctx : Ctx => ctx.stage) (stage_readConnected client _)).trans hstage
    | ended givenUp => exact absurd live givenUp.dead

theorem became_self (l : Link (σ × List Call)) : l.became l.client = l := by
  rw [Link.became, List.drop_length, List.flatten_nil, List.append_nil]

theorem writeCb_unconnected (h : s.ctx.stage ≠ socks5StageConnected) : writeCb client.app s = s := if_neg h

theorem talk_write (h : Talk dest port l) (hstep : l.step client.app .write = some l') : Talk dest port l' := by
  rw [Link.step] at hstep
  split at hstep
  · cases hstep
  next hconnected =>
    obtain ⟨live, t, ht, rfl⟩ := call_eq hstep
    rw [Socks5.step.eq_def, if_neg (live ▸ List.not_mem_nil)] at ht
    obtain rfl := Option.some.inj ht
    cases h with
    | apart connected => exact absurd (Bool.eq_false_iff.mp connected) hconnected
    | greeted connected hstage asks stage ahead down =>
      rw [writeCb_unconnected (by rw [hstage]; decide), became_self]
      exact .greeted connected hstage asks stage ahead down
    | chosen connected hstage asks stage ahead down =>
      rw [writeCb_unconnected (by rw [hstage]; decide), became_self]
      exact .chosen connected hstage asks stage ahead down
    | asked connected hstage asks stage ahead down =>
      rw [writeCb_unconnected (by rw [hstage]; decide), became_self]
      exact .asked connected hstage asks stage ahead down
    | stray tail connected hstage asks upward down =>
      rw [writeCb_unconnected (by rw [hstage]; decide), became_self]
      exact .stray tail connected hstage asks upward down
    | accepted tail connected hstage asks stage down =>
      rw [writeCb_unconnected (by rw [hstage]; decide), became_self]
      exact .accepted tail connected hstage asks stage down
    | refused rep tail connected hstage asks stage hrep down =>
      rw [writeCb_unconnected (by rw [hstage]; decide), became_self]
      exact .refused rep tail connected hstage asks stage hrep down
    | told connected stage told hstage =>
      unfold writeCb Client.app
      rw [if_pos hstage]
      cases client.writecb with
      | none => exact .told connected stage told hstage
      | some writecb => exact .told connected stage (told.snoc Call.noConfusion) hstage
    | ended givenUp => exact absurd live givenUp.dead

/-- A live client has been told nothing, or is connected. -/
theorem Talk.live (h : Talk dest port l) (live : l.client.freed = []) : Asks dest port l.client ∨
    (l.connected = true ∧ l.proxy.stage = .connected dest port ∧ Told l.client.app.2 ∧ l.client.ctx.stage = socks5StageConnected) := by
  cases h with
  | apart _ asks | greeted _ _ asks | chosen _ _ asks | asked _ _ asks | stray _ _ _ asks | accepted _ _ _ asks | refused _ _ _ _ asks =>
    exact Or.inl asks
  | told connected stage told hstage => exact Or.inr ⟨connected, stage, told, hstage⟩
  | ended givenUp => exact absurd live givenUp.dead

theorem talk_event {events : UInt16} (h : Talk dest port l) (hstep : l.step client.app (.event events env) = some l') :
    Talk dest port l' := by
  rw [Link.step] at hstep
  split at hstep
  · cases hstep
  next other =>
    have other : events &&& bevEventConnected = 0 := not_not.mp other
    have hne : events ≠ bevEventConnected := by
      rintro rfl
      exact absurd other (by decide)
    obtain ⟨live, t, ht, rfl⟩ := call_eq hstep
    rw [Socks5.step.eq_def, if_neg (live ▸ List.not_mem_nil)] at ht
    obtain rfl := Option.some.inj ht
    rw [eventCb, if_neg (not_not_intro other)]
    split
    · rcases h.live live with asks | ⟨connected, stage, told, hstage⟩
      · exact .of_givenUp h.upward ⟨List.append_ne_nil_of_right_ne_nil _ (List.cons_ne_nil _ _), asks.silent.snoc hne⟩ rfl
      · exact .told connected stage (told.snoc (hne ∘ Call.event.inj)) hstage
    · rw [became_self]
      exact h

theorem talk_arrive {n : Nat} (h : Talk dest port l) (hstep : l.step client.app (.arrive n) = some l') : Talk dest port l' := by
  rw [Link.step] at hstep
  split at hstep
  · cases hstep
  obtain rfl := Option.some.inj hstep
  have hahead : l.proxy.inbox ++ l.up.take n ++ l.up.drop n = l.ahead := by
    rw [List.append_assoc, List.take_append_drop]
    rfl
  have hupward : Upward dest port l.proxy.stage (l.proxy.inbox ++ l.up.take n ++ l.up.drop n) := hahead ▸ h.upward
  cases h with
  | apart connected asks stage ahead down => exact .apart connected asks stage (hahead.trans ahead) down
  | greeted connected hstage asks stage ahead down => exact .greeted connected hstage asks stage (hahead.trans ahead) down
  | chosen connected hstage asks stage ahead down => exact .chosen connected hstage asks stage (hahead.trans ahead) down
  | asked connected hstage asks stage ahead down => exact .asked connected hstage asks stage (hahead.trans ahead) down
  | stray tail connected hstage asks _ down => exact .stray tail connected hstage asks hupward down
  | accepted tail connected hstage asks stage down => exact .accepted tail connected hstage asks stage down
  | refused rep tail connected hstage asks stage hrep down => exact .refused rep tail connected hstage asks stage hrep down
  | told connected stage told hstage => exact .told connected stage told hstage
  | ended givenUp => exact .ended givenUp hupward

/-- The proxy moves by what the client sent, and what it sends is behind what it has sent. -/
theorem talk_proxy {move : ProxyMove} (fits : dest.Representable) (h : Talk dest port l)
    (hstep : l.step client.app (.proxy move) = some l') : Talk dest port l' := by
  obtain ⟨⟨proxy, sent⟩, hmove, rfl⟩ := Option.map_eq_some_iff.mp hstep
  have moved : Moved dest port l.proxy proxy l.up sent := h.upward.moved fits hmove
  have hupward : Upward dest port proxy.stage (proxy.inbox ++ l.up) := h.upward.step moved
  cases h with
  | apart _ _ stage ahead =>
    cases moved with
    | chose _ ahead' => cases ahead'.symm.trans ahead
    | accepted stage' | refused stage' | relayed stage' => cases stage.symm.trans stage'
  | greeted connected hstage asks stage _ down =>
    cases moved with
    | chose _ _ stage' ahead' hsent =>
      refine .chosen connected hstage asks stage' ahead' ?_
      rw [down, hsent]
      rfl
    | accepted stage' | refused stage' | relayed stage' => cases stage.symm.trans stage'
  | chosen _ _ _ stage ahead =>
    cases moved with
    | accepted _ ahead' | refused _ ahead' => cases ahead.symm.trans ahead'
    | chose stage' | relayed stage' => cases stage.symm.trans stage'
  | asked connected hstage asks stage _ down =>
    cases moved with
    | accepted _ _ stage' hsent =>
      obtain ⟨tail, rfl⟩ := hsent
      exact .accepted tail connected hstage asks stage' (congrArg (· ++ 5 :: 0 :: tail) down)
    | refused _ _ stage' hsent =>
      obtain ⟨rep, tail, hrep, rfl⟩ := hsent
      exact .refused rep tail connected hstage asks stage' hrep (congrArg (· ++ 5 :: rep :: tail) down)
    | chose stage' | relayed stage' => cases stage.symm.trans stage'
  | stray tail connected hstage asks _ down =>
    exact .stray (tail ++ sent) connected hstage asks hupward (congrArg (· ++ sent) down)
  | accepted tail connected hstage asks stage down =>
    cases moved with
    | relayed _ same => exact .accepted (tail ++ sent) connected hstage asks (same ▸ stage) (congrArg (· ++ sent) down)
    | chose stage' | accepted stage' | refused stage' => cases stage.symm.trans stage'
  | refused _ _ _ _ _ stage =>
    cases moved with
    | chose stage' | accepted stage' | refused stage' | relayed stage' => cases stage.symm.trans stage'
  | told connected stage told hstage =>
    cases moved with
    | relayed _ same => exact .told connected (same ▸ stage) told hstage
    | chose stage' | accepted stage' | refused stage' => cases stage.symm.trans stage'
  | ended givenUp => exact .ended givenUp hupward

theorem talk_step {e : LinkEvent} (fits : dest.Representable) (h : Talk dest port l) (judged : e.Judged)
    (hstep : l.step client.app e = some l') : Talk dest port l' := by
  cases e with
  | connect env => exact talk_connect h hstep
  | read n env => exact talk_read h judged hstep
  | write => exact talk_write h hstep
  | event events env => exact talk_event h hstep
  | arrive n => exact talk_arrive h hstep
  | proxy move => exact talk_proxy fits h hstep

/-! ### Every run -/

/-- The request of a context that has no other address, whatever else was in its memory. -/
theorem sendReq_newCtx {dstPort : UInt16} {stage : UInt32} {mallocAddr : Option Mem} (fits : dest.Representable)
    (made : newCtx dest port (some ⟨none, none, dstPort, stage⟩) mallocAddr = some ctx) (malloc : Option Mem) (write : Bool) :
    socks5SendReq malloc write ctx = sends malloc write (connectRequest dest port) := by
  cases dest with
  | ipv4 addr =>
    cases mallocAddr with
    | none => cases made
    | some _ =>
      obtain rfl := Option.some.inj made
      exact sendReq_ipv4 malloc write (target_ipv4 rfl)
  | hostname name clean =>
    cases mallocAddr with
    | none => cases made
    | some block =>
      obtain rfl := Option.some.inj made
      exact sendReq_hostname malloc write fits (target_hostname rfl rfl)

theorem talk_start {u : σ} (request : ∀ malloc write, socks5SendReq malloc write ctx = sends malloc write (connectRequest dest port)) :
    Talk dest port (Link.start ctx (u, [])) :=
  .apart rfl ⟨rfl, rfl, List.forall_mem_nil _, request⟩ rfl rfl rfl

theorem talk_run {es : List LinkEvent} (fits : dest.Representable) (h : Talk dest port l) (judged : ∀ e ∈ es, e.Judged)
    (hrun : run (Link.step client.app) l es = some l') : Talk dest port l' := by
  refine (eachState_of_eachStep (P := fun _ e _ => e.Judged) h (fun _ _ _ h hstep he => talk_step fits h he hstep) ?_).last hrun
  exact eachStep_of_forall fun _ e _ he _ => judged e he

/-- Whatever the network and the memory do, the application is told that it is connected once at most, and it is told so and
    called for data only if the proxy has connected to the destination of the context; the proxy connects nowhere else. -/
theorem proxy_agrees {u : σ} {dstPort : UInt16} {stage : UInt32} {mallocAddr : Option Mem} {es : List LinkEvent} (fits : dest.Representable)
    (made : newCtx dest port (some ⟨none, none, dstPort, stage⟩) mallocAddr = some ctx) (judged : ∀ e ∈ es, e.Judged)
    (hrun : run (Link.step client.app) (Link.start ctx (u, [])) es = some l) :
    l.client.app.2.count (.event bevEventConnected) ≤ 1 ∧
    (∀ call ∈ l.client.app.2, call = .event bevEventConnected ∨ call = .read ∨ call = .write → l.proxy.stage = .connected dest port) ∧
    ∀ dest' port', l.proxy.stage = .connected dest' port' → dest' = dest ∧ port' = port := by
  have htalk : Talk dest port l := talk_run fits (talk_start (sendReq_newCtx fits made)) judged hrun
  have hquiet (silent : Silent l.client.app.2) : l.client.app.2.count (.event bevEventConnected) ≤ 1 ∧ ∀ call ∈ l.client.app.2,
      call = .event bevEventConnected ∨ call = .read ∨ call = .write → l.proxy.stage = .connected dest port := by
    refine ⟨(List.count_eq_zero.mpr silent.not_mem).le.trans (Nat.zero_le 1), fun call hcall hkind => ?_⟩
    rcases hkind with rfl | hkind
    · exact absurd hcall silent.not_mem
    · exact absurd hkind (silent.not_called hcall)
  have hsides : l.client.app.2.count (.event bevEventConnected) ≤ 1 ∧ ∀ call ∈ l.client.app.2,
      call = .event bevEventConnected ∨ call = .read ∨ call = .write → l.proxy.stage = .connected dest port := by
    cases htalk with
    | apart _ asks | greeted _ _ asks | chosen _ _ asks | asked _ _ asks | stray _ _ _ asks | accepted _ _ _ asks
    | refused _ _ _ _ asks => exact hquiet asks.silent
    | told _ stage told => exact ⟨(told.honest (List.prefix_refl accepted)).once, fun _ _ _ => stage⟩
    | ended givenUp => exact hquiet givenUp.silent
  refine ⟨hsides.1, hsides.2, fun dest' port' hstage => ?_⟩
  have hupward := htalk.upward
  rw [hstage] at hupward
  cases hupward
  exact ⟨rfl, rfl⟩

/-- The client and the proxy up to the application, and what it was told. -/
def sampleTalk (past : Mem) (n : Nat) (move : ProxyMove) : Option (Link (Unit × List Call)) :=
  run (Link.step (Client.app ⟨none, none, fun _ u => u⟩)) (Link.start sampleCtx ((), []))
    [.connect sampleEnv, .arrive 3, .proxy .choose, .read 2 sampleEnv, .arrive 10, .proxy move, .read n { sampleEnv with past }]

theorem proxy_agrees_sample : ∃ l, sampleTalk (fun _ => 0) 10 (.accept (.ipv4 #v[0, 0, 0, 0]) 0) = some l ∧
    .event bevEventConnected ∈ l.client.app.2 ∧ l.proxy.stage = .connected (.ipv4 #v[127, 0, 0, 1]) 443 := by
  have made : newCtx (.ipv4 #v[127, 0, 0, 1]) 443 (some ⟨none, none, 0, 0⟩) (some fun _ => 0) = some sampleCtx := rfl
  have fits : (Destination.ipv4 #v[127, 0, 0, 1]).Representable := trivial
  have hcalls : (sampleTalk (fun _ => 0) 10 (.accept (.ipv4 #v[0, 0, 0, 0]) 0)).map (fun l => l.client.app.2) =
      some [.event bevEventConnected] := rfl
  obtain ⟨l, hl, htold⟩ := Option.map_eq_some_iff.mp hcalls
  have hmem : .event bevEventConnected ∈ l.client.app.2 := htold ▸ List.mem_cons_self
  refine ⟨l, hl, hmem, (proxy_agrees fits made ?_ hl).2.1 _ hmem (Or.inl rfl)⟩
  simp [LinkEvent.Judged]

/-- One byte of a refusal with zeros behind it is taken for success. -/
example : (sampleTalk (fun _ => 0) 1 (.refuse 5 (.ipv4 #v[0, 0, 0, 0]) 0)).map (fun l => l.client.app.2) =
    some [.event bevEventConnected] := rfl

end Vcmp.Socks5
