import Vcmp.Lib.Views
import Vcmp.Peers
import Vcmp.Theorems.Staging

/-! Many peers in one process: each is served as it would be alone, and no value of `rand` goes into the challenges of
    two of them. -/

namespace Vcmp.Listener
open ByteMem CInt Lts

variable {K : Type} {rand : Nat → Nat} {keypair : K} {env : Env K} {s t : Conn K} {p q : Peers K} {e : PeersEvent K}
  {es : List (PeersEvent K)} {i : Nat}

/-! ### The challenge of one call -/

theorem charset_length : charset.length = 62 := by decide +kernel

theorem mem_randArray {drawn len : Nat} : ∀ b ∈ (randArray rand drawn len).toList, b ∈ charset := by
  intro b hb
  simp only [randArray, Vector.toList_ofFn, List.mem_ofFn] at hb
  obtain ⟨i, rfl⟩ := hb
  have hlt : rand (drawn + i) % charsetSize < charset.length :=
    Nat.mod_lt _ (by rw [charsetSize, charset_length]; exact Nat.succ_pos 61)
  rw [List.getD_eq_getElem _ _ hlt]
  exact List.getElem_mem hlt

theorem callsRandArray_iff : CallsRandArray env s ↔
    s.peer.stage = .pubkeyWait ∧ AckIn s.input env.past ∧ ∃ key, env.rsaLoadDerPubkey (ackKey s.input env.past) = some key := by
  rw [← Option.isSome_iff_exists]
  constructor
  · rintro ⟨hstage, header, long, exact, valid, type, loaded⟩
    exact ⟨hstage, ⟨header, long, exact, valid, type⟩, loaded⟩
  · rintro ⟨hstage, ⟨header, long, exact, valid, type⟩, loaded⟩
    exact ⟨hstage, header, long, exact, valid, type, loaded⟩

/-- A read that gets as far as `rand_array` stores what it gives, whatever comes of it. -/
theorem authenticity_readCb (h : CallsRandArray env s) : (readCb env keypair s).peer.authenticity = env.randArray := by
  obtain ⟨hstage, ack, key, hkey⟩ := callsRandArray_iff.mp h
  rw [ackKey] at hkey
  rw [readCb, if_neg (Nat.not_lt_of_le ack.header), hstage]
  simp only [readPubkeyWait]
  rw [if_neg (Nat.not_le_of_lt ack.long), if_neg (not_not.mpr ack.exact), if_neg (not_not.mpr ack.valid),
    if_neg (not_not.mpr ack.type)]
  simp only [hkey]
  split
  · rfl
  · split
    · rfl
    · split <;> rfl

/-! ### What one read does to the peer object -/

theorem peer_readNone (h : readNone env keypair s = t) : t.peer = s.peer ∨ t.peer = { s.peer with stage := .pubkeyWait } := by
  simp only [readNone] at h
  rcases passed h (P := t.peer = s.peer) (fun h' => h' ▸ rfl) with hsame | ⟨-, h⟩
  · exact Or.inl hsame
  cases hder : env.rsaGetDerPubkey keypair with
  | none =>
    rw [hder] at h
    exact Or.inl (h ▸ rfl)
  | some der =>
    rw [hder] at h
    cases hmalloc : env.mallocHandshake with
    | false =>
      rw [hmalloc] at h
      exact Or.inl (h ▸ rfl)
    | true =>
      rw [hmalloc] at h
      rcases passed h (P := t.peer = s.peer) (fun h' => h' ▸ rfl) with hsame | ⟨-, h⟩
      · exact Or.inl hsame
      · exact Or.inr (h ▸ rfl)

theorem peer_readPubkeyWait (stage : s.peer.stage = .pubkeyWait) (header : ¬s.input.length < sizeofHeader)
    (calls : ¬CallsRandArray env s) (h : readPubkeyWait env s = t) : t.peer = s.peer := by
  simp only [readPubkeyWait] at h
  rcases passed_packet h (P := t.peer = s.peer) (fun h' => h' ▸ rfl) (fun h' => h' ▸ rfl) with
    hsame | ⟨⟨hlong, hexact, hvalid, htype⟩, h⟩
  · exact hsame
  have ack : AckIn s.input env.past := ⟨Nat.le_of_not_lt header, Nat.lt_of_not_le hlong, not_not.mp hexact,
    not_not.mp hvalid, not_not.mp htype⟩
  cases hload : env.rsaLoadDerPubkey (ackKey s.input env.past) with
  | none =>
    rw [ackKey] at hload
    rw [hload] at h
    exact h ▸ rfl
  | some key => exact absurd (callsRandArray_iff.mpr ⟨stage, ack, key, hload⟩) calls

theorem peer_readPubkeyCheck (h : readPubkeyCheck env keypair s = t) :
    t.peer = s.peer ∨ t.peer = { s.peer with stage := .ready } := by
  simp only [readPubkeyCheck] at h
  rcases passed_packet h (P := t.peer = s.peer) (fun h' => h' ▸ rfl) (fun h' => h' ▸ rfl) with hsame | ⟨-, h⟩
  · exact Or.inl hsame
  cases hdec : env.rsaDecrypt (dataPayload s.input env.past) keypair with
  | none =>
    rw [dataPayload] at hdec
    rw [hdec] at h
    exact Or.inl (h ▸ rfl)
  | some dec =>
    rw [dataPayload] at hdec
    simp only [hdec] at h
    rcases passed h (P := t.peer = s.peer) (fun h' => h' ▸ rfl) with hsame | ⟨-, h⟩
    · exact Or.inl hsame
    · exact Or.inr (h ▸ rfl)

/-- The peer was sent a challenge. -/
def Conn.Challenged (s : Conn K) : Prop := s.peer.stage = .pubkeyCheck ∨ s.peer.stage = .ready

/-- The peer was sent a challenge, or the connection is closed: it draws no more. -/
def Conn.Served (s : Conn K) : Prop := s.Challenged ∨ s.freed ≠ []

instance (s : Conn K) : Decidable s.Challenged := inferInstanceAs (Decidable (_ ∨ _))

instance (s : Conn K) : Decidable s.Served :=
  decidable_of_iff (s.Challenged ∨ s.freed.isEmpty = false) (or_congr_right (by rw [ne_eq, ← List.isEmpty_iff, Bool.not_eq_true]))

theorem not_challenged_wait (stage : s.peer.stage = .none ∨ s.peer.stage = .pubkeyWait) : ¬s.Challenged := by
  rintro (h | h) <;> rcases stage with stage | stage <;> cases h.symm.trans stage

/-- A read without `rand_array` keeps the challenge, and makes nobody challenged. -/
theorem readCb_undrawn (h : readCb env keypair s = t) (calls : ¬CallsRandArray env s) (challenged : t.Challenged) :
    s.Challenged ∧ t.peer.authenticity = s.peer.authenticity := by
  rw [readCb] at h
  rcases passed h (P := t.peer = s.peer) (fun h' => h' ▸ rfl) with hsame | ⟨header, h⟩
  · rw [Conn.Challenged, hsame] at challenged
    exact ⟨challenged, by rw [hsame]⟩
  cases hstage : s.peer.stage with
  | none =>
    rw [hstage] at h
    rcases peer_readNone h with hsame | hwait
    · exact absurd challenged (not_challenged_wait (Or.inl (by rw [hsame, hstage])))
    · exact absurd challenged (not_challenged_wait (Or.inr (by rw [hwait])))
  | pubkeyWait =>
    rw [hstage] at h
    rw [Conn.Challenged, peer_readPubkeyWait hstage header calls h, hstage] at challenged
    rcases challenged with hcheck | hready
    · cases hcheck
    · cases hready
  | pubkeyCheck =>
    rw [hstage] at h
    rcases peer_readPubkeyCheck h with hsame | hready
    · exact ⟨Or.inl hstage, by rw [hsame]⟩
    · exact ⟨Or.inl hstage, by rw [hready]⟩
  | ready =>
    rw [hstage] at h
    exact ⟨Or.inr hstage, by rw [← h]⟩

theorem served_readCb (h : readCb env keypair s = t) (hs : s.Challenged ∨ CallsRandArray env s) : t.Served := by
  rcases readCb_cases h with ⟨hfreed, -⟩ | hreads
  · exact Or.inr hfreed
  refine Or.inl ?_
  cases hreads with
  | verified stage =>
    rcases hs with hs | hs
    · exact absurd hs (not_challenged_wait (Or.inl stage))
    · cases stage.symm.trans hs.1
  | acknowledged => exact Or.inl rfl
  | authenticated => exact Or.inr rfl
  | idle stage => exact Or.inr stage

/-! ### One step of the process -/

/-- The connection after bytes arrived on it. -/
def Conn.arrived (s : Conn K) (bytes : List UInt8) : Conn K := { s with input := s.input ++ bytes }

theorem Peers.step_cases (h : p.step rand keypair e = some q) :
    (∃ bufferevent peer, e = .accept bufferevent peer ∧
      (q = p ∨ ∃ s, acceptConnCb bufferevent peer = some s ∧ q = { p with conns := p.conns ++ [s] })) ∨
    (∃ i bytes env s, e = .read i bytes env ∧ p.conns[i]? = some s ∧ s.freed = [] ∧
      q = ⟨p.conns.set i (readCb (p.env rand env) keypair (s.arrived bytes)),
        if CallsRandArray env (s.arrived bytes) then p.drawn + 12 else p.drawn⟩) ∨
    ∃ i events s, e = .event i events ∧ p.conns[i]? = some s ∧ s.freed = [] ∧ q = p := by
  cases e with
  | accept bufferevent peer =>
    refine Or.inl ⟨bufferevent, peer, rfl, ?_⟩
    rw [Peers.step] at h
    cases haccept : acceptConnCb (K := K) bufferevent peer with
    | none =>
      rw [haccept] at h
      exact Or.inl (Option.some.inj h).symm
    | some s =>
      rw [haccept] at h
      exact Or.inr ⟨s, rfl, (Option.some.inj h).symm⟩
  | read i bytes env =>
    refine Or.inr (Or.inl ⟨i, bytes, env, ?_⟩)
    simp only [Peers.step, Listener.step, Option.bind_eq_some_iff, Option.map_eq_some_iff,
      Option.ite_none_right_eq_some, List.isEmpty_iff] at h
    obtain ⟨s, hs, _, ⟨live, ⟨⟩⟩, rfl⟩ := h
    exact ⟨s, rfl, hs, live, rfl⟩
  | event i events =>
    refine Or.inr (Or.inr ⟨i, events, ?_⟩)
    simp only [Peers.step, Listener.step, Option.bind_eq_some_iff, Option.map_eq_some_iff,
      Option.ite_none_right_eq_some, List.isEmpty_iff] at h
    obtain ⟨s, hs, _, ⟨live, ⟨⟩⟩, rfl⟩ := h
    refine ⟨s, rfl, hs, live, ?_⟩
    obtain ⟨hlt, rfl⟩ := List.getElem?_eq_some_iff.mp hs
    rw [List.set_getElem_self]

/-- No two challenges are made of the same values of `rand`, and those that were are in `drawn`. -/
structure Windows (rand : Nat → Nat) (p : Peers K) (turn : Nat → Nat) : Prop where
  drawn : ∀ i s, p.conns[i]? = some s → s.Challenged →
    s.peer.authenticity = randArray rand (turn i) 12 ∧ turn i + 12 ≤ p.drawn
  apart : ∀ i j s t, i ≠ j → p.conns[i]? = some s → p.conns[j]? = some t → s.Challenged → t.Challenged →
    turn i + 12 ≤ turn j ∨ turn j + 12 ≤ turn i

theorem Windows.keep {turn : Nat → Nat} (h : Windows rand p turn) (more : p.drawn ≤ q.drawn)
    (old : ∀ (i : Nat) (t : Conn K), q.conns[i]? = some t → t.Challenged →
      ∃ s : Conn K, p.conns[i]? = some s ∧ s.Challenged ∧ t.peer.authenticity = s.peer.authenticity) : Windows rand q turn where
  drawn i t ht challenged := by
    obtain ⟨s, hs, hc, hsame⟩ := old i t ht challenged
    obtain ⟨harray, hle⟩ := h.drawn i s hs hc
    exact ⟨hsame.trans harray, Nat.le_trans hle more⟩
  apart i j t u hne ht hu hct hcu := by
    obtain ⟨s, hs, hc, -⟩ := old i t ht hct
    obtain ⟨s', hs', hc', -⟩ := old j u hu hcu
    exact h.apart i j s s' hne hs hs' hc hc'

/-- A call of `rand_array` takes the next values. -/
theorem Windows.draw {turn : Nat → Nat} {j : Nat} (h : Windows rand p turn) (more : q.drawn = p.drawn + 12)
    (old : ∀ i, i ≠ j → q.conns[i]? = p.conns[i]?)
    (new : ∀ t, q.conns[j]? = some t → t.peer.authenticity = randArray rand p.drawn 12) :
    Windows rand q (Function.update turn j p.drawn) where
  drawn i t ht challenged := by
    by_cases hi : i = j
    · subst hi
      rw [Function.update_self, more]
      exact ⟨new t ht, Nat.le_refl _⟩
    · rw [Function.update_of_ne hi, more]
      rw [old i hi] at ht
      obtain ⟨harray, hle⟩ := h.drawn i t ht challenged
      exact ⟨harray, Nat.le_trans hle (Nat.le_add_right _ _)⟩
  apart i k t u hne ht hu hct hcu := by
    by_cases hi : i = j
    · subst hi
      rw [old k (Ne.symm hne)] at hu
      rw [Function.update_self, Function.update_of_ne (Ne.symm hne)]
      exact Or.inr (h.drawn k u hu hcu).2
    · rw [old i hi] at ht
      rw [Function.update_of_ne hi]
      by_cases hk : k = j
      · subst hk
        rw [Function.update_self]
        exact Or.inl (h.drawn i t ht hct).2
      · rw [old k hk] at hu
        rw [Function.update_of_ne hk]
        exact h.apart i k t u hne ht hu hct hcu

theorem windows_step {turn : Nat → Nat} (h : Windows rand p turn) (hstep : p.step rand keypair e = some q) :
    ∃ turn, Windows rand q turn := by
  rcases Peers.step_cases hstep with ⟨_, _, -, rfl | ⟨s, haccept, rfl⟩⟩ | ⟨j, bytes, env, s, -, hs, -, rfl⟩ | ⟨_, _, _, -, -, -, rfl⟩
  · exact ⟨turn, h⟩
  · refine ⟨turn, h.keep (Nat.le_refl _) fun i t ht challenged => ?_⟩
    rw [List.getElem?_append] at ht
    split at ht
    · exact ⟨t, ht, challenged, rfl⟩
    · obtain rfl := acceptConnCb_cases haccept
      obtain rfl := List.mem_singleton.mp (List.mem_of_getElem? ht)
      exact absurd challenged (not_challenged_wait (Or.inl rfl))
  · have hset : ∀ i, i ≠ j → ∀ t, (p.conns.set j t)[i]? = p.conns[i]? := fun i hi t => List.getElem?_set_ne (Ne.symm hi)
    have hat : ∀ t u, (p.conns.set j t)[j]? = some u → u = t := by
      intro t u hu
      rw [List.getElem?_set_self (List.getElem?_eq_some_iff.mp hs).1] at hu
      exact (Option.some.inj hu).symm
    by_cases calls : CallsRandArray env (s.arrived bytes)
    · refine ⟨_, h.draw (j := j) (if_pos calls) (fun i hi => hset i hi _) fun t ht => ?_⟩
      rw [hat _ t ht]
      exact authenticity_readCb calls
    · refine ⟨turn, h.keep (by rw [if_neg calls]) fun i t ht challenged => ?_⟩
      by_cases hi : i = j
      · subst hi
        have hread := hat _ t ht
        obtain ⟨hc, hsame⟩ := readCb_undrawn hread.symm calls challenged
        exact ⟨s, hs, hc, hsame⟩
      · rw [hset i hi] at ht
        exact ⟨t, ht, challenged, rfl⟩
  · exact ⟨turn, h⟩

/-! ### How much is drawn -/

theorem countP_set_add {α : Type} {l : List α} {c : α → Bool} {a : α} {i : Nat} (hlt : i < l.length) :
    (l.set i a).countP c + (if c l[i] then 1 else 0) = l.countP c + if c a then 1 else 0 := by
  rw [List.countP_set hlt]
  have hpos : c l[i] = true → 0 < l.countP c := fun h => List.countP_pos_iff.mpr ⟨_, List.getElem_mem hlt, h⟩
  split
  case isTrue h => have := hpos h; omega
  case isFalse => omega

/-- Nobody is challenged twice. -/
theorem drawn_step (h : p.drawn ≤ 12 * p.conns.countP (decide ·.Served)) (hstep : p.step rand keypair e = some q) :
    q.drawn ≤ 12 * q.conns.countP (decide ·.Served) := by
  rcases Peers.step_cases hstep with ⟨_, _, -, rfl | ⟨s, -, rfl⟩⟩ | ⟨j, bytes, env, s, -, hs, live, rfl⟩ | ⟨_, _, _, -, -, -, rfl⟩
  · exact h
  · rw [List.countP_append]
    exact Nat.le_trans h (Nat.mul_le_mul_left 12 (Nat.le_add_right _ _))
  · obtain ⟨hlt, rfl⟩ := List.getElem?_eq_some_iff.mp hs
    have hcount := countP_set_add (c := (decide ·.Served)) (a := readCb (p.env rand env) keypair (p.conns[j].arrived bytes)) hlt
    have hserved : (p.conns[j].arrived bytes).Challenged ∨ CallsRandArray (p.env rand env) (p.conns[j].arrived bytes) →
        (readCb (p.env rand env) keypair (p.conns[j].arrived bytes)).Served := served_readCb rfl
    dsimp only
    by_cases calls : CallsRandArray env (p.conns[j].arrived bytes)
    · have hbefore : ¬p.conns[j].Served := by
        rintro (hc | hfreed)
        · exact not_challenged_wait (Or.inr calls.1) hc
        · exact hfreed live
      simp only [hbefore, hserved (Or.inr calls), decide_true, decide_false, if_true, Bool.false_eq_true, if_false] at hcount
      rw [if_pos calls]
      omega
    · rw [if_neg calls]
      by_cases hc : p.conns[j].Served
      · have hafter := hserved (Or.inl (hc.resolve_right (not_not_intro live)))
        simp only [hc, hafter, decide_true, if_true] at hcount
        omega
      · simp only [hc, decide_false, Bool.false_eq_true, if_false] at hcount
        omega
  · exact h

/-! ### Each peer on its own -/

def fresh : Conn K := { peer := ⟨none, .none, Vector.replicate 12 0⟩, input := [], written := [], freed := [] }

theorem follows (rand : Nat → Nat) (keypair : K) (i : Nat) :
    Follows (Peers.step rand keypair) (fun p o => p.conns[i]? = o) (Peers.see rand i) (Listener.step keypair) fresh where
  steps p e q s hstep hs := by
    cases e with
    | accept bufferevent peer =>
      refine ⟨s, rfl, ?_⟩
      rcases Peers.step_cases hstep with ⟨_, _, -, rfl | ⟨s', -, rfl⟩⟩ | ⟨_, _, _, _, heq, -⟩ | ⟨_, _, _, heq, -⟩
      · exact hs
      · exact (List.getElem?_append_left (List.getElem?_eq_some_iff.mp hs).1).trans hs
      · cases heq
      · cases heq
    | read j bytes env =>
      rw [Peers.step, Option.bind_eq_some_iff] at hstep
      obtain ⟨s', hs', hstep⟩ := hstep
      rw [Option.map_eq_some_iff] at hstep
      obtain ⟨t, ht, rfl⟩ := hstep
      exact run_set hs hs' ht
    | event j events =>
      rw [Peers.step, Option.bind_eq_some_iff] at hstep
      obtain ⟨s', hs', hstep⟩ := hstep
      rw [Option.map_eq_some_iff] at hstep
      obtain ⟨t, ht, rfl⟩ := hstep
      exact run_set hs hs' ht
  begins p e q hstep hs := by
    have hle : p.conns.length ≤ i := List.getElem?_eq_none_iff.mp hs
    have other : ∀ {j : Nat} {s : Conn K}, p.conns[j]? = some s → i ≠ j := by
      rintro j s hj rfl
      cases hs.symm.trans hj
    rcases Peers.step_cases hstep with
      ⟨_, _, rfl, rfl | ⟨s', haccept, rfl⟩⟩ | ⟨j, _, _, s', rfl, hs', -, rfl⟩ | ⟨j, _, s', rfl, hs', -, rfl⟩
    · exact ⟨rfl, Or.inl hs⟩
    · refine ⟨rfl, ?_⟩
      dsimp only
      rw [List.getElem?_append_right hle, acceptConnCb_cases haccept]
      rcases Nat.eq_or_lt_of_le hle with hlast | hlt
      · exact Or.inr (by rw [hlast, Nat.sub_self]; rfl)
      · exact Or.inl (List.getElem?_eq_none (Nat.sub_pos_of_lt hlt))
    · exact ⟨if_neg (other hs'), Or.inl (List.getElem?_eq_none (by rwa [List.length_set]))⟩
    · exact ⟨if_neg (other hs'), Or.inl hs⟩

/-! ### Every order of events -/

/-- The peers of the process do not touch one another: each is where its own events alone would have taken it, and no
    value of `rand` is in the challenges of two. A peer makes the process draw once at most, and a challenge consists of
    letters and digits. -/
structure Apart (rand : Nat → Nat) (keypair : K) (es : List (PeersEvent K)) (p : Peers K) : Prop where
  alone : ∀ (i : Nat) (s : Conn K), p.conns[i]? = some s →
    run (Listener.step keypair) fresh (seen (Peers.step rand keypair) (Peers.see rand i) Peers.start es) = some s
  challenges : ∃ turn, Windows rand p turn
  bounded : p.drawn ≤ 12 * p.conns.length
  letters : ∀ (i : Nat) (s : Conn K), p.conns[i]? = some s → s.Challenged → ∀ b ∈ s.peer.authenticity.toList, b ∈ charset

theorem peers_apart (hr : run (Peers.step rand keypair) Peers.start es = some p) : Apart rand keypair es p := by
  have nobody : Windows rand (Peers.start (K := K)) fun _ => 0 :=
    ⟨fun _ _ h => absurd h (by simp [Peers.start]), fun _ _ _ _ _ h => absurd h (by simp [Peers.start])⟩
  have windows : ∃ turn, Windows rand p turn :=
    run_inv (I := fun p => ∃ turn, Windows rand p turn) ⟨_, nobody⟩ (fun _ _ _ ⟨_, h⟩ => windows_step h) hr
  have drawn : p.drawn ≤ 12 * p.conns.countP (decide ·.Served) :=
    run_inv (I := fun p : Peers K => p.drawn ≤ 12 * p.conns.countP (decide ·.Served)) (Nat.le_refl 0)
      (fun _ _ _ => drawn_step) hr
  obtain ⟨turn, hwindows⟩ := windows
  refine ⟨fun i s hs => ?_, ⟨turn, hwindows⟩, Nat.le_trans drawn (Nat.mul_le_mul_left 12 List.countP_le_length),
    fun i s hs challenged => ?_⟩
  · rcases (follows rand keypair i).run_fresh rfl hr with hnone | ⟨q, hq, hview⟩
    · cases hnone.symm.trans hs
    · rw [hq, ← hview, hs]
  rw [(hwindows.drawn i s hs challenged).1]
  exact mem_randArray

/-- Two peers are answered in turn; the second one is challenged first. -/
def samplePeers : List (PeersEvent UInt8) :=
  [.accept true true, .accept true true, .read 1 verifyPacket sampleEnv, .read 0 verifyPacket sampleEnv,
    .read 1 (handshakePacket vcmpTypeHsAck [9]) sampleEnv, .read 0 (handshakePacket vcmpTypeHsAck [8]) sampleEnv]

theorem peers_apart_sample : ∃ p, run (Peers.step (· + 1) 7) Peers.start samplePeers = some p ∧ Apart (· + 1) 7 samplePeers p := by
  have taken : (run (Peers.step (· + 1) 7) Peers.start samplePeers).isSome = true := by decide +kernel
  obtain ⟨p, hp⟩ := Option.isSome_iff_exists.mp taken
  exact ⟨p, hp, peers_apart hp⟩

end Vcmp.Listener
