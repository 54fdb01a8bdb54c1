import Vcmp.Theorems.Peers
import Vcmp.Theorems.PubkeyWait

/-! What a peer learns of its challenge. The packet that should carry it is cut off in front of it, so whatever a peer
    sends, it sees the same for every challenge but the one it happens to answer. -/

namespace Vcmp.Listener
open ByteMem CInt

variable {K : Type} {keypair : K} {env : Env K} {a b c : Vector UInt8 12} {s t s' t' : Conn K} {e : Event K}

/-! ### A peer that plays against the listener -/

/-- What the other end sees of a connection: the packets that were written to it, and whether it is closed. -/
structure View where
  written : List (List UInt8)
  closed : Bool

def Conn.view (s : Conn K) : View := ⟨s.written, !s.freed.isEmpty⟩

def Event.withRandArray (a : Vector UInt8 12) : Event K → Event K
  | .read bytes env => .read bytes (env.withRandArray a)
  | .event events => .event events

/-- The connection after `n` more events, if the challenge is `a`; the peer chooses each one by all that it has seen. -/
def play (keypair : K) (a : Vector UInt8 12) (next : List View → Event K) : Nat → List View → Conn K → Option (Conn K)
  | 0, _, s => some s
  | n + 1, past, s =>
    (step keypair s ((next (past ++ [s.view])).withRandArray a)).bind (play keypair a next n (past ++ [s.view]))

/-- Whether an array can be encrypted under a key does not depend on what is in it. -/
def Uniform (env : Env K) : Prop :=
  ∀ (a b : Vector UInt8 12) key, (env.rsaEncrypt a.toList key).isSome = (env.rsaEncrypt b.toList key).isSome

/-! ### Two challenges -/

def Conn.rechallenged (s : Conn K) (c : Vector UInt8 12) : Conn K := { s with peer := { s.peer with authenticity := c } }

/-- The same connection under the challenges `a` and `b`, before the peer is ready. -/
structure Twin (a b : Vector UInt8 12) (s t : Conn K) : Prop where
  same : t = s.rechallenged t.peer.authenticity
  sent : s.peer.stage = .pubkeyCheck → s.peer.authenticity = a ∧ t.peer.authenticity = b
  unready : s.peer.stage ≠ .ready

/-- The peer got through, on one of two connections that were the same so far. -/
def Parted (s t : Conn K) : Prop := s.peer.stage = .ready ∧ t.peer.stage ≠ .ready ∧ t.freed ≠ []

theorem Twin.view (h : Twin a b s t) : t.view = s.view := by
  rw [h.same]
  rfl

theorem Twin.symm (h : Twin a b s t) : Twin b a t s where
  same := by
    obtain ⟨hsame, -, -⟩ := h
    rw [hsame]
    rfl
  sent stage := by
    have hstage : s.peer.stage = .pubkeyCheck := by
      rw [h.same] at stage
      exact stage
    exact (h.sent hstage).symm
  unready := by
    rw [h.same]
    exact h.unready

/-! ### One read -/

theorem readNone_rechallenged :
    readNone env keypair (s.rechallenged c) = (readNone env keypair s).rechallenged c := by
  simp only [readNone]
  rw [apply_ite (Conn.rechallenged · c)]
  refine ite_congr rfl (fun _ => rfl) fun _ => ?_
  cases env.rsaGetDerPubkey keypair with
  | none => rfl
  | some der =>
    cases env.mallocHandshake with
    | false => rfl
    | true => cases env.write <;> rfl

theorem Twin.ite {p : Prop} [Decidable p] {u v : Conn K} (hs : p → Twin a b s t) (hu : ¬p → Twin a b u v) :
    Twin a b (if p then s else u) (if p then t else v) := by
  by_cases hp : p
  · rw [if_pos hp, if_pos hp]
    exact hs hp
  · rw [if_neg hp, if_neg hp]
    exact hu hp

theorem twin_early (stage : s.peer.stage = .none ∨ s.peer.stage = .pubkeyWait) : Twin a b s (s.rechallenged c) where
  same := rfl
  sent hcheck := by rcases stage with stage | stage <;> cases hcheck.symm.trans stage
  unready hready := by rcases stage with stage | stage <;> cases hready.symm.trans stage

theorem twin_readNone (stage : s.peer.stage = .none) :
    Twin a b (readNone (env.withRandArray a) keypair s) (readNone (env.withRandArray b) keypair (s.rechallenged c)) := by
  have hread : readNone (env.withRandArray b) keypair (s.rechallenged c) =
      (readNone (env.withRandArray a) keypair s).rechallenged c := readNone_rechallenged
  rw [hread]
  refine twin_early ?_
  rcases peer_readNone (rfl : readNone (env.withRandArray a) keypair s = _) with hsame | hwait
  · rw [hsame]
    exact Or.inl stage
  · rw [hwait]
    exact Or.inr rfl

/-- The packet of the challenge is the same, whatever was drawn. -/
theorem twin_readPubkeyWait (uniform : Uniform env) (stage : s.peer.stage = .pubkeyWait) :
    Twin a b (readPubkeyWait (env.withRandArray a) s) (readPubkeyWait (env.withRandArray b) (s.rechallenged c)) := by
  have rejected : Twin a b s.reject (s.rechallenged c).reject := twin_early (Or.inr stage)
  simp only [readPubkeyWait]
  refine Twin.ite (fun _ => rejected) fun _ => Twin.ite (fun _ => rejected) fun _ => Twin.ite (fun _ => rejected) fun _ =>
    Twin.ite (fun _ => rejected) fun _ => ?_
  cases hload : env.rsaLoadDerPubkey (ackKey s.input env.past) with
  | none =>
    rw [ackKey] at hload
    simp only [Env.withRandArray, Conn.rechallenged, Conn.drain, hload]
    exact twin_early (Or.inr stage)
  | some key =>
    have hsame := uniform a b key
    rw [ackKey] at hload
    simp only [Env.withRandArray, Conn.rechallenged, Conn.drain, hload]
    cases ha : env.rsaEncrypt a.toList key with
    | none =>
      cases hb : env.rsaEncrypt b.toList key with
      | none => exact twin_early (Or.inr stage)
      | some => simp [ha, hb] at hsame
    | some enc =>
      cases hb : env.rsaEncrypt b.toList key with
      | none => simp [ha, hb] at hsame
      | some enc' =>
        refine Twin.ite (fun _ => twin_early (Or.inr stage)) fun _ => Twin.ite (fun _ => twin_early (Or.inr stage)) fun _ => ?_
        have hwritten : (challenge env enc').bytes.take sizeofPointer = (challenge env enc).bytes.take sizeofPointer := by
          rw [take_challenge, take_challenge]
        refine ⟨?_, fun _ => ⟨rfl, rfl⟩, Stage.noConfusion⟩
        rw [challenge, challenge] at hwritten
        simp only [Conn.write, Conn.rechallenged, hwritten]

theorem twin_sent (stage : s.peer.stage = .pubkeyCheck) (challenge : s.peer.authenticity = a) :
    Twin a b s (s.rechallenged b) where
  same := rfl
  sent _ := ⟨challenge, rfl⟩
  unready hready := by cases hready.symm.trans stage

/-- Two connections that are the same so far stay so, or the peer got through on one of them. -/
def Outcome (a b : Vector UInt8 12) (s t : Conn K) : Prop := Twin a b s t ∨ Parted s t ∨ Parted t s

theorem Outcome.ite {p : Prop} [Decidable p] {u v : Conn K} (hs : Twin a b s t) (hu : ¬p → Outcome a b u v) :
    Outcome a b (if p then s else u) (if p then t else v) := by
  by_cases hp : p
  · rw [if_pos hp, if_pos hp]
    exact Or.inl hs
  · rw [if_neg hp, if_neg hp]
    exact hu hp

/-- Both connections are dropped, or the peer gets through on one. -/
theorem Outcome.compare {p q : Prop} [Decidable p] [Decidable q] {u v : Conn K} (once : ¬p → q) (dropped : Twin a b s t)
    (left : Parted u t) (right : Parted v s) : Outcome a b (if p then s else u) (if q then t else v) := by
  by_cases hp : p
  · rw [if_pos hp]
    by_cases hq : q
    · rw [if_pos hq]
      exact Or.inl dropped
    · rw [if_neg hq]
      exact Or.inr (Or.inr right)
  · rw [if_neg hp, if_pos (once hp)]
    exact Or.inr (Or.inl left)

theorem parted_check {u v : Conn K} {key : Option K} (stage : s.peer.stage = .pubkeyCheck) (ready : u.peer.stage = .ready)
    (dropped : v = s.rejectKey key) : Parted u v := by
  subst dropped
  refine ⟨ready, ?_, by simp [Conn.rejectKey]⟩
  rw [Conn.rejectKey, stage]
  exact Stage.noConfusion

/-- The answer is compared with the challenge, and is not two of them. -/
theorem outcome_readPubkeyCheck (hne : a ≠ b) (stage : s.peer.stage = .pubkeyCheck) (sent : s.peer.authenticity = a) :
    Outcome a b (readPubkeyCheck (env.withRandArray a) keypair s)
      (readPubkeyCheck (env.withRandArray b) keypair (s.rechallenged b)) := by
  have rejected : Twin a b s.reject (s.rechallenged b).reject := twin_sent stage sent
  have dropped : Twin a b (s.rejectKey s.peer.pubkey) ((s.rechallenged b).rejectKey s.peer.pubkey) := twin_sent stage sent
  simp only [readPubkeyCheck]
  refine Outcome.ite rejected fun _ => Outcome.ite dropped fun _ => Outcome.ite dropped fun _ => Outcome.ite dropped fun _ => ?_
  cases hdec : env.rsaDecrypt (dataPayload s.input env.past) keypair with
  | none =>
    rw [dataPayload] at hdec
    simp only [Env.withRandArray, Conn.rechallenged, Conn.drain, hdec]
    exact Or.inl (twin_sent stage sent)
  | some dec =>
    rw [dataPayload] at hdec
    simp only [Env.withRandArray, Conn.rechallenged, Conn.drain, hdec, sent]
    refine Outcome.compare (fun ha hb => hne (Vector.toList_inj.mp ((not_not.mp ha).trans hb.symm))) (twin_sent stage sent)
      (parted_check (s := (s.rechallenged b).drain _) stage rfl rfl) (parted_check (s := s.drain _) stage rfl rfl)

theorem outcome_readCb (hne : a ≠ b) (uniform : Uniform env) (h : Twin a b s t) :
    Outcome a b (readCb (env.withRandArray a) keypair s) (readCb (env.withRandArray b) keypair t) := by
  have hsame := h.same
  have rejected : Twin a b s.reject t.reject := by
    rw [hsame]
    exact ⟨rfl, h.sent, h.unready⟩
  have hstage : t.peer.stage = s.peer.stage := by rw [hsame]; rfl
  have hinput : t.input = s.input := by rw [hsame]; rfl
  rw [readCb, readCb, hinput, hstage]
  refine Outcome.ite rejected fun header => ?_
  cases hstage : s.peer.stage with
  | none =>
    rw [hsame]
    exact Or.inl (twin_readNone hstage)
  | pubkeyWait =>
    rw [hsame]
    exact Or.inl (twin_readPubkeyWait uniform hstage)
  | pubkeyCheck =>
    obtain ⟨ha, hb⟩ := h.sent hstage
    rw [hsame, hb]
    exact outcome_readPubkeyCheck hne hstage ha
  | ready => exact absurd hstage h.unready

/-! ### Every strategy -/

section Play
variable {next : List View → Event K} {n m : Nat} {past : List View}

theorem outcome_step (keypair : K) (hne : a ≠ b) (uniform : ∀ bytes env, e = .read bytes env → Uniform env) (h : Twin a b s t) :
    Option.Rel (Outcome a b) (step keypair s (e.withRandArray a)) (step keypair t (e.withRandArray b)) := by
  have hlive : t.freed.isEmpty = s.freed.isEmpty := by rw [h.same]; rfl
  cases e with
  | read bytes env =>
    rw [Event.withRandArray, Event.withRandArray, step, step, hlive]
    by_cases live : s.freed.isEmpty = true
    · rw [if_pos live, if_pos live]
      have arrived : Twin a b (s.arrived bytes) (t.arrived bytes) :=
        ⟨by rw [Conn.arrived, Conn.arrived, h.same]; rfl, h.sent, h.unready⟩
      exact .some (outcome_readCb hne (uniform bytes env rfl) arrived)
    · rw [if_neg live, if_neg live]
      exact .none
  | event events =>
    rw [Event.withRandArray, Event.withRandArray, step, step, hlive]
    by_cases live : s.freed.isEmpty = true
    · rw [if_pos live, if_pos live]
      exact .some (Or.inl h)
    · rw [if_neg live, if_neg live]
      exact .none

theorem play_succ (h : step keypair s ((next (past ++ [s.view])).withRandArray a) = some t) :
    play keypair a next (n + 1) past s = play keypair a next n (past ++ [s.view]) t := by
  rw [play, h]
  rfl

/-- Nothing happens on a connection that is closed. -/
theorem play_closed (closed : s.freed ≠ []) (h : play keypair a next n past s = some t) : t = s := by
  cases n with
  | zero => exact (Option.some.inj h).symm
  | succ n =>
    rw [play, Option.bind_eq_some_iff] at h
    obtain ⟨u, hu, -⟩ := h
    exact absurd (step_cases hu).1 closed

theorem play_split (h : play keypair a next (n + 1) past s = some t) :
    ∃ u, step keypair s ((next (past ++ [s.view])).withRandArray a) = some u ∧
      play keypair a next n (past ++ [s.view]) u = some t := by
  rwa [play, Option.bind_eq_some_iff] at h

variable (hne : a ≠ b) (uniform : ∀ past bytes env, next past = .read bytes env → Uniform env)
include hne uniform

/-- The same strategy does not get through under two challenges. -/
theorem once_ready (h : Twin a b s t) (hs : play keypair a next n past s = some s') (ready : s'.peer.stage = .ready)
    (ht : play keypair b next m past t = some t') : t'.peer.stage ≠ .ready := by
  induction n generalizing m past s t with
  | zero =>
    obtain rfl := Option.some.inj hs
    exact absurd ready h.unready
  | succ n ih =>
    cases m with
    | zero =>
      obtain rfl := Option.some.inj ht
      exact h.symm.unready
    | succ m =>
      obtain ⟨u, hu, hs⟩ := play_split hs
      obtain ⟨v, hv, ht⟩ := play_split ht
      have hstep := outcome_step keypair hne (uniform (past ++ [s.view])) h
      rw [h.view] at hv ht
      rw [hu, hv] at hstep
      cases hstep with
      | some hout =>
        rcases hout with htwin | ⟨-, unready, closed⟩ | ⟨-, unready, closed⟩
        · exact ih htwin hs ht
        · rwa [play_closed closed ht]
        · rw [play_closed closed hs] at ready
          exact absurd ready unready

/-- Two challenges that the strategy does not answer look the same to it. -/
theorem same_view (h : Twin a b s t) (failsA : ∀ n s', play keypair a next n past s = some s' → s'.peer.stage ≠ .ready)
    (failsB : ∀ n t', play keypair b next n past t = some t' → t'.peer.stage ≠ .ready) :
    (play keypair a next n past s).map Conn.view = (play keypair b next n past t).map Conn.view := by
  induction n generalizing past s t with
  | zero => exact congrArg some h.view.symm
  | succ n ih =>
    have hstep := outcome_step keypair hne (uniform (past ++ [s.view])) h
    cases hu : step keypair s ((next (past ++ [s.view])).withRandArray a) with
    | none =>
      cases hv : step keypair t ((next (past ++ [s.view])).withRandArray b) with
      | none =>
        rw [play, play, h.view, hu, hv]
        rfl
      | some v =>
        rw [hu, hv] at hstep
        cases hstep
    | some u =>
      cases hv : step keypair t ((next (past ++ [s.view])).withRandArray b) with
      | none =>
        rw [hu, hv] at hstep
        cases hstep
      | some v =>
        rw [hu, hv] at hstep
        rw [← h.view] at hv
        have nextA : ∀ n, play keypair a next (n + 1) past s = play keypair a next n (past ++ [s.view]) u :=
          fun n => play_succ hu
        have nextB : ∀ n, play keypair b next (n + 1) past t = play keypair b next n (past ++ [s.view]) v :=
          fun n => h.view ▸ play_succ hv
        cases hstep with
        | some hout =>
          rcases hout with htwin | ⟨ready, -⟩ | ⟨ready, -⟩
          · rw [nextA, nextB]
            exact ih htwin (fun n s' hs => failsA (n + 1) s' (nextA n ▸ hs)) fun n t' ht => failsB (n + 1) t' (nextB n ▸ ht)
          · exact absurd ready (failsA 1 u (nextA 0))
          · exact absurd ready (failsB 1 v (nextB 0))

end Play

/-- Every challenge but `guess` looks the same to the peer, and does not let it through. -/
structure Blind (keypair : K) (next : List View → Event K) (guess : Vector UInt8 12) : Prop where
  fails : ∀ a, a ≠ guess → ∀ n s, play keypair a next n [] fresh = some s → s.peer.stage ≠ .ready
  same : ∀ a b, a ≠ guess → b ≠ guess → ∀ n,
    (play keypair a next n [] fresh).map Conn.view = (play keypair b next n [] fresh).map Conn.view

theorem twin_fresh : Twin a b (fresh (K := K)) fresh := ⟨rfl, Stage.noConfusion, Stage.noConfusion⟩

theorem challenge_blind {next : List View → Event K}
    (uniform : ∀ past bytes env, next past = .read bytes env → Uniform env) : ∃ guess, Blind keypair next guess := by
  have same : ∀ guess : Vector UInt8 12, (∀ a, a ≠ guess → ∀ n s, play keypair a next n [] fresh = some s →
      s.peer.stage ≠ .ready) → Blind keypair next guess := by
    refine fun guess fails => ⟨fails, fun a b ha hb n => ?_⟩
    by_cases hab : a = b
    · rw [hab]
    · exact same_view hab uniform twin_fresh (fails a ha) (fails b hb)
  by_cases hready : ∃ g n s, play keypair g next n [] fresh = some s ∧ s.peer.stage = .ready
  · obtain ⟨g, n, s, hs, ready⟩ := hready
    exact ⟨g, same g fun a ha m t ht => once_ready (Ne.symm ha) uniform twin_fresh hs ready ht⟩
  · exact ⟨Vector.replicate 12 0, same _ fun a _ n s hs ready => hready ⟨a, n, s, hs, ready⟩⟩

/-- A peer with key 9 that answers with a guess. -/
def sampleGuess (past : List View) : Event UInt8 :=
  .read ([verifyPacket, handshakePacket vcmpTypeHsAck [9], dataPacket (List.replicate 24 0) (7 :: sampleEnv.randArray.toList)].getD
    (past.length - 1) []) sampleEnv

theorem challenge_blind_sample : (∃ guess, Blind 7 sampleGuess guess) ∧
    (play 7 sampleEnv.randArray sampleGuess 3 [] fresh).map (·.peer.stage) = some .ready := by
  refine ⟨challenge_blind ?_, by decide +kernel⟩
  rintro past bytes env ⟨⟩ a b key
  rfl

end Vcmp.Listener
