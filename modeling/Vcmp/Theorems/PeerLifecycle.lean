import Vcmp.Theorems.Staging

/-! The peer object, its bufferevent and its public key as resources, branch by branch. -/

namespace Vcmp.Listener
open ByteMem CInt Lts

variable {K : Type} {env : Env K} {keypair key : K} {es : List (Event K)} {start s t : Conn K} {e : Event K}
  {bytes : List UInt8}

/-! ### What the branches free -/

theorem freed_reject (h : s.reject = t) : t.freed = s.freed ++ [.peer, .bufferevent] := h ▸ rfl

theorem freed_rejectKey {key : Option K} (h : s.rejectKey key = t) :
    t.freed = s.freed ++ (key.toList.map .pubkey ++ [.peer, .bufferevent]) := h ▸ rfl

theorem freed_readNone (h : readNone env keypair s = t) : t.freed = s.freed ++ [.peer, .bufferevent] ∨ t.freed = s.freed := by
  simp only [readNone] at h
  rcases passed h freed_reject with hfreed | ⟨-, h⟩
  · exact Or.inl hfreed
  cases hder : env.rsaGetDerPubkey keypair with
  | none =>
    rw [hder] at h
    have hfreed := freed_reject h
    exact Or.inl hfreed
  | some der =>
    rw [hder] at h
    cases hmalloc : env.mallocHandshake with
    | false =>
      rw [hmalloc] at h
      have hfreed := freed_reject h
      exact Or.inl hfreed
    | true =>
      rw [hmalloc] at h
      rcases passed h freed_reject with hfreed | ⟨-, h⟩
      · exact Or.inl hfreed
      · exact Or.inr (h ▸ rfl)

/-- The key of an `HS_ACK` that passes the checks of `PUBKEY_WAIT`, once it is loaded. -/
def Acked (env : Env K) (s : Conn K) (key : K) : Prop :=
  AckIn s.input env.past ∧ env.rsaLoadDerPubkey (ackKey s.input env.past) = some key

/-- `PUBKEY_WAIT` frees the key that it has loaded, wherever it fails behind that. -/
theorem freed_readPubkeyWait (header : sizeofHeader ≤ s.input.length) (h : readPubkeyWait env s = t) :
    ((∀ key, ¬Acked env s key) ∧ t.freed = s.freed ++ [.peer, .bufferevent]) ∨
    (∃ key, Acked env s key ∧ t.freed = s.freed ++ [.pubkey key, .peer, .bufferevent]) ∨
    t.freed = s.freed := by
  simp only [readPubkeyWait] at h
  by_cases hack : AckIn s.input env.past
  · rw [if_neg (Nat.not_le_of_lt hack.long), if_neg (not_not.mpr hack.exact), if_neg (not_not.mpr hack.valid),
      if_neg (not_not.mpr hack.type)] at h
    cases hload : env.rsaLoadDerPubkey (ackKey s.input env.past) with
    | none =>
      have hnone : ∀ key, ¬Acked env s key := by
        rintro key ⟨-, hkey⟩
        cases hload.symm.trans hkey
      rw [ackKey] at hload
      rw [hload] at h
      have hfreed := freed_reject h
      exact Or.inl ⟨hnone, hfreed⟩
    | some key =>
      have hacked : Acked env s key := ⟨hack, hload⟩
      rw [ackKey] at hload
      simp only [hload] at h
      refine Or.inr ?_
      cases henc : env.rsaEncrypt env.randArray.toList key with
      | none =>
        rw [henc] at h
        have hfreed := freed_rejectKey h
        exact Or.inl ⟨key, hacked, hfreed⟩
      | some enc =>
        rw [henc] at h
        rcases passed h freed_rejectKey with hfreed | ⟨-, h⟩
        · exact Or.inl ⟨key, hacked, hfreed⟩
        rcases passed h freed_rejectKey with hfreed | ⟨-, h⟩
        · exact Or.inl ⟨key, hacked, hfreed⟩
        · exact Or.inr (h ▸ rfl)
  · rcases passed_packet h freed_reject freed_reject with hfreed | ⟨⟨hlong, hexact, hvalid, htype⟩, -⟩
    · exact Or.inl ⟨fun key hkey => hack hkey.1, hfreed⟩
    · exact absurd ⟨header, Nat.lt_of_not_le hlong, not_not.mp hexact, not_not.mp hvalid, not_not.mp htype⟩ hack

/-- `PUBKEY_CHECK` frees the stored key as well, unless the packet is too short for a data packet. -/
theorem freed_readPubkeyCheck (h : readPubkeyCheck env keypair s = t) :
    (toSize (toInt s.input.length) ≤ sizeofData ∧ t.freed = s.freed ++ [.peer, .bufferevent]) ∨
    (¬toSize (toInt s.input.length) ≤ sizeofData ∧
      (t.freed = s.freed ++ (s.peer.pubkey.toList.map .pubkey ++ [.peer, .bufferevent]) ∨ t.freed = s.freed)) := by
  simp only [readPubkeyCheck] at h
  by_cases hshort : toSize (toInt s.input.length) ≤ sizeofData
  · rw [if_pos hshort] at h
    exact Or.inl ⟨hshort, freed_reject h⟩
  · rw [if_neg hshort] at h
    refine Or.inr ⟨hshort, ?_⟩
    rcases passed h freed_rejectKey with hfreed | ⟨-, h⟩
    · exact Or.inl hfreed
    rcases passed h freed_rejectKey with hfreed | ⟨-, h⟩
    · exact Or.inl hfreed
    rcases passed h freed_rejectKey with hfreed | ⟨-, h⟩
    · exact Or.inl hfreed
    cases hdec : env.rsaDecrypt (dataPayload s.input env.past) keypair with
    | none =>
      rw [dataPayload] at hdec
      rw [hdec] at h
      have hfreed := freed_rejectKey h
      exact Or.inl hfreed
    | some dec =>
      rw [dataPayload] at hdec
      simp only [hdec] at h
      rcases passed h freed_rejectKey with hfreed | ⟨-, h⟩
      · exact Or.inl hfreed
      · exact Or.inr (h ▸ rfl)

/-! ### The lifecycle -/

/-- `BEV_EVENT_EOF | BEV_EVENT_ERROR` -/
def bevEventEofError : UInt16 := 0x10 ||| 0x20

/-- The key that was loaded by the end of the step: the stored one, or the one that arrives. -/
inductive Loaded (s : Conn K) : Event K → K → Prop
  | stored {e : Event K} {key : K} (pubkey : s.peer.pubkey = some key) : Loaded s e key
  | acked {bytes : List UInt8} {env : Env K} {key : K} (stage : s.peer.stage = .pubkeyWait)
      (acked : Acked env { s with input := s.input ++ bytes } key) : Loaded s (.read bytes env) key

/-- The connection is over: something was freed, or libevent reports its end or an error. -/
def Ends (e : Event K) (t : Conn K) : Prop :=
  t.freed ≠ [] ∨ ∃ events, e = .event events ∧ events &&& bevEventEofError ≠ 0

/-- The peer, the bufferevent and the key, where one was loaded, were released once. -/
def Released (s : Conn K) (e : Event K) (freed : List (Resource K)) : Prop :=
  ∃ key? : Option K, (∀ key, key? = some key ↔ Loaded s e key) ∧
    freed.Perm (key?.toList.map .pubkey ++ [.peer, .bufferevent])

/-- A step uses a connection of which nothing was released, and if it is the last one, all is released once. -/
def Lifecycle (s : Conn K) (e : Event K) (t : Conn K) : Prop := s.freed = [] ∧ (Ends e t → Released s e t.freed)

/-- A connection with a key gets a packet without a header or, in `PUBKEY_CHECK`, one that is no data packet; or
    it ends by an event. -/
def Leaks (s : Conn K) : Event K → Prop
  | .read bytes _ => (s.peer.pubkey.isSome = true ∧ (s.input ++ bytes).length < sizeofHeader) ∨
      (s.peer.stage = .pubkeyCheck ∧ toSize (toInt (s.input ++ bytes).length) ≤ sizeofData)
  | .event events => events &&& bevEventEofError ≠ 0

/-- A key is stored exactly from `PUBKEY_CHECK` on. -/
def Keyed (s : Conn K) : Prop := s.peer.pubkey.isSome = true ↔ s.peer.stage = .pubkeyCheck ∨ s.peer.stage = .ready

theorem keyed_step (keyed : Keyed s) (h : step keypair s e = some t) (live : t.freed = []) : Keyed t := by
  obtain ⟨-, ⟨bytes, env, rfl, hfreed | hreads⟩ | ⟨-, rfl⟩⟩ := step_cases h
  · exact absurd live hfreed
  · cases hreads with
    | verified stage =>
      rw [Keyed, stage] at keyed
      simpa [Keyed, Conn.answered] using keyed
    | acknowledged => exact iff_of_true rfl (Or.inl rfl)
    | authenticated stage => exact iff_of_true (keyed.mpr (Or.inl stage)) (Or.inr rfl)
    | idle => exact keyed
  · exact keyed

theorem released_bare (h : ∀ key, ¬Loaded s e key) : Released s e [.peer, .bufferevent] :=
  ⟨none, fun key => iff_of_false (by rintro ⟨⟩) (h key), List.Perm.refl _⟩

theorem released_key (h : Loaded s e key) (unique : ∀ key', Loaded s e key' → key' = key) :
    Released s e [.pubkey key, .peer, .bufferevent] := by
  refine ⟨some key, fun key' => ⟨?_, fun hkey => congrArg some (unique key' hkey).symm⟩, List.Perm.refl _⟩
  rintro ⟨⟩
  exact h

theorem not_released (h : Loaded s e key) : ¬Released s e [.peer, .bufferevent] := by
  rintro ⟨key?, hkey, hperm⟩
  rw [(hkey key).mpr h] at hperm
  exact absurd hperm.length_eq (by simp)

theorem not_released_nil : ¬Released s e [] := by
  rintro ⟨key?, -, hperm⟩
  have hlen := hperm.length_eq
  simp at hlen

theorem ends_read : Ends (.read bytes env) t ↔ t.freed ≠ [] := by
  constructor
  · rintro (h | ⟨events, heq, -⟩)
    · exact h
    · cases heq
  · exact Or.inl

/-! ### One read -/

/-- Where a packet has a header, only `PUBKEY_CHECK` can lose the key. -/
theorem not_leaks_read (hlong : sizeofHeader ≤ (s.input ++ bytes).length)
    (hcheck : s.peer.stage = .pubkeyCheck → ¬toSize (toInt (s.input ++ bytes).length) ≤ sizeofData) :
    ¬Leaks s (.read bytes env) := by
  rintro (⟨-, hshort⟩ | ⟨stage, hle⟩)
  · exact Nat.not_le_of_lt hshort hlong
  · exact hcheck stage hle

section Read
variable (keyed : Keyed s)
include keyed

theorem pubkey_none (stage : ¬(s.peer.stage = .pubkeyCheck ∨ s.peer.stage = .ready)) : s.peer.pubkey = none := by
  rw [← Option.not_isSome_iff_eq_none]
  exact fun hsome => stage (keyed.mp hsome)

theorem pubkey_some (stage : s.peer.stage = .pubkeyCheck ∨ s.peer.stage = .ready) : ∃ key, s.peer.pubkey = some key :=
  Option.isSome_iff_exists.mp (keyed.mpr stage)

theorem not_loaded (stage : s.peer.stage = .none) (key : K) : ¬Loaded s e key := by
  rintro (hstored | ⟨stage', -⟩)
  · cases (pubkey_none keyed (by simp [stage])).symm.trans hstored
  · cases stage.symm.trans stage'

theorem loaded_wait (stage : s.peer.stage = .pubkeyWait) :
    Loaded s (.read bytes env) key ↔ Acked env { s with input := s.input ++ bytes } key := by
  constructor
  · rintro (hstored | ⟨-, hack⟩)
    · cases (pubkey_none keyed (by simp [stage])).symm.trans hstored
    · exact hack
  · exact .acked stage

/-- A stored key is the only one. -/
theorem loaded_stored {key' : K} (hkey : s.peer.pubkey = some key) (loaded : Loaded s e key') : key' = key := by
  rcases loaded with hstored | ⟨stage, -⟩
  · exact Option.some.inj (hstored.symm.trans hkey)
  · cases (pubkey_none keyed (by simp [stage])).symm.trans hkey

theorem lifecycle_short (live : s.freed = []) (hshort : (s.input ++ bytes).length < sizeofHeader)
    (h : readCb env keypair { s with input := s.input ++ bytes } = t) :
    (Ends (.read bytes env) t → Released s (.read bytes env) t.freed) ↔ ¬Leaks s (.read bytes env) := by
  have hfreed : t.freed = [.peer, .bufferevent] := by
    rw [readCb, if_pos hshort] at h
    rw [freed_reject h, live]
    rfl
  rw [ends_read, hfreed]
  cases hkey : s.peer.pubkey with
  | none =>
    have hnone : ∀ key, ¬Loaded s (.read bytes env) key := by
      rintro key (hstored | ⟨stage, hack, -⟩)
      · cases hkey.symm.trans hstored
      · exact absurd hack.header (Nat.not_le_of_lt hshort)
    refine iff_of_true (fun _ => released_bare hnone) ?_
    rintro (⟨hsome, -⟩ | ⟨stage, -⟩)
    · rw [hkey] at hsome
      cases hsome
    · obtain ⟨key, hsome⟩ := pubkey_some keyed (Or.inl stage)
      cases hkey.symm.trans hsome
  | some key =>
    have hleaks : Leaks s (.read bytes env) := Or.inl ⟨hkey ▸ rfl, hshort⟩
    exact iff_of_false (fun h => not_released (.stored hkey) (h (List.cons_ne_nil _ _))) (not_not_intro hleaks)

theorem lifecycle_read (live : s.freed = []) (h : readCb env keypair { s with input := s.input ++ bytes } = t) :
    (Ends (.read bytes env) t → Released s (.read bytes env) t.freed) ↔ ¬Leaks s (.read bytes env) := by
  by_cases hshort : (s.input ++ bytes).length < sizeofHeader
  · exact lifecycle_short keyed live hshort h
  have hlong : sizeofHeader ≤ (s.input ++ bytes).length := Nat.le_of_not_lt hshort
  rw [readCb, if_neg hshort] at h
  rw [ends_read]
  cases hstage : s.peer.stage with
  | none =>
    simp only [hstage] at h
    refine iff_of_true (fun hne => ?_) (not_leaks_read hlong fun stage => by cases hstage.symm.trans stage)
    rcases freed_readNone h with hfreed | hsame
    · rw [hfreed, live]
      exact released_bare (not_loaded keyed hstage)
    · exact absurd (hsame.trans live) hne
  | pubkeyWait =>
    simp only [hstage] at h
    refine iff_of_true (fun hne => ?_) (not_leaks_read hlong fun stage => by cases hstage.symm.trans stage)
    rcases freed_readPubkeyWait hlong h with ⟨hnone, hfreed⟩ | ⟨key, hack, hfreed⟩ | hsame
    · rw [hfreed, live]
      exact released_bare fun key hkey => hnone key ((loaded_wait keyed hstage).mp hkey)
    · rw [hfreed, live]
      refine released_key ((loaded_wait keyed hstage).mpr hack) fun key' hkey => ?_
      exact Option.some.inj (((loaded_wait keyed hstage).mp hkey).2.symm.trans hack.2)
    · exact absurd (hsame.trans live) hne
  | pubkeyCheck =>
    obtain ⟨key, hkey⟩ := pubkey_some keyed (Or.inl hstage)
    simp only [hstage] at h
    rcases freed_readPubkeyCheck h with ⟨hle, hfreed⟩ | ⟨hlt, hfreed⟩
    · have hleaks : Leaks s (.read bytes env) := Or.inr ⟨hstage, hle⟩
      rw [hfreed, live]
      exact iff_of_false (fun h => not_released (.stored hkey) (h (List.cons_ne_nil _ _))) (not_not_intro hleaks)
    · refine iff_of_true (fun hne => ?_) (not_leaks_read hlong fun _ => hlt)
      rcases hfreed with hfreed | hsame
      · rw [hfreed, live, hkey]
        exact released_key (.stored hkey) fun key' => loaded_stored keyed hkey
      · exact absurd (hsame.trans live) hne
  | ready =>
    simp only [hstage] at h
    refine iff_of_true (fun hne => ?_) (not_leaks_read hlong fun stage => by cases hstage.symm.trans stage)
    exact absurd (h ▸ live) hne

end Read

/-! ### Runs -/

theorem lifecycle_step (keyed : Keyed s) (h : step keypair s e = some t) : Lifecycle s e t ↔ ¬Leaks s e := by
  have live := (step_cases h).1
  rw [Lifecycle, and_iff_right live]
  cases e with
  | read bytes env =>
    rw [step, Option.ite_none_right_eq_some] at h
    exact lifecycle_read keyed live (Option.some.inj h.2)
  | event events =>
    rw [step, Option.ite_none_right_eq_some] at h
    obtain rfl := Option.some.inj h.2
    have hends : Ends (.event events) s ↔ events &&& bevEventEofError ≠ 0 := by simp [Ends, live]
    rw [hends, live]
    exact ⟨fun h bits => not_released_nil (h bits), fun h bits => absurd bits h⟩

/-- The lifecycle of an accepted connection is kept throughout a run exactly if no step leaks. -/
theorem peer_lifecycle_iff {bufferevent peer : Bool} (accept : acceptConnCb bufferevent peer = some start) :
    EachStep (step keypair) Lifecycle start es ↔ EachStep (step keypair) (fun s e _ => ¬Leaks s e) start es := by
  have fresh : start.freed = [] → Keyed start := by
    obtain rfl := acceptConnCb_cases accept
    exact fun _ => by simp [Keyed]
  refine eachStep_iff (I := fun s => s.freed = [] → Keyed s) fresh ?_ ?_
  · intro s e t keyed h _ live
    exact keyed_step (keyed (step_cases h).1) h live
  · intro s e t keyed h
    exact lifecycle_step (keyed (step_cases h).1) h

theorem peer_lifecycle_iff_sample : EachStep (step 7) Lifecycle sampleStart [.event 0x10] ↔
    EachStep (step 7) (fun s e _ => ¬Leaks s e) sampleStart [.event 0x10] :=
  peer_lifecycle_iff (show acceptConnCb true true = some sampleStart from rfl)

/-- A peer that goes away: nothing is released. -/
theorem eof_leaks : ¬EachStep (step (7 : UInt8)) Lifecycle sampleStart [.event 0x10] := by
  intro h
  exact not_released_nil ((h sampleStart rfl).1.2 (Or.inr ⟨0x10, rfl, by decide⟩))

end Vcmp.Listener
