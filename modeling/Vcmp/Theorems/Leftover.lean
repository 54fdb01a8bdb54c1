import Mathlib.Data.Option.Basic
import Vcmp.Theorems.ConnectRequest

/-! What a SOCKS5 connection does, against what `malloc` left in its context. -/

namespace Vcmp.Socks5
open ByteMem CInt Lts Rfc1928

/-- The cases of `switch (s5_ctx->stage)`. -/
inductive StageCase where
  | ident
  | request
  | connected
  | other
  deriving DecidableEq

def stageCase (stage : UInt32) : StageCase :=
  if stage = socks5StageIdent then .ident
  else if stage = socks5StageRequest then .request
  else if stage = socks5StageConnected then .connected
  else .other

variable {σ : Type} {app : App σ} {env : Env} {s t : Conn σ} {dest : Destination} {port : UInt16}

/-! ### Two runs -/

/-- The same was written, freed and told to the application, and a read would take the same case. -/
structure SameSoFar (s t : Conn σ) : Prop where
  written : s.written = t.written
  freed : s.freed = t.freed
  app : s.app = t.app
  stage : stageCase s.ctx.stage = stageCase t.ctx.stage

/-- Contexts that send the same requests. -/
def SameRequest (ctx₁ ctx₂ : Ctx) : Prop := ∀ malloc write, socks5SendReq malloc write ctx₁ = socks5SendReq malloc write ctx₂

/-- Two connections that no callback tells apart. -/
structure Alike (s t : Conn σ) : Prop extends SameSoFar s t where
  input : s.input = t.input
  request : SameRequest s.ctx t.ctx

theorem sendReq_stage (ctx : Ctx) (stage : UInt32) (malloc : Option Mem) (write : Bool) :
    socks5SendReq malloc write { ctx with stage } = socks5SendReq malloc write ctx := by
  obtain ⟨⟨hostname, ipv4Addr, dstPort, old⟩, addressed⟩ := ctx
  cases malloc with
  | none => rfl
  | some buf => cases ipv4Addr <;> cases hostname <;> rfl

theorem Alike.setStage (alike : Alike s t) (stage : UInt32) : Alike (s.setStage stage) (t.setStage stage) := by
  refine ⟨⟨alike.written, alike.freed, alike.app, rfl⟩, alike.input, fun malloc write => ?_⟩
  exact (sendReq_stage _ _ _ _).trans ((alike.request malloc write).trans (sendReq_stage _ _ _ _).symm)

theorem Alike.drain (alike : Alike s t) (n : Nat) : Alike (s.drain n) (t.drain n) :=
  ⟨⟨alike.written, alike.freed, alike.app, alike.stage⟩, congrArg (List.drop n) alike.input, alike.request⟩

theorem Alike.callEvent (alike : Alike s t) (events : UInt16) : Alike (s.callEvent app events) (t.callEvent app events) := by
  unfold Conn.callEvent
  cases app.eventcb with
  | none => exact alike
  | some eventcb =>
    exact ⟨⟨alike.written, alike.freed, congrArg (eventcb events) alike.app, alike.stage⟩, alike.input, alike.request⟩

theorem Alike.free (alike : Alike s t) (resources : List Resource) :
    Alike { s with freed := s.freed ++ resources } { t with freed := t.freed ++ resources } :=
  ⟨⟨alike.written, congrArg (· ++ resources) alike.freed, alike.app, alike.stage⟩, alike.input, alike.request⟩

theorem Alike.fail (alike : Alike s t) : Alike (s.fail app) (t.fail app) := (alike.callEvent bevEventError).free _

theorem Alike.readIdent (alike : Alike s t) : Alike (readIdent app env s) (readIdent app env t) := by
  simp only [Socks5.readIdent, alike.input, alike.request env.malloc env.write]
  split
  · exact alike.fail
  split
  · split
    · exact alike.fail
    · refine Alike.drain (Alike.setStage ?_ _) _
      exact ⟨⟨by rw [alike.written], alike.freed, alike.app, alike.stage⟩, rfl, alike.request⟩
  · exact alike.fail

theorem Alike.readRequest (alike : Alike s t) : Alike (readRequest app env s) (readRequest app env t) := by
  simp only [Socks5.readRequest, alike.input]
  split
  · exact alike.fail
  split
  · exact alike.fail
  · exact ((alike.drain _).setStage _).callEvent _

theorem Alike.readConnected (alike : Alike s t) : Alike (readConnected app s) (readConnected app t) := by
  unfold Socks5.readConnected
  cases app.readcb with
  | none => exact alike
  | some readcb =>
    have hread : readcb s.input s.app = readcb t.input t.app := by rw [alike.input, alike.app]
    refine ⟨⟨alike.written, alike.freed, ?_, alike.stage⟩, ?_, alike.request⟩
    · exact congrArg Prod.snd hread
    · exact congrArg Prod.fst hread

theorem readCb_eq (env : Env) (s : Conn σ) : readCb app env s =
    match stageCase s.ctx.stage with
    | .ident => readIdent app env s
    | .request => readRequest app env s
    | .connected => readConnected app s
    | .other => s := by
  unfold readCb stageCase
  split_ifs <;> rfl

theorem Alike.readCb (alike : Alike s t) : Alike (readCb app env s) (readCb app env t) := by
  rw [readCb_eq, readCb_eq, ← alike.stage]
  cases stageCase s.ctx.stage with
  | ident => exact alike.readIdent
  | request => exact alike.readRequest
  | connected => exact alike.readConnected
  | other => exact alike

theorem connected_iff (stage : UInt32) : stage = socks5StageConnected ↔ stageCase stage = .connected := by
  unfold stageCase
  split_ifs with hident hrequest hconnected <;> simp_all [socks5StageConnected, socks5StageIdent, socks5StageRequest]

theorem Alike.writeCb (alike : Alike s t) : Alike (writeCb app s) (writeCb app t) := by
  simp only [Socks5.writeCb, connected_iff, alike.stage]
  split
  · cases app.writecb with
    | none => exact alike
    | some writecb =>
      exact ⟨⟨alike.written, alike.freed, congrArg writecb alike.app, alike.stage⟩, alike.input, alike.request⟩
  · exact alike

theorem Alike.eventCb (alike : Alike s t) (events : UInt16) : Alike (eventCb app env events s) (eventCb app env events t) := by
  unfold Socks5.eventCb
  split
  · split
    · exact alike.fail
    · refine Alike.setStage ?_ _
      exact ⟨⟨by rw [alike.written], alike.freed, alike.app, alike.stage⟩, alike.input, alike.request⟩
  split
  · exact (alike.callEvent _).free _
  · exact alike

/-- Whatever libevent reports, two connections that are alike both take it and stay alike, or both do not. -/
theorem Alike.step (alike : Alike s t) (e : Event) : Option.Rel Alike (step app s e) (step app t e) := by
  unfold Socks5.step
  by_cases hfreed : .bufferevent ∈ s.freed
  · rw [if_pos hfreed, if_pos (alike.freed ▸ hfreed)]
    exact .none
  · rw [if_neg hfreed, if_neg (alike.freed ▸ hfreed)]
    cases e with
    | read bytes env =>
      have hread : Alike { s with input := s.input ++ bytes } { t with input := t.input ++ bytes } :=
        ⟨⟨alike.written, alike.freed, alike.app, alike.stage⟩, congrArg (· ++ bytes) alike.input, alike.request⟩
      exact .some hread.readCb
    | write => exact .some alike.writeCb
    | event events env => exact .some (alike.eventCb events)

/-! ### Two contents of the memory for a context -/

section Leftover
variable {heap : Heap} {own : UInt64} {raw₁ raw₂ : RawBlock} {text₁ text₂ : Vector UInt8 256} {behind : Mem}

/-- The context for a destination in memory as `malloc` returned it, a hostname in a block of its own. -/
def ctxIn (dest : Destination) (port : UInt16) (heap : Heap) (behind : Mem) (raw : RawBlock) (text : Vector UInt8 256) :
    Option Ctx :=
  newCtx dest port (some (raw.block heap)) (some (ofBytes text.toList behind))

/-- The pointer that the constructor does not set. -/
def stray (dest : Destination) (raw : RawBlock) : UInt64 :=
  match dest with
  | .hostname _ _ => raw.ipv4Addr
  | .ipv4 _ => raw.hostname

/-- What `socks5_ctx_free` frees, for the pointer `own` to the address and the pointer `ctx` to the context. -/
def freedWith (dest : Destination) (raw : RawBlock) (own ctx : UInt64) : List UInt64 :=
  match dest with
  | .hostname _ _ => socks5CtxFree own raw.ipv4Addr ctx
  | .ipv4 _ => socks5CtxFree raw.hostname own ctx

/-- The two contexts do the same in every run with every application, and free the same. -/
def Independent (dest : Destination) (port : UInt16) (heap : Heap) (own ctx : UInt64) (behind : Mem)
    (raw₁ raw₂ : RawBlock) (text₁ text₂ : Vector UInt8 256) : Prop :=
  (∀ ctx₁ ∈ ctxIn dest port heap behind raw₁ text₁, ∀ ctx₂ ∈ ctxIn dest port heap behind raw₂ text₂,
    ∀ (σ : Type) (app : App σ) (u : σ) (es : List Event),
      Option.Rel SameSoFar (run (step app) (start ctx₁ u) es) (run (step app) (start ctx₂ u) es)) ∧
  freedWith dest raw₁ own ctx = freedWith dest raw₂ own ctx

theorem pointer_inj {p q : UInt64} : (if p ≠ 0 then [p] else []) = (if q ≠ 0 then [q] else []) ↔ p = q := by
  split_ifs with hp hq hq
  · rw [List.singleton_inj]
  · exact iff_of_false id fun h => hp (h.trans (not_not.mp hq))
  · exact iff_of_false id fun h => hq (h.symm.trans (not_not.mp hp))
  · exact iff_of_true rfl ((not_not.mp hp).trans (not_not.mp hq).symm)

theorem freedWith_inj {ctx : UInt64} : freedWith dest raw₁ own ctx = freedWith dest raw₂ own ctx ↔
    stray dest raw₁ = stray dest raw₂ := by
  cases dest with
  | hostname name clean =>
    simp only [freedWith, socks5CtxFree, stray, List.append_cancel_left_eq, List.append_cancel_right_eq]
    exact pointer_inj
  | ipv4 addr =>
    simp only [freedWith, socks5CtxFree, stray, List.append_cancel_right_eq]
    exact pointer_inj

theorem sameRequest_ipv4 {ctx₁ ctx₂ : Ctx} {addr : Vector UInt8 4} (h₁ : ctx₁.target = .inl addr) (h₂ : ctx₂.target = .inl addr)
    (hport : ctx₁.dstPort = ctx₂.dstPort) : SameRequest ctx₁ ctx₂ := fun malloc write => by
  rw [sendReq_ipv4 malloc write h₁, sendReq_ipv4 malloc write h₂, hport]

/-- What a request copies of a hostname does not depend on the memory it was stored in. -/
theorem storedName_copied (text₁ text₂ : Vector UInt8 256) (behind : Mem) (name : List UInt8) : slice (storedName (ofBytes text₁.toList behind) name).hostname 0
      (toSize (storedName (ofBytes text₁.toList behind) name).len) =
    slice (storedName (ofBytes text₂.toList behind) name).hostname 0
      (toSize (storedName (ofBytes text₁.toList behind) name).len) := by
  refine slice_put_congr fun j hlength hj => ?_
  have hlong : 256 ≤ j := by
    by_contra hlt
    simp only [List.length_append, List.length_take, List.length_singleton] at hlength
    have hlen : (storedName (ofBytes text₁.toList behind) name).len = name.length := if_pos (by omega)
    rw [hlen, toSize_natCast (by omega)] at hj
    omega
  rw [ofBytes_of_le (by simpa using hlong), ofBytes_of_le (by simpa using hlong), Vector.length_toList,
    Vector.length_toList]

theorem sameRequest_hostname {ctx₁ ctx₂ : Ctx} {name : List UInt8}
    (h₁ : ctx₁.target = .inr (storedName (ofBytes text₁.toList behind) name))
    (h₂ : ctx₂.target = .inr (storedName (ofBytes text₂.toList behind) name)) (hport : ctx₁.dstPort = ctx₂.dstPort) :
    SameRequest ctx₁ ctx₂ := fun malloc write => by
  have hcopied := storedName_copied text₁ text₂ behind name
  cases malloc with
  | none => rfl
  | some buf =>
    simp only [socks5SendReq, h₁, h₂, hport]
    rw [hcopied]
    rfl

theorem sameRequest_ctxIn {ctx₁ ctx₂ : Ctx} (same : stray dest raw₁ = stray dest raw₂)
    (made₁ : ctxIn dest port heap behind raw₁ text₁ = some ctx₁)
    (made₂ : ctxIn dest port heap behind raw₂ text₂ = some ctx₂) : SameRequest ctx₁ ctx₂ := by
  cases dest with
  | ipv4 addr =>
    obtain rfl := Option.some.inj made₁
    obtain rfl := Option.some.inj made₂
    exact sameRequest_ipv4 (target_ipv4 rfl) (target_ipv4 rfl) rfl
  | hostname name clean =>
    have hpointer : raw₁.ipv4Addr = raw₂.ipv4Addr := same
    obtain rfl := Option.some.inj made₁
    obtain rfl := Option.some.inj made₂
    by_cases hnull : raw₂.ipv4Addr = 0
    · exact sameRequest_hostname (target_hostname (if_pos (hpointer.trans hnull)) rfl)
        (target_hostname (if_pos hnull) rfl) rfl
    · refine sameRequest_ipv4 (target_ipv4 (if_neg fun h => hnull (hpointer.symm.trans h))) ?_ rfl
      rw [hpointer]
      exact target_ipv4 (if_neg hnull)

theorem stage_ctxIn {raw : RawBlock} {text : Vector UInt8 256} {ctx : Ctx}
    (made : ctxIn dest port heap behind raw text = some ctx) : ctx.stage = raw.stage := by
  cases dest <;> exact Option.some.inj made ▸ rfl

theorem isSome_ctxIn (dest : Destination) (port : UInt16) (heap : Heap) (behind : Mem) (raw : RawBlock)
    (text : Vector UInt8 256) : ∃ ctx, ctxIn dest port heap behind raw text = some ctx := by
  cases dest <;> exact ⟨_, rfl⟩

/-- What a context does is independent of the memory it was made in if and only if that memory agrees in the pointer
    that is not set, and in the case that its stage is. -/
theorem independent_iff (dest : Destination) (port : UInt16) (heap : Heap) (own ctx : UInt64) (behind : Mem)
    (raw₁ raw₂ : RawBlock) (text₁ text₂ : Vector UInt8 256) :
    Independent dest port heap own ctx behind raw₁ raw₂ text₁ text₂ ↔
      stray dest raw₁ = stray dest raw₂ ∧ stageCase raw₁.stage = stageCase raw₂.stage := by
  constructor
  · rintro ⟨hruns, hfreed⟩
    obtain ⟨ctx₁, made₁⟩ := isSome_ctxIn dest port heap behind raw₁ text₁
    obtain ⟨ctx₂, made₂⟩ := isSome_ctxIn dest port heap behind raw₂ text₂
    refine ⟨freedWith_inj.mp hfreed, ?_⟩
    cases hruns ctx₁ made₁ ctx₂ made₂ Unit ⟨none, none, none⟩ () [] with
    | some same =>
      have hstage : stageCase ctx₁.stage = stageCase ctx₂.stage := same.stage
      rwa [stage_ctxIn made₁, stage_ctxIn made₂] at hstage
  · rintro ⟨hstray, hstage⟩
    refine ⟨fun ctx₁ made₁ ctx₂ made₂ σ app u es => ?_, freedWith_inj.mpr hstray⟩
    rw [← stage_ctxIn made₁, ← stage_ctxIn made₂] at hstage
    have alike : Alike (start ctx₁ u) (start ctx₂ u) :=
      ⟨⟨rfl, rfl, rfl, hstage⟩, rfl, sameRequest_ctxIn hstray made₁ made₂⟩
    exact run_rel (fun _ _ e alike => alike.step e) (fun _ _ alike => alike.toSameSoFar) alike

def sampleHeap : Heap := ⟨fun _ => ⟨0, fun _ => 0⟩, fun _ => Vector.replicate 4 7⟩

/-- A pointer left behind to the address 7.7.7.7 makes the request for the hostname one for that address. -/
theorem stray_not_independent : (∃ ctx, ctxIn (.hostname [97] (by decide)) 80 sampleHeap (fun _ => 0) ⟨0, 48, 0, 0⟩
      (Vector.replicate 256 0) = some ctx ∧
      socks5SendReq (some fun _ => 0) true ctx = (0, some [5, 1, 0, 1, 7, 7, 7, 7, 0, 80])) ∧
    ¬Independent (.hostname [97] (by decide)) 80 sampleHeap 16 32 (fun _ => 0) ⟨0, 0, 0, 0⟩ ⟨0, 48, 0, 0⟩
      (Vector.replicate 256 0) (Vector.replicate 256 0) := by
  refine ⟨⟨_, rfl, by decide⟩, fun h => ?_⟩
  exact absurd h.2 (by decide)

end Leftover
end Vcmp.Socks5
