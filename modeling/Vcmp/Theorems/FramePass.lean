import Vcmp.Theorems.Server

/-! One pass of `read_cb` on a client whose handshake is done: what it does with a whole frame, and that it
    calls the user or drops the connection in any case. -/

namespace Vcmp.Websockets
open ByteMem Rfc6455

/-! ### The calls made to the user -/

inductive Call where
  | read (opcode : UInt8) (payload : List UInt8)
  | close
  deriving DecidableEq

/-- The user that keeps the calls made to it. -/
def recorder : WsCtx (List Call) where
  readCb := some fun _ opcode payload len _ calls => calls ++ [.read opcode (slice payload 0 len.toNat)]
  acceptCb := none
  closeCb := some fun _ _ calls => calls ++ [.close]

/-- The call that a frame is meant to make. -/
def callOf (f : ClientFrame) : Call := if f.opcode = wsOpcodeClose then .close else .read f.opcode f.payload

/-- The pass succeeds in writing and finds up to `n` bytes of input in one extent. -/
structure Fair (n : Nat) (env : PassEnv) : Prop where
  extent : n ≤ env.extent
  write : env.write = true

section Pass
variable {env : PassEnv} {bev : Nat} {s : Conn} {u : List Call} {f : ClientFrame} {e tail : List UInt8}

/-! ### A whole frame -/

/-- The input buffer begins with a byte string that is read as the frame. -/
structure FrameIn (e : List UInt8) (f : ClientFrame) (tail : List UInt8) (s : Conn) (env : PassEnv) : Prop where
  reads : ReadAs e f
  input : s.input = e ++ tail
  extent : s.input.length ≤ env.extent
  write : f.opcode = wsOpcodeClose → env.write = true

theorem FrameIn.peek (h : FrameIn e f tail s env) : s.peek env = ofBytes e (ofBytes tail env.past) := by
  rw [Conn.peek, List.take_of_length_le h.extent, h.input, ofBytes_append]

theorem FrameIn.opcode (h : FrameIn e f tail s env) : opcodeOf s env = f.opcode := by
  rw [opcodeOf, h.peek]
  exact h.reads.opcode _

theorem FrameIn.masked (h : FrameIn e f tail s env) : ¬NoMaskBit s env := by
  rw [NoMaskBit, h.peek]
  exact UInt8.not_lt.mpr (h.reads.masked _)

theorem FrameIn.header (h : FrameIn e f tail s env) : parsedHeader (s.peek env) = f.headerLength := by
  rw [h.peek, h.reads.header]

theorem FrameIn.length (h : FrameIn e f tail s env) : (parsedLength (s.peek env)).toNat = f.payload.length := by
  rw [h.peek, h.reads.length]

theorem FrameIn.memAfter (h : FrameIn e f tail s env) : memAfter s env =
    unmask (ofBytes e (ofBytes tail env.past)) f.headerLength f.payload.length (f.headerLength - 4) := by
  rw [Websockets.memAfter, h.header, h.length, h.peek]

theorem FrameIn.payload (h : FrameIn e f tail s env) :
    slice (fun i => Websockets.memAfter s env (parsedHeader (s.peek env) + i)) 0 (parsedLength (s.peek env)).toNat =
      f.payload := by
  rw [slice_shift, Nat.add_zero, h.memAfter, h.header, h.length, h.reads.payload]

theorem FrameIn.rest (h : FrameIn e f tail s env) : (framed s env).input = tail := by
  have hlen : f.headerLength + f.payload.length = e.length := h.reads.size.symm
  have hall : s.input.length = e.length + tail.length := by rw [h.input, List.length_append]
  have hshort : e.length < 2 ^ 64 := by
    have := f.headerLength_le_fourteen
    have := f.payload_lt
    omega
  simp only [framed, Conn.drain, Conn.poke, h.header, h.length, h.memAfter]
  rw [hlen, Nat.mod_eq_of_lt hshort, List.take_of_length_le h.extent, List.drop_of_length_le h.extent,
    List.append_nil, hall, drop_slice (Nat.le_add_right _ _), Nat.zero_add, Nat.add_sub_cancel_left,
    slice_unmask_past (Nat.le_of_eq hlen), ← ofBytes_append]
  have behind := slice_ofBytes_append e tail [] env.past
  rwa [List.append_nil] at behind

/-- A pass on a whole frame makes its call, drains it and goes on if two more bytes are there. -/
theorem readPass_frame (ssl : Digest) (bev : Nat) (u : List Call) (h : FrameIn e f tail s env)
    (done : s.client.handshakeDone = true) : ∃ t,
      readPass ssl recorder env bev s u = (t, u ++ [callOf f], decide (2 ≤ tail.length)) ∧ t.input = tail ∧
        t.client.handshakeDone = true ∧ t.freed = s.freed := by
  simp only [readPass, done, Bool.not_true, Bool.false_eq_true, if_false]
  by_cases hclose : f.opcode = wsOpcodeClose
  · obtain ⟨t, again, hr, hdone, -, hwrite⟩ := readFrame_close recorder bev u h.masked (h.opcode.trans hclose)
    obtain ⟨hfreed, hinput, hagain⟩ := hwrite (h.write hclose)
    rw [h.rest] at hinput hagain
    rw [hr, hagain, callOf, if_pos hclose]
    exact ⟨t, rfl, hinput, hdone.trans done, hfreed⟩
  · have hopcode : opcodeOf s env ≠ wsOpcodeClose := h.opcode.symm ▸ hclose
    rw [readFrame_data h.masked hopcode, h.rest, callOf, if_neg hclose, h.opcode]
    simp only [WsCtx.callRead, recorder, h.payload]
    exact ⟨framed s env, rfl, h.rest, done, rfl⟩

/-! ### Any buffer -/

/-- Whatever is in the buffer, a pass drops the connection or makes a call. -/
theorem readPass_grows (ssl : Digest) (env : PassEnv) (bev : Nat) (u : List Call)
    (done : s.client.handshakeDone = true) :
    ∃ t calls again, readPass ssl recorder env bev s u = (t, u ++ calls, again) ∧ t.client.handshakeDone = true ∧
      ((¬t.Live ∧ again = false) ∨ calls ≠ []) := by
  simp only [readPass, done, Bool.not_true, Bool.false_eq_true, if_false]
  by_cases hmask : NoMaskBit s env
  · refine ⟨s.free .bufferevent, [], false, ?_, done, Or.inl ⟨not_live_free s, rfl⟩⟩
    rw [readFrame_unmasked hmask, List.append_nil]
  · by_cases hclose : opcodeOf s env = wsOpcodeClose
    · obtain ⟨t, again, hr, hdone, -, -⟩ := readFrame_close recorder bev u hmask hclose
      exact ⟨t, [.close], again, hr, hdone.trans done, Or.inr (List.cons_ne_nil _ _)⟩
    · exact ⟨_, [.read _ _], _, readFrame_data hmask hclose, done, Or.inr (List.cons_ne_nil _ _)⟩

/-! ### The passes of one read -/

section Passes
variable {ssl : Digest} {fuel : Nat} {envs : Nat → PassEnv} {t : Conn} {u' : List Call}

theorem readCb_mono {fuel' : Nat} (h : readCb ssl recorder bev fuel envs s u = some (t, u')) (hle : fuel ≤ fuel') :
    readCb ssl recorder bev fuel' envs s u = some (t, u') := by
  induction fuel generalizing fuel' envs s u with
  | zero => cases h
  | succ fuel ih =>
    obtain ⟨k, rfl⟩ : ∃ k, fuel' = k + 1 := ⟨fuel' - 1, by omega⟩
    rw [readCb] at h ⊢
    rcases hp : readPass ssl recorder (envs 0) bev s u with ⟨s₁, u₁, again⟩
    rw [hp] at h
    cases again with
    | false => exact h
    | true => exact ih h (by omega)

theorem readCb_unique {fuel' : Nat} {t' : Conn} {u'' : List Call}
    (h : readCb ssl recorder bev fuel envs s u = some (t, u'))
    (h' : readCb ssl recorder bev fuel' envs s u = some (t', u'')) : t = t' ∧ u' = u'' := by
  have more := readCb_mono h (Nat.le_max_left fuel fuel')
  rw [readCb_mono h' (Nat.le_max_right fuel fuel')] at more
  cases more
  exact ⟨rfl, rfl⟩

theorem readCb_succ {again : Bool} {s₁ : Conn} {u₁ : List Call}
    (hp : readPass ssl recorder (envs 0) bev s u = (s₁, u₁, again)) :
    readCb ssl recorder bev (fuel + 1) envs s u =
      if again then readCb ssl recorder bev fuel (fun k => envs (k + 1)) s₁ u₁ else some (s₁, u₁) := by
  rw [readCb, hp]
  cases again <;> rfl

theorem readCb_adds (done : s.client.handshakeDone = true)
    (h : readCb ssl recorder bev fuel envs s u = some (t, u')) : ∃ calls, u' = u ++ calls := by
  induction fuel generalizing envs s u with
  | zero => cases h
  | succ fuel ih =>
    obtain ⟨s₁, calls, again, hp, done₁, -⟩ := readPass_grows ssl (envs 0) bev u done
    rw [readCb_succ hp] at h
    cases again with
    | false =>
      cases h
      exact ⟨calls, rfl⟩
    | true =>
      obtain ⟨more, rfl⟩ := ih done₁ h
      exact ⟨calls ++ more, List.append_assoc _ _ _⟩

theorem readCb_calls (done : s.client.handshakeDone = true)
    (h : readCb ssl recorder bev fuel envs s u = some (t, u')) (live : t.Live) : ∃ calls, u' = u ++ calls ∧ calls ≠ [] := by
  cases fuel with
  | zero => cases h
  | succ fuel =>
    obtain ⟨s₁, calls, again, hp, done₁, hgrows⟩ := readPass_grows ssl (envs 0) bev u done
    rw [readCb_succ hp] at h
    cases again with
    | false =>
      cases h
      rcases hgrows with ⟨dead, -⟩ | hcalls
      · exact absurd live dead
      · exact ⟨calls, rfl, hcalls⟩
    | true =>
      obtain ⟨more, rfl⟩ := readCb_adds done₁ h
      rcases hgrows with ⟨-, hfalse⟩ | hcalls
      · cases hfalse
      · refine ⟨calls ++ more, List.append_assoc _ _ _, ?_⟩
        rw [ne_eq, List.append_eq_nil_iff, not_and]
        exact fun hnil => absurd hnil hcalls

end Passes
end Pass

/-! ### A read of several frames -/

section Frames
variable {ssl : Digest} {bev fuel : Nat} {envs : Nat → PassEnv} {s t : Conn} {u u' : List Call} {fs : List ClientFrame}
  {f : ClientFrame} {encode : ClientFrame → List UInt8} {e tail : List UInt8}

def stream (fs : List ClientFrame) : List UInt8 := (fs.map ClientFrame.bytes).flatten

theorem Fair.mono {env : PassEnv} {m n : Nat} (h : Fair n env) (hle : m ≤ n) : Fair m env :=
  ⟨Nat.le_trans hle h.extent, h.write⟩

/-- The buffer holds the frames, each as `encode` has it, and then `tail`. -/
structure FramesIn (encode : ClientFrame → List UInt8) (fs : List ClientFrame) (tail : List UInt8) (s : Conn)
    (envs : Nat → PassEnv) : Prop where
  reads : ∀ f ∈ fs, ReadAs (encode f) f
  input : s.input = (fs.map encode).flatten ++ tail
  extent : ∀ k, s.input.length ≤ (envs k).extent
  write : ∀ f ∈ fs, f.opcode = wsOpcodeClose → ∀ k, (envs k).write = true
  done : s.client.handshakeDone = true

theorem FramesIn.pass (ssl : Digest) (bev : Nat) (u : List Call) (h : FramesIn encode (f :: fs) tail s envs) :
    ∃ t, readPass ssl recorder (envs 0) bev s u =
        (t, u ++ [callOf f], decide (2 ≤ ((fs.map encode).flatten ++ tail).length)) ∧
      FramesIn encode fs tail t (fun k => envs (k + 1)) ∧ t.freed = s.freed := by
  have hinput : s.input = encode f ++ ((fs.map encode).flatten ++ tail) := by
    rw [h.input, List.map_cons, List.flatten_cons, List.append_assoc]
  obtain ⟨t, hp, htail, hdone, hfreed⟩ :=
    readPass_frame ssl bev u ⟨h.reads f List.mem_cons_self, hinput, h.extent 0,
      fun hclose => h.write f List.mem_cons_self hclose 0⟩ h.done
  have hle : t.input.length ≤ s.input.length := by
    rw [htail, hinput]
    exact (List.sublist_append_right _ _).length_le
  refine ⟨t, hp, ⟨fun g hg => h.reads g (List.mem_cons_of_mem _ hg), htail,
    fun k => Nat.le_trans hle (h.extent (k + 1)), fun g hg hclose k => h.write g (List.mem_cons_of_mem _ hg) hclose (k + 1),
    hdone⟩, hfreed⟩

/-- Where at most one byte follows the frames, a read makes their calls and leaves that byte. -/
theorem readCb_frames (ssl : Digest) (bev : Nat) (u : List Call) (hne : fs ≠ []) (h : FramesIn encode fs tail s envs)
    (hle : tail.length ≤ 1) : ∃ t,
      readCb ssl recorder bev fs.length envs s u = some (t, u ++ fs.map callOf) ∧ t.input = tail ∧
      t.client.handshakeDone = true ∧ t.freed = s.freed := by
  induction fs generalizing envs s u with
  | nil => exact absurd rfl hne
  | cons f fs ih =>
    obtain ⟨t, hp, hrest, hfreed⟩ := h.pass ssl bev u
    rw [List.length_cons, readCb_succ hp]
    cases fs with
    | nil =>
      have hstop : decide (2 ≤ (([].map encode).flatten ++ tail).length) = false := by
        rw [decide_eq_false_iff_not]
        exact Nat.not_le_of_lt (Nat.lt_succ_of_le hle)
      rw [hstop]
      exact ⟨t, rfl, hrest.input, hrest.done, hfreed⟩
    | cons g fs =>
      have hmore : 2 ≤ (((g :: fs).map encode).flatten ++ tail).length := by
        rw [List.map_cons, List.flatten_cons, List.append_assoc]
        exact (hrest.reads g List.mem_cons_self).two_le _
      rw [decide_eq_true hmore, if_pos rfl]
      obtain ⟨t', hr, hinput, hdone, hfreed'⟩ := ih (u ++ [callOf f]) (List.cons_ne_nil g fs) hrest
      refine ⟨t', ?_, hinput, hdone, hfreed'.trans hfreed⟩
      rw [hr, List.append_assoc]
      rfl

/-- Where no frame is whole, or two bytes of the next one follow, a read that leaves the connection open makes
    a call too many. -/
theorem readCb_late (h : FramesIn encode fs tail s envs) (hmore : fs = [] ∨ 2 ≤ tail.length)
    (hr : readCb ssl recorder bev fuel envs s u = some (t, u')) (live : t.Live) :
    ∃ calls, u' = u ++ fs.map callOf ++ calls ∧ calls ≠ [] := by
  induction fs generalizing fuel envs s u with
  | nil =>
    rw [List.map_nil, List.append_nil]
    exact readCb_calls h.done hr live
  | cons f fs ih =>
    have htwo : 2 ≤ tail.length := hmore.resolve_left (List.cons_ne_nil f fs)
    cases fuel with
    | zero => cases hr
    | succ fuel =>
      obtain ⟨s₁, hp, hrest, -⟩ := h.pass ssl bev u
      have hagain : 2 ≤ ((fs.map encode).flatten ++ tail).length := by
        rw [List.length_append]
        exact Nat.le_add_left_of_le htwo
      rw [readCb_succ hp, decide_eq_true hagain, if_pos rfl] at hr
      obtain ⟨calls, hcalls, hne⟩ := ih hrest (Or.inr htwo) hr
      refine ⟨calls, ?_, hne⟩
      rw [hcalls, List.append_assoc u]
      rfl

/-- Frames that lie in the buffer of a client whose handshake is done, each with the header that the encoder
    writes for it and none a CLOSE frame, are told to the user one by one, and nothing is left. -/
theorem readCb_coalesced (ssl : Digest) (bev : Nat) (u : List Call) (hne : fs ≠ [])
    (hopen : ∀ f ∈ fs, f.opcode ≠ wsOpcodeClose) (input : s.input = (fs.map encoded).flatten)
    (extent : ∀ k, s.input.length ≤ (envs k).extent) (done : s.client.handshakeDone = true) :
    ∃ t, readCb ssl recorder bev fs.length envs s u = some (t, u ++ fs.map fun f => .read f.opcode f.payload) ∧
      t.input = [] := by
  have frames : FramesIn encoded fs [] s envs :=
    ⟨fun f _ => readAs_encoded f, by rw [input, List.append_nil], extent,
      fun f hf hclose => absurd hclose (hopen f hf), done⟩
  obtain ⟨t, hr, hinput, -, -⟩ := readCb_frames ssl bev u hne frames (Nat.zero_le 1)
  have hcalls : fs.map callOf = fs.map fun f => .read f.opcode f.payload :=
    List.map_congr_left fun f hf => if_neg (hopen f hf)
  exact ⟨t, hcalls ▸ hr, hinput⟩

/-- A client that has sent two frames with lengths of 64 bits. -/
def longConn : Conn where
  client := ⟨true, false, .null⟩
  input := ([longFrame, longFrame].map encoded).flatten
  written := []
  hasWriteCb := false
  freed := []

theorem length_encoded_longFrame : (encoded longFrame).length = 65550 := by
  have hlen : longFrame.payload.length = 65536 := List.length_replicate
  rw [(readAs_encoded longFrame).size, ClientFrame.headerLength, hlen]
  rfl

theorem readCb_coalesced_long : ∃ t,
    readCb sampleDigest recorder 0 [longFrame, longFrame].length (fun _ => samplePass) longConn [] =
      some (t, [] ++ [longFrame, longFrame].map fun f => .read f.opcode f.payload) ∧ t.input = [] := by
  have hopen : ∀ f ∈ [longFrame, longFrame], f.opcode ≠ wsOpcodeClose := by
    intro f hf
    rcases List.mem_pair.mp hf with rfl | rfl
    · decide
    · decide
  have hinput : longConn.input = ([longFrame, longFrame].map encoded).flatten := by rw [longConn]
  have hextent : longConn.input.length ≤ samplePass.extent := by
    rw [hinput, List.map_cons, List.map_cons, List.map_nil, List.flatten_cons, List.flatten_cons, List.flatten_nil,
      List.append_nil, List.length_append, length_encoded_longFrame]
    decide
  exact readCb_coalesced sampleDigest 0 [] (List.cons_ne_nil _ _) hopen hinput (fun _ => hextent) rfl

end Frames
end Vcmp.Websockets
