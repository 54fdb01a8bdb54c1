import Vcmp.Lib.Blocks
import Vcmp.Theorems.FramePass

/-! How a stream of client frames is delivered under a split into reads. A frame that a read cuts off is not
    waited for, so the calls are right only where no read does that. -/

namespace Vcmp.Websockets
open Rfc6455

variable {ssl : Digest} {bev : Nat} {fs : List ClientFrame} {s t : Conn} {u u' : List Call} {n : Nat} {r : Read}
  {reads : List Read}

/-! ### The frames that have arrived -/

/-- How many frames end within the first `n` bytes of the stream. -/
def wholeCount (fs : List ClientFrame) (n : Nat) : Nat := Blocks.whole (fs.map ClientFrame.bytes) n

def wholeFrames (fs : List ClientFrame) (n : Nat) : List ClientFrame := fs.take (wholeCount fs n)

def laterFrames (fs : List ClientFrame) (n : Nat) : List ClientFrame := fs.drop (wholeCount fs n)

/-- How many of the first `n` bytes belong to a frame that is cut off. -/
def leftOver (fs : List ClientFrame) (n : Nat) : Nat := Blocks.left (fs.map ClientFrame.bytes) n

def arrived (reads : List Read) : List UInt8 := (reads.map Read.bytes).flatten

theorem wholeCount_le (fs : List ClientFrame) (n : Nat) : wholeCount fs n ≤ fs.length :=
  (Blocks.whole_le _ n).trans_eq (List.length_map _)

theorem wholeFrames_add (fs : List ClientFrame) (n k : Nat) :
    wholeFrames fs (n + k) = wholeFrames fs n ++ wholeFrames (laterFrames fs n) (leftOver fs n + k) := by
  rw [wholeFrames, wholeCount, Blocks.whole_add, List.take_add, ← List.map_drop]
  rfl

theorem wholeFrames_arrived_nil (fs : List ClientFrame) (n : Nat) :
    wholeFrames fs (n + (arrived []).length) = wholeFrames fs n := rfl

theorem wholeFrames_arrived_cons (fs : List ClientFrame) (n : Nat) (r : Read) (reads : List Read) :
    wholeFrames fs (n + (arrived (r :: reads)).length) = wholeFrames fs (n + r.bytes.length) ++
      wholeFrames (laterFrames fs (n + r.bytes.length)) (leftOver fs (n + r.bytes.length) + (arrived reads).length) := by
  rw [← wholeFrames_add, Nat.add_assoc, ← List.length_append]
  rfl

theorem wholeFrames_stream (fs : List ClientFrame) : wholeFrames fs (stream fs).length = fs := by
  rw [wholeFrames, wholeCount, stream, Blocks.whole_flatten, List.length_map, List.take_length]

theorem wholeFrames_leftOver (fs : List ClientFrame) (n : Nat) : wholeFrames (laterFrames fs n) (leftOver fs n) = [] := by
  have hadd := wholeFrames_add fs n 0
  rw [Nat.add_zero, Nat.add_zero] at hadd
  exact List.self_eq_append_right.mp hadd

theorem wholeFrames_zero (fs : List ClientFrame) : wholeFrames fs 0 = [] := by
  cases fs with
  | nil => rfl
  | cons f fs =>
    have hpos : ¬f.bytes.length ≤ 0 := by
      have := f.length_bytes
      have := f.headerLength_le
      omega
    rw [wholeFrames, wholeCount, List.map_cons, Blocks.whole, if_neg hpos, List.take_zero]

/-! ### The reads of a stream -/

/-- The reads carry the rest of the stream on an open connection, whose buffer holds its first `n` bytes. -/
structure Carried (fs : List ClientFrame) (n : Nat) (reads : List Read) (s : Conn) : Prop where
  short : ∀ f ∈ fs, f.payload.length ≤ 65535
  buffered : s.input.length = n
  carries : s.input ++ arrived reads = stream fs
  nonempty : ∀ r ∈ reads, r.bytes ≠ []
  fair : ∀ r ∈ reads, ∀ k, Fair (stream fs).length (r.env k)
  done : s.client.handshakeDone = true
  live : s.Live

/-- After each read, the calls made are those of the frames that are whole by then. -/
def OnTime (ssl : Digest) (bev : Nat) (fs : List ClientFrame) (n : Nat) (reads : List Read) (s : Conn) (u : List Call) :
    Prop :=
  ∀ k, ∃ fuel t, serve ssl recorder bev fuel (reads.take k) s u =
    some (t, u ++ (wholeFrames fs (n + (arrived (reads.take k)).length)).map callOf)

/-- Each read completes a frame and ends with it or one byte behind it. -/
def Aligned (fs : List ClientFrame) (n : Nat) (reads : List Read) : Prop :=
  Blocks.Aligned 1 (fs.map ClientFrame.bytes) n (reads.map fun r => r.bytes.length)

instance : Decidable (Aligned fs n reads) := Blocks.decidableAligned _ _ _ _

theorem aligned_cons : Aligned fs n (r :: reads) ↔
    (1 ≤ wholeCount fs (n + r.bytes.length) ∧ leftOver fs (n + r.bytes.length) ≤ 1) ∧
      Aligned (laterFrames fs (n + r.bytes.length)) (leftOver fs (n + r.bytes.length)) reads := by
  rw [Aligned, Aligned, laterFrames, List.map_drop, and_assoc]
  rfl

/-- What one read finds: the frames that are whole with it, and the beginning of the next one. -/
theorem Carried.read (h : Carried fs n (r :: reads) s) :
    ∃ rest, rest.length = leftOver fs (n + r.bytes.length) ∧
      rest ++ arrived reads = stream (laterFrames fs (n + r.bytes.length)) ∧
      FramesIn ClientFrame.bytes (wholeFrames fs (n + r.bytes.length)) rest { s with input := s.input ++ r.bytes } r.env := by
  have hstream : (s.input ++ r.bytes) ++ arrived reads = (fs.map ClientFrame.bytes).flatten := by
    rw [List.append_assoc]
    exact h.carries
  have hn : (s.input ++ r.bytes).length = n + r.bytes.length := by rw [List.length_append, h.buffered]
  obtain ⟨rest, hfront, hrest⟩ := Blocks.split hstream
  have hleft := Blocks.left_eq hfront
  rw [hn] at hfront hrest hleft
  rw [← List.map_take] at hfront
  rw [← List.map_drop] at hrest
  have hle : (s.input ++ r.bytes).length ≤ (stream fs).length := by
    rw [stream, ← hstream]
    exact (List.sublist_append_left _ _).length_le
  exact ⟨rest, hleft.symm, hrest, fun f hf => readAs_bytes (h.short f (List.mem_of_mem_take hf)), hfront,
    fun k => Nat.le_trans hle (h.fair r List.mem_cons_self k).extent,
    fun _ _ _ k => (h.fair r List.mem_cons_self k).write, h.done⟩

theorem Carried.next {rest : List UInt8} (h : Carried fs n (r :: reads) s)
    (hlen : rest.length = leftOver fs (n + r.bytes.length))
    (hrest : rest ++ arrived reads = stream (laterFrames fs (n + r.bytes.length)))
    (hinput : t.input = rest) (hdone : t.client.handshakeDone = true) (hlive : t.Live) :
    Carried (laterFrames fs (n + r.bytes.length)) (leftOver fs (n + r.bytes.length)) reads t where
  short f hf := h.short f (List.mem_of_mem_drop hf)
  buffered := hinput ▸ hlen
  carries := hinput ▸ hrest
  nonempty r' hr' := h.nonempty r' (List.mem_cons_of_mem _ hr')
  fair r' hr' k :=
    (h.fair r' (List.mem_cons_of_mem _ hr') k).mono (((List.drop_sublist _ _).map _).flatten.length_le)
  done := hdone
  live := hlive

/-- A read that completes a frame and leaves at most one byte is served as it should be. -/
theorem Carried.served (ssl : Digest) (bev : Nat) (u : List Call) (h : Carried fs n (r :: reads) s)
    (hwhole : 1 ≤ wholeCount fs (n + r.bytes.length)) (hleft : leftOver fs (n + r.bytes.length) ≤ 1) :
    ∃ fuel t, readCb ssl recorder bev fuel r.env { s with input := s.input ++ r.bytes } u =
        some (t, u ++ (wholeFrames fs (n + r.bytes.length)).map callOf) ∧
      Carried (laterFrames fs (n + r.bytes.length)) (leftOver fs (n + r.bytes.length)) reads t := by
  obtain ⟨rest, hlen, hrest, frames⟩ := h.read
  have hne : wholeFrames fs (n + r.bytes.length) ≠ [] := by
    rw [← List.length_pos_iff, wholeFrames, List.length_take_of_le (wholeCount_le _ _)]
    exact hwhole
  obtain ⟨t, hr, hinput, hdone, hfreed⟩ := readCb_frames ssl bev u hne frames (hlen.trans_le hleft)
  have live : t.Live := fun hm => h.live (hfreed ▸ hm)
  exact ⟨_, t, hr, h.next hlen hrest hinput hdone live⟩

/-- A read after which the connection is open and the calls are right is such a read. -/
theorem Carried.aligned {fuel : Nat} (h : Carried fs n (r :: reads) s)
    (hr : readCb ssl recorder bev fuel r.env { s with input := s.input ++ r.bytes } u =
      some (t, u ++ (wholeFrames fs (n + r.bytes.length)).map callOf)) (live : t.Live) :
    1 ≤ wholeCount fs (n + r.bytes.length) ∧ leftOver fs (n + r.bytes.length) ≤ 1 := by
  obtain ⟨rest, hlen, -, frames⟩ := h.read
  by_contra hnot
  have hmore : wholeFrames fs (n + r.bytes.length) = [] ∨ 2 ≤ rest.length := by
    by_cases hwhole : 1 ≤ wholeCount fs (n + r.bytes.length)
    · exact Or.inr (hlen ▸ Nat.lt_of_not_le fun hle => hnot ⟨hwhole, hle⟩)
    · rw [wholeFrames, Nat.lt_one_iff.mp (Nat.lt_of_not_le hwhole), List.take_zero]
      exact Or.inl rfl
  obtain ⟨calls, hcalls, hne⟩ := readCb_late frames hmore hr live
  exact hne (List.self_eq_append_right.mp hcalls)

theorem Carried.aligned_last (h : Carried fs n (r :: reads) s) (hlast : laterFrames fs (n + r.bytes.length) = []) :
    1 ≤ wholeCount fs (n + r.bytes.length) ∧ leftOver fs (n + r.bytes.length) ≤ 1 := by
  obtain ⟨rest, hlen, hrest, -⟩ := h.read
  rw [hlast] at hrest
  obtain ⟨rfl, -⟩ := List.append_eq_nil_iff.mp hrest
  refine ⟨Nat.pos_of_ne_zero fun hzero => ?_, hlen ▸ Nat.zero_le 1⟩
  rw [laterFrames, hzero, List.drop_zero] at hlast
  have hnil : s.input ++ (r.bytes ++ arrived reads) = [] := by
    have hall : s.input ++ (r.bytes ++ arrived reads) = stream fs := h.carries
    rw [hall, hlast]
    rfl
  exact h.nonempty r List.mem_cons_self (List.append_eq_nil_iff.mp (List.append_eq_nil_iff.mp hnil).2).1

/-! ### All reads -/

theorem serve_dead {fuel : Nat} (dead : ¬t.Live) : serve ssl recorder bev fuel reads t u = some (t, u) := by
  cases reads with
  | nil => rfl
  | cons r reads => rw [serve, if_neg dead]

theorem serve_cons {fuel : Nat} (live : s.Live) : serve ssl recorder bev fuel (r :: reads) s u =
    (readCb ssl recorder bev fuel r.env { s with input := s.input ++ r.bytes } u).bind fun p =>
      serve ssl recorder bev fuel reads p.1 p.2 := by
  rw [serve, if_pos live]

theorem serve_mono {fuel fuel' : Nat} (h : serve ssl recorder bev fuel reads s u = some (t, u')) (hle : fuel ≤ fuel') :
    serve ssl recorder bev fuel' reads s u = some (t, u') := by
  induction reads generalizing s u with
  | nil => exact h
  | cons r reads ih =>
    by_cases live : s.Live
    · rw [serve_cons live, Option.bind_eq_some_iff] at h ⊢
      obtain ⟨p, hp, hrest⟩ := h
      exact ⟨p, readCb_mono hp hle, ih hrest⟩
    · rw [serve_dead live] at h ⊢
      exact h

theorem onTime_cons {fuel : Nat} (live : s.Live) (hn : wholeFrames fs n = [])
    (hr : readCb ssl recorder bev fuel r.env { s with input := s.input ++ r.bytes } u =
      some (t, u ++ (wholeFrames fs (n + r.bytes.length)).map callOf)) :
    OnTime ssl bev fs n (r :: reads) s u ↔
      OnTime ssl bev (laterFrames fs (n + r.bytes.length)) (leftOver fs (n + r.bytes.length)) reads t
        (u ++ (wholeFrames fs (n + r.bytes.length)).map callOf) := by
  have hcalls (k : Nat) : u ++ (wholeFrames fs (n + (arrived (r :: reads.take k)).length)).map callOf =
      u ++ (wholeFrames fs (n + r.bytes.length)).map callOf ++ (wholeFrames (laterFrames fs (n + r.bytes.length))
        (leftOver fs (n + r.bytes.length) + (arrived (reads.take k)).length)).map callOf := by
    rw [wholeFrames_arrived_cons, List.map_append, List.append_assoc]
  constructor
  · intro h k
    obtain ⟨fuel', t', hs⟩ := h (k + 1)
    rw [List.take_succ_cons, hcalls, serve_cons live, Option.bind_eq_some_iff] at hs
    obtain ⟨⟨t₁, u₁⟩, hr', hs⟩ := hs
    obtain ⟨rfl, rfl⟩ := readCb_unique hr hr'
    exact ⟨fuel', t', hs⟩
  · intro h k
    cases k with
    | zero =>
      refine ⟨0, s, ?_⟩
      rw [List.take_zero, serve, wholeFrames_arrived_nil, hn, List.map_nil, List.append_nil]
    | succ k =>
      obtain ⟨fuel', t', hs⟩ := h k
      refine ⟨max fuel fuel', t', ?_⟩
      rw [List.take_succ_cons, hcalls, serve_cons live, readCb_mono hr (Nat.le_max_left _ _), Option.bind_some]
      exact serve_mono hs (Nat.le_max_right _ _)

/-- A read that is on time is aligned: else it makes a call too many, or the frames behind it are lost with
    the connection. -/
theorem Carried.aligned_of_onTime (h : Carried fs n (r :: reads) s) (ontime : OnTime ssl bev fs n (r :: reads) s u) :
    1 ≤ wholeCount fs (n + r.bytes.length) ∧ leftOver fs (n + r.bytes.length) ≤ 1 := by
  obtain ⟨fuel, t, hs⟩ := ontime 1
  rw [List.take_succ_cons, List.take_zero, serve_cons h.live, Option.bind_eq_some_iff] at hs
  obtain ⟨⟨t₁, u₁⟩, hr, hs⟩ := hs
  have hfirst : arrived [r] = r.bytes := List.append_nil _
  rw [serve, hfirst] at hs
  cases hs
  by_cases live : t₁.Live
  · exact h.aligned hr live
  · obtain ⟨fuel', t', hs'⟩ := ontime (r :: reads).length
    have hall : n + (arrived (r :: reads)).length = (stream fs).length := by
      rw [← h.carries, List.length_append, h.buffered]
    rw [List.take_length, hall, wholeFrames_stream, serve_cons h.live, Option.bind_eq_some_iff] at hs'
    obtain ⟨⟨t₂, u₂⟩, hr', hs'⟩ := hs'
    obtain ⟨rfl, rfl⟩ := readCb_unique hr hr'
    rw [serve_dead live] at hs'
    have hcalls := List.append_cancel_left (Prod.mk.inj (Option.some.inj hs')).2
    have hlen := congrArg List.length hcalls
    rw [List.length_map, List.length_map, wholeFrames, List.length_take_of_le (wholeCount_le _ _)] at hlen
    refine h.aligned_last ?_
    rw [laterFrames, hlen, List.drop_length]

theorem onTime_iff_aligned (h : Carried fs n reads s) (hn : wholeFrames fs n = []) :
    OnTime ssl bev fs n reads s u ↔ Aligned fs n reads := by
  induction reads generalizing fs n s u with
  | nil =>
    refine iff_of_true (fun k => ⟨0, s, ?_⟩) trivial
    rw [List.take_nil, serve, wholeFrames_arrived_nil, hn, List.map_nil, List.append_nil]
  | cons r reads ih =>
    rw [aligned_cons]
    constructor
    · intro ontime
      obtain ⟨hwhole, hleft⟩ := h.aligned_of_onTime ontime
      obtain ⟨fuel, t, hr, next⟩ := h.served ssl bev u hwhole hleft
      exact ⟨⟨hwhole, hleft⟩, (ih next (wholeFrames_leftOver _ _)).mp ((onTime_cons h.live hn hr).mp ontime)⟩
    · rintro ⟨⟨hwhole, hleft⟩, later⟩
      obtain ⟨fuel, t, hr, next⟩ := h.served ssl bev u hwhole hleft
      exact (onTime_cons h.live hn hr).mpr ((ih next (wholeFrames_leftOver _ _)).mpr later)

theorem OnTime.delivers (h : Carried fs n reads s) (ontime : OnTime ssl bev fs n reads s u) :
    ∃ fuel t, serve ssl recorder bev fuel reads s u = some (t, u ++ fs.map callOf) := by
  obtain ⟨fuel, t, hs⟩ := ontime reads.length
  rw [List.take_length, ← h.buffered, ← List.length_append, h.carries, wholeFrames_stream] at hs
  exact ⟨fuel, t, hs⟩

/-- The calls keep up with the reads exactly for an aligned split, and any two such splits of a stream make the
    same calls, one for each frame with its payload. -/
theorem delivery_iff (h : Carried fs 0 reads s) :
    (OnTime ssl bev fs 0 reads s [] ↔ Aligned fs 0 reads) ∧
      (Aligned fs 0 reads → ∃ fuel t, serve ssl recorder bev fuel reads s [] = some (t, fs.map callOf)) := by
  have hiff : OnTime ssl bev fs 0 reads s [] ↔ Aligned fs 0 reads := onTime_iff_aligned h (wholeFrames_zero fs)
  exact ⟨hiff, fun aligned => (hiff.mpr aligned).delivers h⟩

/-! ### A split inside a header -/

def opened : Conn := { client := ⟨true, false, .null⟩, input := [], written := [], hasWriteCb := false, freed := [] }

def textFrame : ClientFrame where
  fin := true
  opcode := 1
  key := fun _ => 0
  payload := [0x68, 0x69]
  opcode_lt := by decide
  payload_lt := by decide

def sampleReads (parts : List (List UInt8)) : List Read := parts.map fun bytes => ⟨bytes, fun _ => samplePass⟩

theorem carried_sampleReads {parts : List (List UInt8)} (hparts : parts.flatten = stream [textFrame, textFrame])
    (hne : [] ∉ parts) : Carried [textFrame, textFrame] 0 (sampleReads parts) opened where
  short f hf := by
    obtain rfl : f = textFrame := by simpa using hf
    decide
  buffered := rfl
  carries := by
    rw [← hparts, arrived, sampleReads, List.map_map]
    exact congrArg List.flatten (List.map_id parts)
  nonempty r hr := by
    obtain ⟨bytes, hbytes, rfl⟩ := List.mem_map.mp hr
    exact fun h => hne (h ▸ hbytes)
  fair r hr k := by
    obtain ⟨bytes, -, rfl⟩ := List.mem_map.mp hr
    have hle : (stream [textFrame, textFrame]).length ≤ samplePass.extent := by decide
    exact ⟨hle, rfl⟩
  done := rfl
  live := by decide

/-- Two frames in one piece, and in two with the cut one byte behind the first. -/
def wholeReads : List Read := sampleReads [stream [textFrame, textFrame]]
def alignedReads : List Read := sampleReads [textFrame.bytes ++ [0x81], textFrame.bytes.drop 1]

/-- The cut is in the header of the first frame. -/
def splitReads : List Read := sampleReads [textFrame.bytes.take 2, textFrame.bytes.drop 2 ++ textFrame.bytes]

theorem delivery_iff_sample : ∃ fuel t, serve sampleDigest recorder 0 fuel alignedReads opened [] =
    some (t, [.read 1 [0x68, 0x69], .read 1 [0x68, 0x69]]) :=
  (delivery_iff (carried_sampleReads (by decide) (by decide))).2 (by decide)

/-- The calls depend on the split: the header cut off is taken for a frame of two zero bytes. -/
theorem delivery_split : Carried [textFrame, textFrame] 0 wholeReads opened ∧
    Carried [textFrame, textFrame] 0 splitReads opened ∧
    (serve sampleDigest recorder 0 2 wholeReads opened []).map (·.2) =
      some [.read 1 [0x68, 0x69], .read 1 [0x68, 0x69]] ∧
    (serve sampleDigest recorder 0 2 splitReads opened []).map (·.2) = some [.read 1 [0, 0]] :=
  ⟨carried_sampleReads (by decide) (by decide), carried_sampleReads (by decide) (by decide), by decide +kernel,
    by decide +kernel⟩

end Vcmp.Websockets
