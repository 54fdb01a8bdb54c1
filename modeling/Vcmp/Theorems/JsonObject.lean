import Mathlib.Data.List.Basic
import Vcmp.Theorems.JsonString

/-! # The object that the JSON writer puts

The members of an object are a ring of values in the pool. The writer goes once around it, in the order in which the members
were added, and its buffer grows ahead of what it puts. -/

namespace Vcmp.Yyjson
open Utf8

/-! ### The ring -/

/-- The strings of members, one behind another. -/
def strings {α : Type} (members : List (α × α)) : List α := members.flatMap fun member => [member.1, member.2]

/-- The `i`-th of `n` values in a ring. -/
def ringVal (constantP : List UInt8 → Bool) (n i : Nat) (str : List UInt8) : MutVal :=
  ⟨str, isStrNoesc constantP str, if i + 1 = n then 0 else i + 1⟩

/-- A document holds members: its values lead one to another and the last one to the first, and the last key is known. -/
structure Holds (constantP : List UInt8 → Bool) (doc : MutDoc) (members : List (List UInt8 × List UInt8)) : Prop where
  vals : ∀ i, doc.vals[i]? = (strings members)[i]?.map (ringVal constantP (2 * members.length) i)
  ptr : members ≠ [] → doc.ptr + 2 = 2 * members.length
  len : doc.len = members.length

section Strings
variable {α : Type}

theorem strings_cons (member : α × α) (members : List (α × α)) :
    strings (member :: members) = member.1 :: member.2 :: strings members := rfl

theorem strings_append (members more : List (α × α)) : strings (members ++ more) = strings members ++ strings more :=
  List.flatMap_append

theorem length_strings (members : List (α × α)) : (strings members).length = 2 * members.length := by
  induction members with
  | nil => rfl
  | cons member members ih =>
    rw [strings_cons, List.length_cons, List.length_cons, List.length_cons, ih]
    omega

end Strings

section Ring
variable {constantP : List UInt8 → Bool} {doc : MutDoc} {members : List (List UInt8 × List UInt8)}

theorem Holds.length (h : Holds constantP doc members) : doc.vals.length = 2 * members.length := by
  have hout : doc.vals[2 * members.length]? = none := by
    rw [h.vals, List.getElem?_eq_none (Nat.le_of_eq (length_strings members))]
    rfl
  have hle := List.getElem?_eq_none_iff.mp hout
  refine Nat.le_antisymm hle ?_
  by_contra hlt
  have hlast := h.vals doc.vals.length
  rw [List.getElem?_eq_none (Nat.le_refl _), List.getElem?_eq_getElem (by rw [length_strings]; omega)] at hlast
  cases hlast

theorem Holds.get (h : Holds constantP doc members) (more : List MutVal) {i : Nat} (hi : i < 2 * members.length) :
    (doc.vals ++ more)[i]!.next = if i + 1 = 2 * members.length then 0 else i + 1 := by
  have hget := h.vals i
  have hi' : i < (strings members).length := by rwa [length_strings]
  rw [List.getElem?_eq_getElem hi'] at hget
  have hleft : (doc.vals ++ more)[i]? = doc.vals[i]? := List.getElem?_append_left (by rwa [h.length])
  rw [List.getElem!_of_getElem? (hleft.trans hget)]
  rfl

/-- A member that is added stands behind the others. -/
theorem Holds.objAdd (h : Holds constantP doc members) (key val : List UInt8) :
    Holds constantP ({ doc with vals := doc.vals ++
      [(⟨key, isStrNoesc constantP key, 0⟩ : MutVal), (⟨val, isStrNoesc constantP val, 0⟩ : MutVal)] }.objAdd
        doc.vals.length (doc.vals.length + 1)) (members ++ [(key, val)]) where
  vals i := by
    have hlength := h.length
    rw [strings_append, List.length_append, List.length_singleton]
    by_cases hempty : members = []
    · subst hempty
      have hnil : doc.vals = [] := List.eq_nil_of_length_eq_zero hlength
      have hlen : doc.len = 0 := h.len
      rcases i with _ | _ | i <;> simp [MutDoc.objAdd, hnil, hlen, strings, ringVal]
    · have hptr := h.ptr hempty
      have hpos : 0 < members.length := List.length_pos_of_ne_nil hempty
      have hprev := h.get [(⟨key, isStrNoesc constantP key, 0⟩ : MutVal), ⟨val, isStrNoesc constantP val, 0⟩]
        (show doc.ptr < 2 * members.length by omega)
      have hlast := h.get [(⟨key, isStrNoesc constantP key, 0⟩ : MutVal), ⟨val, isStrNoesc constantP val, 0⟩]
        (show doc.ptr + 1 < 2 * members.length by omega)
      rw [if_neg (by omega)] at hprev
      rw [if_pos (by omega)] at hlast
      simp only [MutDoc.objAdd, ne_eq, h.len, Nat.ne_of_gt hpos, not_false_eq_true, if_true, hprev, hlast, List.getElem?_modify,
        List.getElem?_append, h.vals, length_strings, hlength]
      rcases Nat.lt_or_ge i (2 * members.length) with hi | hi
      · rw [if_pos hi, if_pos hi, List.getElem?_eq_getElem (by rwa [length_strings])]
        rcases Nat.lt_or_eq_of_le (Nat.le_of_lt_succ (show i < doc.ptr + 1 + 1 by omega)) with hbefore | rfl
        · simp [ringVal, show ¬doc.ptr + 1 = i by omega, show ¬2 * members.length + 1 = i by omega,
            show ¬2 * members.length = i by omega, show ¬i + 1 = 2 * members.length by omega,
            show ¬i + 1 = 2 * (members.length + 1) by omega]
        · simp [ringVal, show ¬2 * members.length = doc.ptr + 1 by omega, show ¬2 * members.length = doc.ptr by omega,
            show ¬2 * members.length = 2 * (members.length + 1) by omega, hptr]
      · rw [if_neg (by omega), if_neg (by omega)]
        obtain ⟨k, rfl⟩ := Nat.exists_eq_add_of_le hi
        rw [Nat.add_sub_cancel_left]
        rcases k with _ | _ | k
        · simp [ringVal, strings, show ¬doc.ptr + 1 = 2 * members.length by omega,
            show ¬2 * members.length + 1 = 2 * (members.length + 1) by omega]
        · simp [ringVal, strings, show ¬doc.ptr = 2 * members.length by omega,
            show 2 * members.length + 1 + 1 = 2 * (members.length + 1) by omega]
        · simp [strings]
  ptr := by
    intro hne
    show doc.vals.length + 2 = _
    rw [h.length, List.length_append, List.length_singleton]
    omega
  len := by
    show doc.len + 1 = _
    rw [h.len, List.length_append, List.length_singleton]

/-- A member as it is added: strings up to their first zero. -/
def cmember (member : List UInt8 × List UInt8) : List UInt8 × List UInt8 := (strz member.1, strz member.2)

theorem Holds.congr {doc' : MutDoc} (h : Holds constantP doc members) (hvals : doc'.vals = doc.vals) (hptr : doc'.ptr = doc.ptr)
    (hlen : doc'.len = doc.len) : Holds constantP doc' members where
  vals := hvals ▸ h.vals
  ptr := hptr ▸ h.ptr
  len := hlen ▸ h.len

theorem alloc_cases (alc : Alc) (doc : MutDoc) (count : Nat) :
    ∃ doc' granted, doc.alloc alc count = (doc', granted) ∧ (doc'.vals = doc.vals ∧ doc'.ptr = doc.ptr ∧ doc'.len = doc.len) ∧
      (granted = true → count ≤ doc.left → doc'.left = doc.left - count) ∧
      (granted = false → doc'.left = doc.left ∧ doc.left < count ∧ alc doc.calls = false) := by
  rw [MutDoc.alloc]
  by_cases hroom : doc.left < count
  · rw [if_pos hroom]
    cases halc : alc doc.calls with
    | true => exact ⟨_, _, rfl, ⟨rfl, rfl, rfl⟩, fun _ hle => absurd hroom (Nat.not_lt_of_le hle), fun h => Bool.noConfusion h⟩
    | false => exact ⟨_, _, rfl, ⟨rfl, rfl, rfl⟩, fun h => Bool.noConfusion h, fun _ => ⟨rfl, hroom, rfl⟩⟩
  · rw [if_neg hroom]
    exact ⟨_, _, rfl, ⟨rfl, rfl, rfl⟩, fun _ _ => rfl, fun h => Bool.noConfusion h⟩

/-- One call of `yyjson_mut_obj_add_str` adds a member or leaves those of the document as they are. -/
theorem Holds.addStr (h : Holds constantP doc members) (alc : Alc) (member : List UInt8 × List UInt8) :
    (Holds constantP (mutObjAddStr alc constantP doc member.1 member.2).1 (members ++ [cmember member]) ∧
      (2 ≤ doc.left → (mutObjAddStr alc constantP doc member.1 member.2).1.left = doc.left - 2)) ∨
    Holds constantP (mutObjAddStr alc constantP doc member.1 member.2).1 members ∧
      (mutObjAddStr alc constantP doc member.1 member.2).1.left = doc.left ∧ doc.left < 2 ∧ ∃ n, alc n = false := by
  rw [mutObjAddStr]
  obtain ⟨doc', granted, halloc, ⟨hvals, hptr, hlen⟩, hgranted, hfailed⟩ := alloc_cases alc doc 2
  have hsame := h.congr hvals hptr hlen
  rw [halloc]
  cases granted with
  | true => exact Or.inl ⟨hsame.objAdd (strz member.1) (strz member.2), hgranted rfl⟩
  | false =>
    obtain ⟨hleft, hroom, halc⟩ := hfailed rfl
    exact Or.inr ⟨hsame, hleft, hroom, _, halc⟩

/-- Of the members that are added those whose room is allocated are kept, in their order. -/
theorem Holds.addStrs (h : Holds constantP doc members) (alc : Alc) (more : List (List UInt8 × List UInt8)) :
    ∃ kept, kept.Sublist (more.map cmember) ∧ Holds constantP (addStrs alc constantP doc more) (members ++ kept) ∧
      (2 * more.length ≤ doc.left ∨ (∀ n, alc n = true) → kept = more.map cmember) := by
  induction more generalizing doc members with
  | nil => exact ⟨[], .slnil, (List.append_nil members).symm ▸ h, fun _ => rfl⟩
  | cons member more ih =>
    rw [Yyjson.addStrs, List.foldl_cons, ← Yyjson.addStrs, List.map_cons]
    rcases h.addStr alc member with ⟨hadded, hleft⟩ | ⟨hkept, hleft, hroom, n, halc⟩
    · obtain ⟨kept, hsub, hholds, hall⟩ := ih hadded
      refine ⟨cmember member :: kept, hsub.cons_cons _, ?_, fun hroom => ?_⟩
      · rwa [List.append_assoc] at hholds
      · refine congrArg _ (hall (hroom.imp_left fun hle => ?_))
        rw [List.length_cons] at hle
        rw [hleft (by omega)]
        omega
    · obtain ⟨kept, hsub, hholds, hall⟩ := ih hkept
      refine ⟨kept, hsub.cons _, hholds, fun hfits => ?_⟩
      rcases hfits with hle | hnever
      · rw [List.length_cons] at hle
        omega
      · rw [hnever n] at halc
        cases halc

end Ring

/-! ### Once around -/

def encodeMember (member : List Char × List Char) : List UInt8 × List UInt8 := (encode member.1, encode member.2)

section Writer
variable {constantP : List UInt8 → Bool} {alc : Alc} {buf : Buffer}

theorem le_sizeAlignUp (size : Nat) : size ≤ sizeAlignUp size sizeofWriteCtx := by
  simp only [sizeAlignUp, sizeofWriteCtx]
  omega

/-- The buffer grows as far as it is asked to, if the allocator gives it the room. -/
theorem Buffer.incrLen_cases (room : buf.text.length ≤ buf.alcLen) (extLen : Nat) :
    (∃ buf', buf.incrLen alc extLen = .ok buf' ∧ buf'.text = buf.text ∧ buf'.text.length + extLen ≤ buf'.alcLen) ∨
    buf.incrLen alc extLen = .error .memoryAllocation ∧ ∃ n, alc n = false := by
  rw [Buffer.incrLen]
  by_cases hfull : buf.alcLen ≤ buf.text.length + extLen
  · rw [if_pos hfull]
    cases halc : alc buf.calls with
    | true =>
      refine Or.inl ⟨_, rfl, rfl, ?_⟩
      have hgrown := le_sizeAlignUp (max (buf.alcLen / 2) extLen)
      have hmax := Nat.le_max_right (buf.alcLen / 2) extLen
      show buf.text.length + extLen ≤ buf.alcLen + sizeAlignUp (max (buf.alcLen / 2) extLen) sizeofWriteCtx
      omega
    | false => exact Or.inr ⟨rfl, _, halc⟩
  · rw [if_neg hfull]
    exact Or.inl ⟨buf, rfl, rfl, by omega⟩

/-- What puts a text of its own behind what is there, refuses a string that is not UTF-8 or lacks memory. -/
inductive Puts (alc : Alc) (buf : Buffer) (strs : List (List UInt8)) (text : List (List Char) → List Char) :
    Except WriteError Buffer → Prop where
  | ok {css : List (List Char)} {buf' : Buffer} (utf8 : strs = css.map encode) (put : buf'.text = buf.text ++ encode (text css))
      (room : buf'.text.length < buf'.alcLen) : Puts alc buf strs text (.ok buf')
  | invalidString {str : List UInt8} (mem : str ∈ strs) (invalid : ∀ cs, str ≠ encode cs) :
      Puts alc buf strs text (.error .invalidString)
  | memoryAllocation {n : Nat} (fails : alc n = false) : Puts alc buf strs text (.error .memoryAllocation)

/-- The text of `n` values: colons and commas take turns, and there is a comma behind the last one. -/
def valsText : List (List Char) → List Char
  | [] => []
  | cs :: css => Json.writeString spell cs ++ (if (css.length + 1) % 2 = 0 then ':' else ',') :: valsText css

theorem Puts.cons {buf' : Buffer} {cs : List Char} {strs : List (List UInt8)} {r : Except WriteError Buffer}
    (h : Puts alc buf' strs valsText r) (hput : buf'.text = buf.text ++
      encode (Json.writeString spell cs ++ [if (strs.length + 1) % 2 = 0 then ':' else ','])) :
    Puts alc buf (encode cs :: strs) valsText r := by
  cases h with
  | @ok css buf'' utf8 put room =>
    have htext : buf''.text = buf.text ++ encode (valsText (cs :: css)) := by
      rw [put, hput, List.append_assoc, ← encode_append, valsText, utf8, List.length_map, List.append_assoc, List.singleton_append]
    exact .ok (by rw [utf8, List.map_cons]) htext room
  | invalidString mem invalid => exact .invalidString (List.mem_cons_of_mem _ mem) invalid
  | memoryAllocation fails => exact .memoryAllocation fails

/-- A value is put alike, whichever way its mark chooses. -/
theorem writeMarked_eq {str : List UInt8} {noesc : Bool} (hnoesc : noesc = isStrNoesc constantP str)
    (room : buf.text.length + (6 * str.length + 2) ≤ buf.alcLen) (f : Buffer → Except WriteError Buffer) :
    (if noesc then writeStringNoesc str buf >>= f else writeString str buf >>= f) = writeString str buf >>= f := by
  cases hmark : noesc with
  | true => rw [if_pos rfl, writeStringNoesc_eq (hnoesc.symm.trans hmark) room]
  | false => rfl

theorem encode_sep (p : Prop) [Decidable p] : encode [if p then ':' else ','] = [if p then ':'.toUInt8 else ','.toUInt8] := by
  split <;> rfl

/-- Values that lead one to the next, from `pos` on, are put one behind another. -/
theorem writeVals_puts {vals : List MutVal} {strs : List (List UInt8)} {pos : Nat}
    (hvals : ∀ i str, strs[i]? = some str → ∃ v, vals[pos + i]? = some v ∧ v.str = str ∧ v.noesc = isStrNoesc constantP str ∧
      (i + 1 < strs.length → v.next = pos + i + 1)) (room : buf.text.length < buf.alcLen) :
    Puts alc buf strs valsText (writeVals alc vals strs.length pos buf) := by
  induction strs generalizing pos buf with
  | nil =>
    have hput : buf.text = buf.text ++ encode (valsText []) := (List.append_nil _).symm
    exact .ok rfl hput room
  | cons str strs ih =>
    obtain ⟨v, hv, rfl, hnoesc, hnext⟩ := hvals 0 str rfl
    rw [List.length_cons, writeVals, ← Nat.add_zero pos, hv]
    dsimp only
    rcases Buffer.incrLen_cases (Nat.le_of_lt room) (v.str.length * 6 + 16) with ⟨buf₁, hincr, htext, hroom⟩ | ⟨herr, n, hn⟩
    · rw [hincr, ok_bind, writeMarked_eq hnoesc (by omega)]
      have hroom' : buf₁.text.length + (6 * v.str.length + 2) ≤ buf₁.alcLen := by omega
      rcases writeString_encode_or hroom' with ⟨cs, hcs⟩ | herr
      · have hlength := length_encode_spell_le cs
        rw [hcs] at hroom hroom' ⊢
        have hput : ((buf₁.add (encode (Json.writeString spell cs))).add
            (encode [if (strs.length + 1) % 2 = 0 then ':' else ','])).text = buf.text ++
              encode (Json.writeString spell cs ++ [if (strs.length + 1) % 2 = 0 then ':' else ',']) := by
          rw [Buffer.add_text, Buffer.add_text, htext, List.append_assoc, encode_append]
        have hsep : (buf₁.add (encode (Json.writeString spell cs))).text.length + 2 ≤ buf₁.alcLen := by
          rw [Buffer.add_text, encode_writeString, List.length_append, List.length_cons, List.length_append, List.length_singleton]
          omega
        rw [writeString_encode hroom', ok_bind, Buffer.put_eq (Nat.le_of_succ_le hsep), ok_bind]
        simp only [decide_eq_true_eq, ← encode_sep]
        refine Puts.cons ?_ hput
        have hroom₃ : ((buf₁.add (encode (Json.writeString spell cs))).add
            (encode [if (strs.length + 1) % 2 = 0 then ':' else ','])).text.length < buf₁.alcLen := by
          rw [Buffer.add_text, List.length_append, encode_sep]
          exact hsep
        cases strs with
        | nil => exact ih (fun i str hi => absurd hi (by simp)) hroom₃
        | cons next strs =>
          rw [hnext (by simp)]
          refine ih (fun i str hi => ?_) hroom₃
          obtain ⟨w, hw, hstr, hmark, hlink⟩ := hvals (i + 1) str hi
          refine ⟨w, by rw [← hw]; congr 1; omega, hstr, hmark, fun hi' => ?_⟩
          rw [hlink (by rw [List.length_cons]; omega)]
          omega
      · rw [herr]
        refine .invalidString List.mem_cons_self fun cs hcs => ?_
        rw [hcs] at hroom' herr
        rw [writeString_encode hroom'] at herr
        cases herr
    · rw [herr]
      exact .memoryAllocation hn

/-! ### The whole text -/

/-- The text of the values of members is that of the members. -/
theorem valsText_strings (members : List (List Char × List Char)) :
    valsText (strings members) = members.flatMap fun member => Json.writeMember spell member ++ [','] := by
  induction members with
  | nil => rfl
  | cons member members ih =>
    rw [strings_cons, List.flatMap_cons, valsText, valsText, ih, List.length_cons, length_strings, if_pos (by omega),
      if_neg (by omega), Json.writeMember]
    simp only [List.append_assoc, List.cons_append, List.nil_append]

theorem exists_members {members : List (List UInt8 × List UInt8)} {css : List (List Char)} (h : strings members = css.map encode) :
    ∃ ms, css = strings ms ∧ members = ms.map encodeMember := by
  induction members generalizing css with
  | nil =>
    obtain rfl : css = [] := List.map_eq_nil_iff.mp h.symm
    exact ⟨[], rfl, rfl⟩
  | cons member members ih =>
    obtain ⟨key, value⟩ := member
    rcases css with _ | ⟨cs, _ | ⟨ds, css⟩⟩
    · cases h
    · cases h
    · simp only [strings_cons, List.map_cons, List.cons.injEq] at h
      obtain ⟨rfl, rfl, hrest⟩ := h
      obtain ⟨ms, rfl, rfl⟩ := ih hrest
      exact ⟨(cs, ds) :: ms, rfl, rfl⟩

/-- What `yyjson_mut_write` makes of members: their object, or an error that has a cause. -/
def Written (alc : Alc) (members : List (List UInt8 × List UInt8)) : Except WriteError (List UInt8) → Prop
  | .ok json => ∃ ms, members = ms.map encodeMember ∧ json = encode (Json.writeObject spell ms)
  | .error .invalidString => ∃ str ∈ strings members, ∀ cs, str ≠ encode cs
  | .error .fault => False
  | .error _ => ∃ n, alc n = false

theorem mutWriteMinify_written {doc : MutDoc} {members : List (List UInt8 × List UInt8)} (h : Holds constantP doc members)
    (hne : members ≠ []) : Written alc members (mutWriteMinify alc doc) := by
  have hpos : 0 < members.length := List.length_pos_of_ne_nil hne
  have hptr := h.ptr hne
  have hprev := h.get [] (show doc.ptr < 2 * members.length by omega)
  have hlast := h.get [] (show doc.ptr + 1 < 2 * members.length by omega)
  rw [List.append_nil, if_neg (by omega)] at hprev
  rw [List.append_nil, if_pos (by omega)] at hlast
  rw [mutWriteMinify]
  cases halc : alc doc.calls with
  | false => exact ⟨_, halc⟩
  | true =>
    have hbrace : 1 < sizeAlignUp (doc.estimatedValNum * estimatedMinifyRatio + 64) sizeofWriteCtx := by
      have hgrown := le_sizeAlignUp (doc.estimatedValNum * estimatedMinifyRatio + 64)
      omega
    have hvals (i : Nat) (str : List UInt8) (hi : (strings members)[i]? = some str) : ∃ v, doc.vals[0 + i]? = some v ∧ v.str = str ∧
        v.noesc = isStrNoesc constantP str ∧ (i + 1 < (strings members).length → v.next = 0 + i + 1) := by
      refine ⟨ringVal constantP (2 * members.length) i str, by rw [Nat.zero_add, h.vals, hi]; rfl, rfl, rfl, fun hi' => ?_⟩
      rw [length_strings] at hi'
      rw [ringVal, if_neg (by omega), Nat.zero_add]
    have hwritten : Puts alc ((⟨doc.calls + 1, [], sizeAlignUp (doc.estimatedValNum * estimatedMinifyRatio + 64) sizeofWriteCtx⟩ :
        Buffer).add ['{'.toUInt8]) (strings members) valsText _ := writeVals_puts hvals hbrace
    rw [length_strings, Nat.mul_comm 2] at hwritten
    rw [if_neg (by simp)]
    simp only [hprev, hlast, h.len]
    rw [Buffer.put_eq (Nat.le_of_lt hbrace), ok_bind]
    generalize writeVals alc doc.vals _ _ _ = r at hwritten ⊢
    cases hwritten with
    | @ok css buf' utf8 hput room =>
      obtain ⟨ms, rfl, rfl⟩ := exists_members utf8
      have hms : ms ≠ [] := fun hnil => hne (by rw [hnil]; rfl)
      rw [valsText_strings, Json.flatMap_writeMember hms, encode_append] at hput
      have htext : buf'.text = encode ('{' :: [','].intercalate (ms.map (Json.writeMember spell))) ++ [','.toUInt8] := by
        rw [hput, ← List.append_assoc]
        rfl
      have hroom : buf'.text.dropLast.length + 2 ≤ buf'.alcLen := by
        rw [htext, List.length_append, List.length_singleton] at room
        rw [htext, List.dropLast_concat]
        exact room
      rw [ok_bind, Buffer.put_eq hroom, ok_bind]
      refine ⟨ms, rfl, ?_⟩
      show buf'.text.dropLast ++ ['}'.toUInt8] = _
      rw [htext, List.dropLast_concat, Json.writeObject, encode_append]
      rfl
    | invalidString mem invalid => exact ⟨_, mem, invalid⟩
    | memoryAllocation fails => exact ⟨_, fails⟩

/-- What is written for members is an object of those whose room was allocated. -/
theorem mutWrite_written {doc : MutDoc} {members : List (List UInt8 × List UInt8)} (h : Holds constantP doc members) :
    Written alc members (mutWrite alc (some doc)) := by
  rw [mutWrite]
  by_cases hempty : members = []
  · subst hempty
    rw [if_pos (show doc.len = 0 from h.len)]
    cases halc : alc doc.calls with
    | true => exact ⟨[], rfl, rfl⟩
    | false => exact ⟨_, halc⟩
  · have hpos : 0 < members.length := List.length_pos_of_ne_nil hempty
    rw [if_neg (by rw [h.len]; omega)]
    exact mutWriteMinify_written h hempty

theorem mutDocNew_cases (alc : Alc) :
    (∃ doc, mutDocNew alc = some doc ∧ Holds constantP doc [] ∧ doc.left = 14) ∨ mutDocNew alc = none ∧ ∃ n, alc n = false := by
  rw [mutDocNew]
  cases hdoc : alc 0 with
  | false => exact Or.inr ⟨rfl, 0, hdoc⟩
  | true =>
    cases hpool : alc 1 with
    | false => exact Or.inr ⟨by simp [MutDoc.alloc, hpool], 1, hpool⟩
    | true =>
      exact Or.inl ⟨⟨2, 14, [16], 32, [], 0, 0⟩, by simp [MutDoc.alloc, hpool, valPoolInitSize, valPoolMaxSize],
        ⟨fun i => rfl, fun hne => absurd rfl hne, rfl⟩, rfl⟩

theorem writeMembers_written (alc : Alc) (constantP : List UInt8 → Bool) (members : List (List UInt8 × List UInt8)) :
    ∃ kept, kept.Sublist (members.map cmember) ∧ (members.length ≤ 7 ∨ (∀ n, alc n = true) → kept = members.map cmember) ∧
      Written alc kept (writeMembers alc constantP members) := by
  rw [writeMembers]
  rcases mutDocNew_cases alc with ⟨doc, hdoc, hholds, hleft⟩ | ⟨hdoc, n, hn⟩
  · obtain ⟨kept, hsub, hkept, hall⟩ := hholds.addStrs alc members
    rw [hdoc, Option.map_some]
    refine ⟨kept, hsub, fun hfits => hall (hfits.imp_left fun hle => ?_), mutWrite_written hkept⟩
    omega
  · rw [hdoc]
    exact ⟨members.map cmember, .refl _, fun _ => rfl, n, hn⟩

/-- What a reader of the JSON gets: the members, if there are few of them or memory never lacks. No string needs more than
the writer makes room for, and what is refused is not UTF-8. -/
def Reads (alc : Alc) (members : List (List UInt8 × List UInt8)) : Except WriteError (List UInt8) → Prop
  | .ok json => ∃ text ms, json = encode text ∧ Json.readObject text = some ms ∧
      (ms.map encodeMember).Sublist (members.map cmember) ∧
        (members.length ≤ 7 ∨ (∀ n, alc n = true) → ms.map encodeMember = members.map cmember)
  | .error .invalidString => ∃ str ∈ strings (members.map cmember), ∀ cs, str ≠ encode cs
  | .error .fault => False
  | .error _ => ∃ n, alc n = false

/-- The JSON of members reads back as the members. -/
theorem writeMembers_reads (alc : Alc) (constantP : List UInt8 → Bool) (members : List (List UInt8 × List UInt8)) :
    Reads alc members (writeMembers alc constantP members) := by
  obtain ⟨kept, hsub, hall, hwritten⟩ := writeMembers_written alc constantP members
  cases hr : writeMembers alc constantP members with
  | ok json =>
    rw [hr] at hwritten
    obtain ⟨ms, rfl, rfl⟩ := hwritten
    exact ⟨_, ms, rfl, spells.readObject ms, hsub, hall⟩
  | error e =>
    rw [hr] at hwritten
    cases e with
    | invalidString =>
      obtain ⟨str, hmem, hinvalid⟩ := hwritten
      obtain ⟨member, hmember, hstr⟩ := List.mem_flatMap.mp hmem
      exact ⟨str, List.mem_flatMap.mpr ⟨member, hsub.subset hmember, hstr⟩, hinvalid⟩
    | fault => exact hwritten
    | invalidParameter => exact hwritten
    | memoryAllocation => exact hwritten

end Writer

end Vcmp.Yyjson
