import Vcmp.Main

/-! The ports of the two servers against the strings they come from. -/

namespace Vcmp.Main
open CString Ini

variable {world : World} {cfg : IniConfig} {s t : List UInt8} {p : Nat}

def listenerPort (cfg : IniConfig) : Option (List UInt8) := iniGetValue cfg (some (ascii "listener")) (ascii "port")

def apiPort (cfg : IniConfig) : Option (List UInt8) := iniGetValue cfg (some (ascii "wsapi")) (ascii "port")

/-- The string is a decimal numeral of a port. -/
def IsPort (s : List UInt8) (p : Nat) : Prop := Numeral s ∧ decimal s = p ∧ p ≤ 65535

/-- A call hands one of the two ports to its server. -/
def Call.Gets (p q : Nat) : Call → Prop
  | .listenerInit _ port => port.toNat = p
  | .apiInit _ port => port.toNat = q

/-- Whatever the servers do, `main` initialises them with the two ports that the configuration has, or takes the error exit
    without a call. -/
def PortsExact (cfg : IniConfig) : Prop := ∀ world, ∃ calls code, main world (some cfg) = some (calls, code) ∧
  ((calls = [] ∧ code = 1) ∨ ∃ s t p q, listenerPort cfg = some s ∧ apiPort cfg = some t ∧ IsPort s p ∧ IsPort t q ∧
    ∀ call ∈ calls, call.Gets p q)

/-! ### What main does -/

theorem main_no_listener (world : World) (h : listenerPort cfg = none) : main world (some cfg) = none := by
  rw [listenerPort] at h
  rw [main, h]
  rfl

theorem main_listener_overflows (world : World) (h : listenerPort cfg = some s) (hs : Overflows s) : main world (some cfg) = some ([], 1) := by
  rw [listenerPort] at h
  rw [main, h]
  simp [strtol_of_overflows hs]

theorem main_no_api (world : World) (h : listenerPort cfg = some s) (hs : ¬Overflows s) (hapi : apiPort cfg = none) :
    main world (some cfg) = none := by
  rw [listenerPort] at h
  rw [apiPort] at hapi
  rw [main, h, hapi]
  simp [strtol_of_not_overflows hs]

theorem main_api_overflows (world : World) (h : listenerPort cfg = some s) (hapi : apiPort cfg = some t) (ht : Overflows t) :
    main world (some cfg) = some ([], 1) := by
  rw [listenerPort] at h
  rw [apiPort] at hapi
  rw [main, h, hapi]
  simp [strtol_of_overflows ht]

/-- Where both strings have a number in range each server gets its number, cut to 16 bits. -/
theorem main_ports (world : World) (h : listenerPort cfg = some s) (hs : ¬Overflows s) (hapi : apiPort cfg = some t) (ht : ¬Overflows t) :
    ∃ listenerIp apiIp, main world (some cfg) = some (startServers world listenerIp (toPort (number s)) apiIp (toPort (number t))) := by
  rw [listenerPort] at h
  rw [apiPort] at hapi
  rw [main, h, hapi]
  exact ⟨_, _, by simp [strtol_of_not_overflows hs, strtol_of_not_overflows ht]; rfl⟩

theorem gets_startServers (world : World) (listenerIp apiIp : Option (List UInt8)) (port port' : UInt16) :
    ∀ call ∈ (startServers world listenerIp port apiIp port').1, call.Gets port.toNat port'.toNat := by
  unfold startServers
  split_ifs <;> simp [Call.Gets]

theorem startServers_calls (world : World) (h : world.eventBaseNew = true) (listenerIp apiIp : Option (List UInt8)) (port port' : UInt16) :
    (startServers world listenerIp port apiIp port').1 ≠ [] := by
  rw [startServers, if_neg (not_not_intro h)]
  split_ifs <;> simp

/-! ### Ports -/

theorem toNat_toPort {n : Int} : ((toPort n).toNat : Int) = n % 2 ^ 16 := by
  rw [toPort, UInt16.toNat_ofNat']
  omega

theorem toPort_of_isPort (h : IsPort s p) : (toPort (number s)).toNat = p := by
  obtain ⟨hnumeral, rfl, hport⟩ := h
  have hnat := toNat_toPort (n := number s)
  rw [number_of_numeral hnumeral] at hnat ⊢
  omega

/-- The ports are exact or refused if and only if the one of the listener is there, and one of the two numbers does not fit into
    a `long`, or both strings are ports. -/
theorem portsExact_iff (cfg : IniConfig) : PortsExact cfg ↔ ∃ s, listenerPort cfg = some s ∧
    (Overflows s ∨ ∃ t, apiPort cfg = some t ∧ (Overflows t ∨ (∃ p, IsPort s p) ∧ ∃ q, IsPort t q)) := by
  constructor
  · intro h
    obtain ⟨calls, code, hmain, hports⟩ := h ⟨true, fun _ _ => true, fun _ _ => true⟩
    cases hlistener : listenerPort cfg with
    | none => cases (main_no_listener _ hlistener).symm.trans hmain
    | some s =>
      refine ⟨s, rfl, or_iff_not_imp_left.mpr fun hs => ?_⟩
      cases hapi : apiPort cfg with
      | none => cases (main_no_api _ hlistener hs hapi).symm.trans hmain
      | some t =>
        refine ⟨t, rfl, or_iff_not_imp_left.mpr fun ht => ?_⟩
        obtain ⟨listenerIp, apiIp, hstart⟩ := main_ports ⟨true, fun _ _ => true, fun _ _ => true⟩ hlistener hs hapi ht
        have hcalls := startServers_calls ⟨true, fun _ _ => true, fun _ _ => true⟩ rfl listenerIp apiIp (toPort (number s)) (toPort (number t))
        rw [Option.some.inj (hstart.symm.trans hmain)] at hcalls
        rcases hports with ⟨hnone, -⟩ | ⟨s', t', p, q, hs', ht', hp, hq, -⟩
        · exact absurd hnone hcalls
        · obtain rfl := Option.some.inj (hlistener.symm.trans hs')
          obtain rfl := Option.some.inj (hapi.symm.trans ht')
          exact ⟨⟨p, hp⟩, q, hq⟩
  · rintro ⟨s, hlistener, h⟩ world
    by_cases hs : Overflows s
    · exact ⟨[], 1, main_listener_overflows world hlistener hs, Or.inl ⟨rfl, rfl⟩⟩
    obtain ⟨t, hapi, h⟩ := h.resolve_left hs
    by_cases ht : Overflows t
    · exact ⟨[], 1, main_api_overflows world hlistener hapi ht, Or.inl ⟨rfl, rfl⟩⟩
    obtain ⟨⟨p, hp⟩, q, hq⟩ := h.resolve_left ht
    obtain ⟨listenerIp, apiIp, hstart⟩ := main_ports world hlistener hs hapi ht
    refine ⟨_, _, hstart, Or.inr ⟨s, t, p, q, hlistener, hapi, hp, hq, ?_⟩⟩
    have hgets := gets_startServers world listenerIp apiIp (toPort (number s)) (toPort (number t))
    rwa [toPort_of_isPort hp, toPort_of_isPort hq] at hgets

/-- A configuration that asks for port 65537. -/
def highPort : IniConfig := ⟨[⟨ascii "listener", [⟨ascii "port", ascii "65537"⟩]⟩, ⟨ascii "wsapi", [⟨ascii "port", ascii "80"⟩]⟩], []⟩

/-- The listener is initialised with port 1. -/
theorem high_port_starts : ¬PortsExact highPort := by
  intro h
  obtain ⟨calls, code, hmain, hports⟩ := h ⟨true, fun _ _ => true, fun _ _ => true⟩
  have hrun : main ⟨true, fun _ _ => true, fun _ _ => true⟩ (some highPort) = some ([.listenerInit none 1, .apiInit none 80], 0) := by
    decide +kernel
  obtain ⟨rfl, rfl⟩ := Prod.mk.inj (Option.some.inj (hrun.symm.trans hmain))
  rcases hports with ⟨hnone, -⟩ | ⟨s, t, p, q, hs, -, hp, -, -⟩
  · cases hnone
  · have hstring : listenerPort highPort = some (ascii "65537") := by decide +kernel
    obtain rfl := Option.some.inj (hstring.symm.trans hs)
    obtain ⟨-, rfl, hport⟩ := hp
    exact absurd hport (by decide +kernel)

end Vcmp.Main
