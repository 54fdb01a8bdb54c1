import Vcmp.Ini
import Vcmp.Lib.Strtol

/-! `src/main.c` up to the initialisation of the two servers. -/

namespace Vcmp.Main
open CString Ini

def ascii (s : String) : List UInt8 := s.toList.map Char.toUInt8

/-- What the functions of libevent and of the servers return: whether there is an event base, and whether a server can be
    initialised with an address and a port. -/
structure World where
  eventBaseNew : Bool
  listenerInit : Option (List UInt8) → UInt16 → Bool
  apiInit : Option (List UInt8) → UInt16 → Bool

/-- A call of `vcmp_listener_init` or of `vcmp_api_init`. -/
inductive Call where
  | listenerInit (ip : Option (List UInt8)) (port : UInt16)
  | apiInit (ip : Option (List UInt8)) (port : UInt16)
  deriving DecidableEq

/-- `(uint16_t)` of a `long` -/
def toPort (n : Int) : UInt16 := UInt16.ofNat (n % 2 ^ 16).toNat

/-- The rest of `main` from `event_base_new` on: the calls, and the status, 1 behind `error`. -/
def startServers (world : World) (listenerIp : Option (List UInt8)) (listenerPort : UInt16) (apiIp : Option (List UInt8))
    (apiPort : UInt16) : List Call × Nat :=
  if ¬world.eventBaseNew then ([], 1)
  else if ¬world.listenerInit listenerIp listenerPort then ([.listenerInit listenerIp listenerPort], 1)
  else if ¬world.apiInit apiIp apiPort then ([.listenerInit listenerIp listenerPort, .apiInit apiIp apiPort], 1)
  else ([.listenerInit listenerIp listenerPort, .apiInit apiIp apiPort], 0)

/-- `main()` with the configuration that `ini_parse` gives. There is no result where `strtol` is handed `NULL`. -/
def main (world : World) (cfg : Option IniConfig) : Option (List Call × Nat) :=
  match cfg with
  | none => some ([], 1)
  | some cfg => do
    let listenerIp := iniGetValue cfg (some (ascii "listener")) (ascii "address")
    let listenerPortStr := iniGetValue cfg (some (ascii "listener")) (ascii "port")
    let apiIp := iniGetValue cfg (some (ascii "wsapi")) (ascii "address")
    let apiPortStr := iniGetValue cfg (some (ascii "wsapi")) (ascii "port")
    let (listenerPort, errno) := strtol (← listenerPortStr)
    if errno then return ([], 1)
    let (apiPort, errno) := strtol (← apiPortStr)
    if errno then return ([], 1)
    return startServers world listenerIp (toPort listenerPort) apiIp (toPort apiPort)

end Vcmp.Main
