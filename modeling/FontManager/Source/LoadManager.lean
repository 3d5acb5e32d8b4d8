import FontManager.Interaction.Machine

open Interaction

inductive LoadSaStatus where
  | waitResult
  | success
  | fail
deriving DecidableEq

structure FontServiceLoadManager where
  loadSaStatus : LoadSaStatus := .waitResult

namespace FontServiceLoadManager

def onLoadSystemAbilitySuccess (_ : FontServiceLoadManager) : FontServiceLoadManager := ⟨.success⟩

def onLoadSystemAbilityFail (_ : FontServiceLoadManager) : FontServiceLoadManager := ⟨.fail⟩

def initStatus (_ : FontServiceLoadManager) : FontServiceLoadManager := ⟨.waitResult⟩

-- What wait_for returns, notified or timed out: the value of its predicate.
def waitStatus (m : FontServiceLoadManager) : Bool := m.loadSaStatus ≠ .waitResult

def checkSaLoaded (m : FontServiceLoadManager) : Bool :=
  !(!m.waitStatus || m.loadSaStatus ≠ .success)

end FontServiceLoadManager

namespace FontSALoadCallback

-- The callback names no request: it writes the status of the one manager of the process.
def onLoadSystemAbility (loaded : Bool) (m : FontServiceLoadManager) : FontServiceLoadManager :=
  if loaded then m.onLoadSystemAbilitySuccess else m.onLoadSystemAbilityFail

end FontSALoadCallback

inductive LoadSaCall where
  | entered
  | waiting (request : Nat)
deriving DecidableEq

def LoadSaCall.request : LoadSaCall → Option Nat
  | .entered => none
  | .waiting n => some n

structure LoadProcess where
  manager : FontServiceLoadManager
  call : Option LoadSaCall
  requests : Nat
  inFlight : List Nat
  expired : List Nat
  succeeded : List Nat
  timely : List Nat
  results : List (Option Nat × Bool)

inductive LoadStep where
  | initStatus
  | refuse
  | loadSystemAbility
  | deliver (request : Nat) (loaded : Bool)
  | expire (request : Nat)
  | checkSaLoaded

namespace LoadProcess

def start : LoadProcess where
  manager := {}
  call := none
  requests := 0
  inFlight := []
  expired := []
  succeeded := []
  timely := []
  results := []

-- LoadSa runs under loadMutex_, so at most one call is past InitStatus and not yet back.
def next (s : LoadProcess) : LoadStep → Option LoadProcess
  | .initStatus =>
    if s.call = none then some { s with manager := s.manager.initStatus, call := some .entered }
    else none
  | .refuse =>
    if s.call = some .entered then
      some { s with call := none, results := s.results ++ [(none, false)] }
    else none
  | .loadSystemAbility =>
    if s.call = some .entered then
      some { s with
        call := some (.waiting s.requests)
        requests := s.requests + 1
        inFlight := s.inFlight ++ [s.requests] }
    else none
  | .deliver n loaded =>
    if n ∈ s.inFlight then
      some { s with
        manager := FontSALoadCallback.onLoadSystemAbility loaded s.manager
        inFlight := s.inFlight.erase n
        succeeded := if loaded then s.succeeded ++ [n] else s.succeeded
        timely := if loaded ∧ n ∉ s.expired then s.timely ++ [n] else s.timely }
    else none
  | .expire n => if n < s.requests then some { s with expired := s.expired ++ [n] } else none
  | .checkSaLoaded =>
    match s.call with
    | some (.waiting n) =>
      if s.manager.waitStatus = true ∨ n ∈ s.expired then
        some { s with call := none, results := s.results ++ [(some n, s.manager.checkSaLoaded)] }
      else none
    | _ => none

def machine : Machine LoadProcess LoadStep := ⟨next⟩

end LoadProcess
