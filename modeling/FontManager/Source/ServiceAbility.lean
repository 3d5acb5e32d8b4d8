import FontManager.Source.LoadManager
import Mathlib.Logic.Function.Basic

open Interaction

-- How far a thread has come in GetFontServiceAbility.
inductive AbilityStage where
  | idle
  | checking
  | locking
  | rechecking
  | loading
  | entered
  | waiting (request : Nat)
  | getting
deriving DecidableEq

namespace AbilityStage

def locked : AbilityStage → Bool
  | .idle | .checking | .locking => false
  | .rechecking | .loading | .entered | .waiting _ | .getting => true

def call : AbilityStage → Option LoadSaCall
  | .entered => some .entered
  | .waiting n => some (.waiting n)
  | _ => none

end AbilityStage

structure AbilityProcess where
  manager : FontServiceLoadManager
  loadMutex : Option Nat
  stage : Nat → AbilityStage
  registered : Bool
  departures : Nat
  requests : Nat
  inFlight : List Nat
  expired : List Nat
  succeeded : List Nat
  timely : List Nat
  results : List (Option Nat × Bool)
  answers : List (Nat × Bool)

inductive AbilityStep where
  | getFontServiceAbility (thread : Nat) (manager : Bool)
  | checkSystemAbility (thread : Nat)
  | lock (thread : Nat)
  | recheckSystemAbility (thread : Nat)
  | initStatus (thread : Nat)
  | refuse (thread : Nat)
  | loadSystemAbility (thread : Nat)
  | checkSaLoaded (thread : Nat)
  | getSystemAbility (thread : Nat)
  | deliver (request : Nat) (loaded : Bool)
  | expire (request : Nat)
  | register
  | depart

namespace AbilityStep

def load : AbilityStep → Option LoadStep
  | .initStatus _ => some .initStatus
  | .refuse _ => some .refuse
  | .loadSystemAbility _ => some .loadSystemAbility
  | .checkSaLoaded _ => some .checkSaLoaded
  | .deliver n loaded => some (.deliver n loaded)
  | .expire n => some (.expire n)
  | _ => none

end AbilityStep

namespace AbilityProcess

def start : AbilityProcess where
  manager := {}
  loadMutex := none
  stage := fun _ => .idle
  registered := false
  departures := 0
  requests := 0
  inFlight := []
  expired := []
  succeeded := []
  timely := []
  results := []
  answers := []

def move (s : AbilityProcess) (t : Nat) (st : AbilityStage) : AbilityProcess :=
  { s with stage := Function.update s.stage t st }

def answer (s : AbilityProcess) (t : Nat) (found : Bool) : AbilityProcess :=
  { s.move t .idle with answers := s.answers ++ [(t, found)] }

-- The lock_guard goes out of scope with the call that made it.
def leave (s : AbilityProcess) (t : Nat) (found : Bool) : AbilityProcess :=
  { s.answer t found with loadMutex := none }

def next (s : AbilityProcess) : AbilityStep → Option AbilityProcess
  | .getFontServiceAbility t manager =>
    if s.stage t = .idle then some (if manager then s.move t .checking else s.answer t false)
    else none
  | .checkSystemAbility t =>
    if s.stage t = .checking then
      some (if s.registered then s.answer t true else s.move t .locking)
    else none
  | .lock t =>
    if s.stage t = .locking ∧ s.loadMutex = none then
      some { s.move t .rechecking with loadMutex := some t }
    else none
  | .recheckSystemAbility t =>
    if s.stage t = .rechecking then
      some (if s.registered then s.leave t true else s.move t .loading)
    else none
  | .initStatus t =>
    if s.stage t = .loading then
      some { s.move t .entered with manager := s.manager.initStatus }
    else none
  | .refuse t =>
    if s.stage t = .entered then
      some { s.leave t false with results := s.results ++ [(none, false)] }
    else none
  | .loadSystemAbility t =>
    if s.stage t = .entered then
      some { s.move t (.waiting s.requests) with
        requests := s.requests + 1
        inFlight := s.inFlight ++ [s.requests] }
    else none
  | .checkSaLoaded t =>
    match s.stage t with
    | .waiting n =>
      if s.manager.waitStatus = true ∨ n ∈ s.expired then
        some { (if s.manager.checkSaLoaded then s.move t .getting else s.leave t false) with
          results := s.results ++ [(some n, s.manager.checkSaLoaded)] }
      else none
    | _ => none
  | .getSystemAbility t =>
    if s.stage t = .getting then some (s.leave t s.registered) else none
  | .deliver n loaded =>
    if n ∈ s.inFlight then
      some { s with
        manager := FontSALoadCallback.onLoadSystemAbility loaded s.manager
        inFlight := s.inFlight.erase n
        succeeded := if loaded then s.succeeded ++ [n] else s.succeeded
        timely := if loaded ∧ n ∉ s.expired then s.timely ++ [n] else s.timely }
    else none
  | .expire n => if n < s.requests then some { s with expired := s.expired ++ [n] } else none
  | .register => some { s with registered := true }
  | .depart =>
    if s.registered then some { s with registered := false, departures := s.departures + 1 }
    else none

def machine : Machine AbilityProcess AbilityStep := ⟨next⟩

end AbilityProcess
