import FontManager.Interaction.Machine
import FontManager.Source.Server

open FontDefine FontManagerUtils Interaction

abbrev Binder := Nat

structure FontClientDeathRecipient where
  tokenId : Int
deriving DecidableEq

structure Cleanup where
  client : Str × Int
  byDeath : Bool
  program : FontTask Unit

structure RegistryProcess where
  world : World
  binder : Int → Option Binder
  recipients : List (Binder × FontClientDeathRecipient)
  dead : List Binder
  notifications : List FontClientDeathRecipient
  cleanups : List Cleanup

inductive RegistryStep where
  | registerClient (binder : Option Binder) (linked : Bool) (bundleName : Str)
      (userId tokenId : Int)
  | unregisterClient (tokenId : Int)
  | die (binder : Binder)
  | onRemoteDied (i : Nat)
  | cleanup (i : Nat) (io : Io)
  | other (o : Op) (io : Io)

namespace RegistryProcess

def start (w : World) : RegistryProcess where
  world := { w with registry := .empty }
  binder _ := none
  recipients := []
  dead := []
  notifications := []
  cleanups := []

def registerClient (binder : Option Binder) (linked : Bool) (bundleName : Str)
    (userId tokenId : Int) (s : RegistryProcess) : RegistryProcess :=
  let r := s.world.registry.registerClient binder.isSome linked bundleName userId tokenId
  match r.1, binder with
  | .ok, some b =>
    { s with
      world := { s.world with registry := r.2 }
      binder := fun t => if t = tokenId then some b else s.binder t
      recipients := (b, ⟨tokenId⟩) :: s.recipients }
  | _, _ => { s with world := { s.world with registry := r.2 } }

def erase (tokenId : Int) (byDeath : Bool) (s : RegistryProcess) : RegistryProcess :=
  let r := s.world.registry.eraseClient tokenId
  match r.1 with
  | none => s
  | some client =>
    { s with
      world := { s.world with registry := r.2 }
      binder := fun t => if t = tokenId then none else s.binder t
      cleanups := s.cleanups ++ [⟨client, byDeath, FontClientRegistry.cleanup client⟩] }

def removeDeathRecipient (tokenId : Int) (s : RegistryProcess) : RegistryProcess :=
  match s.binder tokenId with
  | none => s
  | some b => { s with recipients := s.recipients.erase (b, ⟨tokenId⟩) }

def unregisterClient (tokenId : Int) (s : RegistryProcess) : RegistryProcess :=
  if s.world.registry.isClientRegistered tokenId then
    (s.removeDeathRecipient tokenId).erase tokenId false
  else s

def onClientDied (tokenId : Int) (s : RegistryProcess) : RegistryProcess := s.erase tokenId true

def die (b : Binder) (s : RegistryProcess) : RegistryProcess where
  world := s.world
  binder := s.binder
  recipients := s.recipients.filter fun x => x.1 ≠ b
  dead := b :: s.dead
  notifications := s.notifications ++ (s.recipients.filter fun x => x.1 = b).map (·.2)
  cleanups := s.cleanups

def next (s : RegistryProcess) : RegistryStep → Option RegistryProcess
  | .registerClient binder linked bundleName userId tokenId =>
    some (s.registerClient binder linked bundleName userId tokenId)
  | .unregisterClient tokenId => some (s.unregisterClient tokenId)
  | .die b => if b ∈ s.dead then none else some (s.die b)
  | .onRemoteDied i =>
    (s.notifications[i]?).map fun recipient =>
      { s with notifications := s.notifications.eraseIdx i }.onClientDied recipient.tokenId
  | .cleanup i io =>
    match s.cleanups[i]? with
    | some ⟨client, byDeath, .call o k⟩ =>
      some { s with
        world := (s.world.exec o io).2
        cleanups := s.cleanups.set i ⟨client, byDeath, k (s.world.exec o io).1⟩ }
    | _ => none
  | .other (.registry _) _ => none
  | .other o io => some { s with world := (s.world.exec o io).2 }

def machine : Machine RegistryProcess RegistryStep := ⟨next⟩

end RegistryProcess
