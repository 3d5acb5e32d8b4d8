import FontManager.Source.Utils

structure ClientInfo where
  bundleName : Str
  userId : Int
  tokenId : Int
  appIdentifier : Str
deriving DecidableEq

structure FontClientRegistry where
  clients : List (Int × ClientInfo)
  userClients : Int → List Int

namespace FontClientRegistry

open FontDefine FontManagerUtils

def empty : FontClientRegistry := ⟨[], fun _ => []⟩

def info (r : FontClientRegistry) (tokenId : Int) : Option ClientInfo := r.clients.lookup tokenId

def buildAppIdentifier (scope tokenId : Int) : Str := makeAppIdentifier scope tokenId

def insertToken (tokenId : Int) (tokens : List Int) : List Int :=
  if tokenId ∈ tokens then tokens else tokenId :: tokens

def registerClient (hasBinder linked : Bool) (bundleName : Str) (userId tokenId : Int)
    (r : FontClientRegistry) : FontErrorCode × FontClientRegistry :=
  if (r.info tokenId).isSome then (.scopeFontRepeatedRegister, r)
  else if ((r.userClients userId).length : Int) ≥ maxScopeFontAppNum then
    (.scopeFontExceedRegisterLimit, r)
  else if !hasBinder then (.systemError, r)
  else if linked then
    (.ok,
      { clients := (tokenId,
          { bundleName, userId, tokenId, appIdentifier := buildAppIdentifier fontScopeApp tokenId })
          :: r.clients
        userClients := fun u => if u = userId then insertToken tokenId (r.userClients u)
          else r.userClients u })
  else (.systemError, r)

-- The critical section that UnregisterClient and OnClientDied share.
def eraseClient (tokenId : Int) (r : FontClientRegistry) :
    Option (Str × Int) × FontClientRegistry :=
  match r.info tokenId with
  | none => (none, r)
  | some it =>
    (some (it.appIdentifier, it.userId),
      { clients := r.clients.filter fun c => c.1 ≠ tokenId
        userClients := fun u => if u = it.userId then (r.userClients u).erase tokenId
          else r.userClients u })

def isClientRegistered (tokenId : Int) (r : FontClientRegistry) : Bool := (r.info tokenId).isSome

-- An int32_t in the source. It cannot wrap: account ids are below 2 ^ 31 / 200000, and an account
-- has at most maxScopeFontAppNum clients.
def getClientCount (r : FontClientRegistry) : Nat := r.clients.length

end FontClientRegistry
