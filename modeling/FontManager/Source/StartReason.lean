import FontManager.Collection.Strtol
import FontManager.Source.Lifecycle

open FontDefine Text

structure SystemAbilityOnDemandReason where
  name : Str
  value : Str
deriving DecidableEq

namespace FontManagerServer

def reasonBootCompleted : Str := "usual.event.BOOT_COMPLETED".toList
def reasonUserStopping : Str := "usual.event.USER_STOPPING".toList
def invalidUserId : Int := -1
def int32Max : Int := 2147483647

-- With longMax for LONG_MAX, which the width of a long decides.
def parseUserIdFromReason (longMax : Nat) (reason : SystemAbilityOnDemandReason) : Int :=
  if reason.value = [] then invalidUserId
  else
    let userId := strtol longMax (cStr reason.value)
    if userId.rest.length = (cStr reason.value).length ∨ userId.rest ≠ [] ∨
        userId.inRange = false ∨ userId.value < 0 ∨ userId.value > int32Max then invalidUserId
    else userId.value

def startReason (longMax : Nat) (reason : SystemAbilityOnDemandReason) : StartReason :=
  if reason.name = reasonBootCompleted then .bootCompleted
  else if reason.name = reasonUserStopping then .userStopping (parseUserIdFromReason longMax reason)
  else .other

variable {C : Type}

def onReceiveEvent (action : Str) (code : Int) : List (ServerEvent C) :=
  if action = reasonUserStopping then
    if code ≥ 0 then [.userStopping code] else []
  else []

end FontManagerServer
