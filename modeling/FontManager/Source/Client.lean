import FontManager.Source.Server

open FontDefine FontManagerUtils

structure FontServiceDeathRecipient (O : Type) where
  observer : Option O
deriving DecidableEq

structure FontManagerClient (O : Type) where
  saBinder : Bool
  saDeathRecipient : Option (FontServiceDeathRecipient O)
  recipients : List (FontServiceDeathRecipient O)

structure FileSystem where
  realpath : Str → Option Str
  access : Str → Bool
  openFile : Str → Option Fd
  canonical : ∀ p q, realpath p = some q → q.head? = some '/' ∧ Text.NulFree q

namespace FontManagerClient

section observer

variable {O : Type} [DecidableEq O]

def start : FontManagerClient O := ⟨false, none, []⟩

def removeDeathRecipient (c : FontManagerClient O) : List (FontServiceDeathRecipient O) :=
  match c.saBinder, c.saDeathRecipient with
  | true, some recipient => c.recipients.erase recipient
  | _, _ => c.recipients

def link (observer : Option O) (c : FontManagerClient O) : FontManagerClient O where
  saBinder := true
  saDeathRecipient := some ⟨observer⟩
  recipients := ⟨observer⟩ :: c.removeDeathRecipient

def unlink (c : FontManagerClient O) : FontManagerClient O where
  saBinder := false
  saDeathRecipient := none
  recipients := c.removeDeathRecipient

-- The answer is the service's; none stands for a service that could not be loaded.
def onFontObserver (observer : Option O) (answer : Option Int) (c : FontManagerClient O) :
    Int × FontManagerClient O :=
  match answer with
  | none => (FontErrorCode.systemError.value, c)
  | some ret =>
    if ret ≠ FontErrorCode.ok.value ∧ ret ≠ FontErrorCode.scopeFontRepeatedRegister.value then
      (ret, (c.link observer).unlink)
    else (ret, c.link observer)

def offFontObserver (answer : Option Int) (c : FontManagerClient O) : Int × FontManagerClient O :=
  match answer with
  | none => (FontErrorCode.systemError.value, c)
  | some ret => (ret, c.unlink)

def onRemoteDied (c : FontManagerClient O) : List O := c.recipients.filterMap (·.observer)

end observer

section files

def pathMax : Nat := 4096

def pathToRealPath (fs : FileSystem) (path : Str) : Option Str :=
  if path = [] then none
  else if path.length ≥ pathMax then none
  else
    match fs.realpath (Text.cStr path) with
    | none => none
    | some realPath => if fs.access realPath then some realPath else none

def installScopeFont (fs : FileSystem) (available : Bool) (caller : Caller) (env : Env)
    (fontPath : Str) (scope : Int) : FontTask (Int × Int) :=
  match pathToRealPath fs fontPath with
  | none => pure (FontErrorCode.ok.value, FontErrorCode.fileNotExists.value)
  | some realPath =>
    match fs.openFile realPath with
    | none => pure (FontErrorCode.ok.value, FontErrorCode.fileNotExists.value)
    | some fd =>
      if available then do
        let outValue ← FontManagerServer.installScopeFontInner caller env fd scope realPath
        pure (FontErrorCode.ok.value, outValue.value)
      else pure (FontErrorCode.ok.value, FontErrorCode.systemError.value)

def uninstallScopeFont (available : Bool) (caller : Caller) (srcPath : Str) :
    FontTask (Int × Int) :=
  if available then do
    let outValue ← FontManagerServer.uninstallScopeFontInner caller srcPath
    pure (FontErrorCode.ok.value, outValue.value)
  else pure (FontErrorCode.ok.value, FontErrorCode.systemError.value)

def getFontScope (available : Bool) (caller : Caller) (srcPath : Str) (outValue : Int) :
    FontTask (Int × Int) :=
  if available then do
    let scope ← FontManagerServer.getFontScopeInner caller srcPath
    if scope < 0 ∨ scope > 1 then pure (scope, outValue)
    else pure (FontErrorCode.ok.value, scope)
  else pure (FontErrorCode.systemError.value, fontScopeNone)

end files

end FontManagerClient
