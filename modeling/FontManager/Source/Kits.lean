import FontManager.Source.Client
import FontManager.Source.Lifecycle

open FontDefine FontManagerUtils Interaction

structure IpcError where
  code : Int
  raised : code ≠ FontErrorCode.ok.value

-- What GetFontServiceAbility and the transaction that follows come to: a transaction can fail
-- before the service has the request or after the service has carried it out.
inductive Ipc where
  | noService
  | fails (error : IpcError) (delivered : Bool)
  | answers

structure Connection where
  fs : FileSystem
  ipc : Ipc
  caller : Caller
  env : Env

namespace FontManagerKits

variable {P : PFunctor.{0, 0}}

def transact (ipc : Ipc) (absent : Int × Int) (task : Program P Int) (answer : Int → Int × Int) :
    Program P (Int × Int) :=
  match ipc with
  | .noService => pure absent
  | .fails error delivered =>
    if delivered then do
      let _ ← task
      pure (error.code, 0)
    else pure (error.code, 0)
  | .answers => do
    let reply ← task
    pure (answer reply)

def outValue (reply : Int) : Int × Int := (FontErrorCode.ok.value, reply)

def openPath (fs : FileSystem) (path : Str) : Option (Str × Fd) :=
  (FontManagerClient.pathToRealPath fs path).bind fun realPath =>
    (fs.openFile realPath).map fun fd => (realPath, fd)

def installFont (conn : Connection) (fontPath : Str) : FontTask (Int × Int) :=
  match openPath conn.fs fontPath with
  | none => pure (outValue FontErrorCode.fileNotExists.value)
  | some (_, fd) =>
    transact conn.ipc (outValue FontErrorCode.installFail.value)
      (FontManagerServer.program (.installFont conn.caller conn.env fd)) outValue

def uninstallFont (conn : Connection) (fontName : Str) : FontTask (Int × Int) :=
  transact conn.ipc (outValue FontErrorCode.uninstallFail.value)
    (FontManagerServer.program (.uninstallFont conn.caller fontName)) outValue

def installScopeFont (conn : Connection) (fontPath : Str) (scope : Int) : FontTask (Int × Int) :=
  match openPath conn.fs fontPath with
  | none => pure (outValue FontErrorCode.fileNotExists.value)
  | some (realPath, fd) =>
    transact conn.ipc (outValue FontErrorCode.systemError.value)
      (FontManagerServer.program (.installScopeFont conn.caller conn.env fd scope realPath)) outValue

def uninstallScopeFont (conn : Connection) (srcPath : Str) : FontTask (Int × Int) :=
  transact conn.ipc (outValue FontErrorCode.systemError.value)
    (FontManagerServer.program (.uninstallScopeFont conn.caller srcPath)) outValue

def scopeAnswer (scope : Int) : Int × Int :=
  if scope < 0 ∨ scope > 1 then (scope, 0) else outValue scope

def getFontScope (conn : Connection) (srcPath : Str) : FontTask (Int × Int) :=
  transact conn.ipc (FontErrorCode.systemError.value, fontScopeNone)
    (FontManagerServer.program (.getFontScope conn.caller srcPath)) scopeAnswer

def request (ipc : Ipc) (absent : FontErrorCode) (task : Program P Int) : Program P Int := do
  let answer ← transact ipc (absent.value, 0) task fun ret => (ret, 0)
  pure answer.1

def onFontObserver (conn : Connection) : FontTask Int :=
  request conn.ipc .systemError (FontManagerServer.program (.onFontObserver conn.caller true))

def offFontObserver (conn : Connection) : FontTask Int :=
  request conn.ipc .systemError (FontManagerServer.program (.offFontObserver conn.caller))

def dataMigration {C : Type} (conn : Connection) (listener : C) (id : Nat) : ProcessTask C Int :=
  request conn.ipc .systemError
    (FontManagerServer.body id (.dataMigration conn.caller listener))

end FontManagerKits

namespace FontManagerInnerApi

open FontManagerKits

def installFont (conn : Connection) (fontPath : Str) (userId : Int) : FontTask Int :=
  match openPath conn.fs fontPath with
  | none => pure FontErrorCode.fileNotExists.value
  | some (_, fd) =>
    request conn.ipc .installFail
      (FontManagerServer.program (.installFontWithUserId conn.caller conn.env fd userId))

def uninstallFont (conn : Connection) (fontName : Str) (userId : Int) : FontTask Int :=
  request conn.ipc .uninstallFail
    (FontManagerServer.program (.uninstallFontWithUserId conn.caller fontName userId))

end FontManagerInnerApi
