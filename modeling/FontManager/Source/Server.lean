import FontManager.Interaction.Interleaving
import FontManager.Source.Manager

open FontDefine FontManagerUtils Interaction

structure Caller where
  updateFont : Bool
  updateScopeFont : Bool
  tokenId : Int
  userId : Int
  bundleName : Str
deriving DecidableEq

inductive Request where
  | installFont (caller : Caller) (env : Env) (fd : Fd)
  | uninstallFont (caller : Caller) (fontName : Str)
  | installFontWithUserId (caller : Caller) (env : Env) (fd : Fd) (userId : Int)
  | uninstallFontWithUserId (caller : Caller) (fontName : Str) (userId : Int)
  | onFontObserver (caller : Caller) (hasBinder : Bool)
  | offFontObserver (caller : Caller)
  | installScopeFont (caller : Caller) (env : Env) (fd : Fd) (scope : Int) (srcPath : Str)
  | uninstallScopeFont (caller : Caller) (srcPath : Str)
  | getFontScope (caller : Caller) (srcPath : Str)
  | clientDied (tokenId : Int)
  | cleanupAllScopeFontsOnBoot
  | cleanupUserScopeFonts (userId : Int)
  | cleanupAppScopeFontsOnStart
deriving DecidableEq

namespace FontManagerUtils

def deleteDirs : List Str → FontTask Unit
  | [] => pure ()
  | path :: rest => do
    deleteDir path
    deleteDirs rest

def clearAllTempFileDir (userIds : List Int) : FontTask Unit :=
  match userIds with
  | [] => pure ()
  | userId :: rest => do
    if ← checkPathExist (installPath userId ++ tempFile) then
      deleteDir (installPath userId ++ tempFile)
      clearAllTempFileDir rest
    else clearAllTempFileDir rest

def cleanupDirs (selected : Str → Bool) : List Int → FontTask Unit
  | [] => pure ()
  | userId :: rest => do
    if ← checkPathExist (installPath userId) then
      let names : List Str ← directories (installPath userId)
      deleteDirs ((names.filter selected).map (installPath userId ++ ·))
      cleanupDirs selected rest
    else cleanupDirs selected rest

def isAppDir (dirName : Str) : Bool := appFontDirPrefix.isPrefixOf dirName

def isScopeDir (dirName : Str) : Bool := isAppDir dirName || sessionFontDirPrefix.isPrefixOf dirName

def cleanupAllScopeFontDirs (userIds : List Int) : FontTask Unit := cleanupDirs isScopeDir userIds

def cleanupAppScopeFontDirs (userIds : List Int) : FontTask Unit := cleanupDirs isAppDir userIds

end FontManagerUtils

namespace FontClientRegistry

def perform (op : RegistryOp) : FontTask op.Reply := Program.perform (P := sig) (.registry op)

def cleanup (client : Str × Int) : FontTask Unit := do
  if client.1 ≠ [] ∧ client.2 ≥ 0 then
    let _ ← FontManager.cleanupAppScopeFonts client.1 client.2
  else pure ()

def unregisterClient (tokenId : Int) : FontTask FontErrorCode := do
  match ← perform (.eraseClient tokenId) with
  | none => pure .scopeFontNotRegistered
  | some client =>
    cleanup client
    pure .ok

def onClientDied (tokenId : Int) : FontTask FontErrorCode := do
  match ← perform (.eraseClient tokenId) with
  | none => pure .ok
  | some client =>
    cleanup client
    pure .ok

end FontClientRegistry

namespace FontManagerServer

open FontManager

def value (task : FontTask FontErrorCode) : FontTask Int := do
  let code ← task
  pure code.value

def installFontInner (caller : Caller) (env : Env) (fd : Fd) : FontTask FontErrorCode :=
  if !caller.updateFont then pure .noPermission
  else if caller.userId < 0 then pure .installFail
  else installFont env fd caller.userId

def uninstallFontInner (caller : Caller) (fontName : Str) : FontTask FontErrorCode :=
  if !caller.updateFont then pure .noPermission
  else if caller.userId < 0 then pure .uninstallFail
  else uninstallFont fontName caller.userId

def installFontWithUserId (caller : Caller) (env : Env) (fd : Fd) (userId : Int) :
    FontTask FontErrorCode :=
  if !caller.updateFont then pure .noPermission
  else if userId < 0 then pure .invalidParam
  else installFont env fd userId

def uninstallFontWithUserId (caller : Caller) (fontName : Str) (userId : Int) :
    FontTask FontErrorCode :=
  if !caller.updateFont then pure .noPermission
  else if userId < 0 then pure .invalidParam
  else uninstallFont fontName userId

def onFontObserverInner (caller : Caller) (hasBinder : Bool) : FontTask FontErrorCode :=
  if !caller.updateScopeFont then pure .noPermission
  else FontClientRegistry.perform
    (.registerClient hasBinder caller.bundleName caller.userId caller.tokenId)

def offFontObserverInner (caller : Caller) : FontTask FontErrorCode :=
  if !caller.updateScopeFont then pure .noPermission
  else FontClientRegistry.unregisterClient caller.tokenId

def scopeInfo (caller : Caller) (fd : Fd) (scope : Int) (srcPath : Str) : ScopeFontInstallInfo where
  fd := fd
  scope := scope
  srcPath := srcPath
  bundleName := caller.bundleName
  appIdentifier := makeAppIdentifier scope caller.tokenId
  userId := caller.userId

def installRegistered (caller : Caller) (env : Env) (fd : Fd) (scope : Int) (srcPath : Str) :
    FontTask FontErrorCode :=
  if caller.bundleName = [] then pure .systemError
  else installScopeFont env (scopeInfo caller fd scope srcPath)

def installScopeFontInner (caller : Caller) (env : Env) (fd : Fd) (scope : Int) (srcPath : Str) :
    FontTask FontErrorCode := do
  if !caller.updateScopeFont then pure .noPermission
  else if scope ≠ fontScopeApp ∧ scope ≠ fontScopeSession then pure .invalidParam
  else if caller.userId < 0 then pure .systemError
  else if scope = fontScopeApp then
    if ← FontClientRegistry.perform (.isClientRegistered caller.tokenId) then
      installRegistered caller env fd scope srcPath
    else pure .scopeFontNotRegistered
  else installRegistered caller env fd scope srcPath

def uninstallScopeFontInner (caller : Caller) (srcPath : Str) : FontTask FontErrorCode :=
  if !caller.updateScopeFont then pure .noPermission
  else if caller.userId < 0 then pure .systemError
  else if caller.bundleName = [] then pure .systemError
  else uninstallScopeFont srcPath caller.bundleName caller.tokenId caller.userId

def getFontScopeInner (caller : Caller) (srcPath : Str) : FontTask Int :=
  if !caller.updateScopeFont then pure FontErrorCode.noPermission.value
  else if caller.userId < 0 then pure FontErrorCode.systemError.value
  else if caller.bundleName = [] then pure FontErrorCode.systemError.value
  else getFontScope srcPath caller.bundleName caller.tokenId caller.userId

def cleanupUsers (cleanup : Int → FontTask FontErrorCode) : List Int → FontTask Unit
  | [] => pure ()
  | userId :: rest => do
    let _ ← cleanup userId
    cleanupUsers cleanup rest

def cleanupAllScopeFontsOnBoot : FontTask FontErrorCode := do
  let userIds ← getAllCreatedUserIds
  cleanupUsers cleanupScopeFontsByUser userIds
  let tempUserIds ← getAllCreatedUserIds
  clearAllTempFileDir tempUserIds
  let dirUserIds ← getAllCreatedUserIds
  cleanupAllScopeFontDirs dirUserIds
  pure .ok

def cleanupUserScopeFonts (userId : Int) : FontTask FontErrorCode :=
  if userId < 0 then pure .ok else cleanupScopeFontsByUser userId

def cleanupAppScopeFontsOnStart : FontTask FontErrorCode := do
  let userIds ← getAllCreatedUserIds
  cleanupUsers cleanupAppScopeFontsByUser userIds
  let dirUserIds ← getAllCreatedUserIds
  cleanupAppScopeFontDirs dirUserIds
  pure .ok

def program : Request → FontTask Int
  | .installFont caller env fd => value (installFontInner caller env fd)
  | .uninstallFont caller fontName => value (uninstallFontInner caller fontName)
  | .installFontWithUserId caller env fd userId => value (installFontWithUserId caller env fd userId)
  | .uninstallFontWithUserId caller fontName userId =>
    value (uninstallFontWithUserId caller fontName userId)
  | .onFontObserver caller hasBinder => value (onFontObserverInner caller hasBinder)
  | .offFontObserver caller => value (offFontObserverInner caller)
  | .installScopeFont caller env fd scope srcPath =>
    value (installScopeFontInner caller env fd scope srcPath)
  | .uninstallScopeFont caller srcPath => value (uninstallScopeFontInner caller srcPath)
  | .getFontScope caller srcPath => getFontScopeInner caller srcPath
  | .clientDied tokenId => value (FontClientRegistry.onClientDied tokenId)
  | .cleanupAllScopeFontsOnBoot => value cleanupAllScopeFontsOnBoot
  | .cleanupUserScopeFonts userId => value (cleanupUserScopeFonts userId)
  | .cleanupAppScopeFontsOnStart => value cleanupAppScopeFontsOnStart

def service : Service sig Request Int World Io := ⟨semantics, program⟩

end FontManagerServer
