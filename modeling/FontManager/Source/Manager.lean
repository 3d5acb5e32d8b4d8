import FontManager.Source.World

open FontDefine FontManagerUtils Interaction

abbrev FontTask := Program sig

structure Env where
  clock : Tm
  thread : Nat
deriving DecidableEq

structure ScopeFontInstallInfo where
  fd : Fd
  scope : Int
  srcPath : Str
  bundleName : Str
  appIdentifier : Str
  userId : Int
deriving DecidableEq

namespace FontManagerUtils

def fileTask (op : FileOp) : FontTask op.Reply := Program.perform (P := sig) (.file op)

def checkPathExist (path : Str) : FontTask Bool := fileTask (.exists path)

def strstr (path needle : Str) : Bool := path.tails.any fun t => needle.isPrefixOf t

def hasDotComponent (path : Str) : Bool := strstr path "/.".toList || strstr path "./".toList

def createDirectory (path : Str) : FontTask Bool := fileTask (.createDirectory path)

def createDirWithPermission (path : Str) : FontTask Bool :=
  if path = [] ∨ hasDotComponent path = true then pure false else createDirectory path

def createConfig (path : Str) : FontTask Bool := fileTask (.createConfig path)

def createFileWithPermission (path : Str) : FontTask Bool :=
  if path = [] ∨ hasDotComponent path = true then pure false else createConfig path

def checkOrCreateDir (path : Str) : FontTask Bool := do
  if ← checkPathExist path then pure true else createDirWithPermission path

def checkFontConfigPath (installPath : Str) : FontTask Bool := do
  if ← checkPathExist (installPath ++ fontConfigFile) then pure true
  else createFileWithPermission (installPath ++ fontConfigFile)

def checkAndInitScopeFontPath (installPath : Str) : FontTask Bool := do
  if ← checkOrCreateDir installPath then checkOrCreateDir (installPath ++ tempFile) else pure false

def checkAndInitInstallPath (installPath : Str) : FontTask Bool := do
  if ← checkAndInitScopeFontPath installPath then checkFontConfigPath installPath else pure false

def copyFile (fd : Fd) (path : Str) : FontTask Bool := fileTask (.copy fd path)

def rename (src dest : Str) : FontTask Bool := fileTask (.rename src dest)

def renameFile (src dest : Str) : FontTask Bool := do
  if ← checkPathExist src then rename src dest else pure false

def removeAll (path : Str) : FontTask Bool := fileTask (.removeAll path)

def removeFile (fileName : Str) : FontTask Bool := do
  if ← checkPathExist fileName then removeAll fileName else pure true

def deleteDir (rootPath : Str) : FontTask Unit := do
  if ← checkPathExist rootPath then
    let _ ← removeAll rootPath
  else pure ()

def weaklyCanonical (path : Str) : FontTask (Option Str) := fileTask (.weaklyCanonical path)

def directories (path : Str) : FontTask (List Str) := fileTask (.directories path)

def getAllCreatedUserIds : FontTask (List Int) := Program.perform (P := sig) .getAllCreatedUserIds

end FontManagerUtils

namespace FontManager

def config (userId : Int) (op : ConfigOp) : FontTask op.Reply :=
  Program.perform (P := sig) (.config userId op)

def publishFontUpdate (type : FontEventType) (fullName : Str) (userId : Int) : FontTask Unit :=
  Program.perform (P := sig) (.publishFontUpdate { type, fullName, userId })

def getMaxInstallNum : FontTask Int := Program.perform (P := sig) .getMaxInstallNum

def getFormatFullName (fullNames : List Str) : Str := List.intercalate [','] fullNames

def sandBoxPathToRealPath (installPath path : Str) : Str :=
  if installPathApp.isPrefixOf path then installPath ++ path.drop installPathApp.length
  else installPath ++ getFileName path

def escapes (fileName : Str) : Bool :=
  fileName = [] || fileName = ['.'] || fileName = ['.', '.'] || fileName.contains '/' ||
    fileName.contains '\\'

def withSlash (path : Str) : Str :=
  if path = [] ∨ path.getLast? = some '/' then path else path ++ ['/']

def validateAndResolveRealPath (installPath path : Str) : FontTask Str := do
  if escapes (getFileName path) then pure []
  else
    match ← weaklyCanonical (sandBoxPathToRealPath installPath path) with
    | none => pure []
    | some canonicalStr =>
      match ← weaklyCanonical installPath with
      | none => pure []
      | some canonicalInstall =>
        if (withSlash canonicalInstall).isPrefixOf canonicalStr then pure canonicalStr
        else pure []

def getAppInstallPath (userId : Int) (appIdentifier : Str) : Str :=
  installPath userId ++ appIdentifier ++ ['/']

def taggedName (env : Env) (fileName : Str) : Str :=
  getFileTime env.clock ++ ['_'] ++ Text.decimal env.thread ++ ['_'] ++ fileName

def copyFileForInstall (env : Env) (installPath fileName : Str) (fd : Fd) : FontTask Str := do
  let tempPath := installPath ++ tempFile ++ taggedName env fileName
  if ← copyFile fd tempPath then
    let destPath := installPath ++ taggedName env fileName
    if ← renameFile tempPath destPath then pure destPath
    else
      let _ ← removeFile tempPath
      pure []
  else pure []

def fixStaleRecords (userId : Int) (installPath : Str) : List Str → FontTask (Option FontErrorCode)
  | [] => pure none
  | fullName :: rest => do
    let findPath : Str ← config userId (.getFontFileByName fullName)
    if findPath = [] then fixStaleRecords userId installPath rest
    else if ← checkPathExist (sandBoxPathToRealPath installPath findPath) then
      pure (some .installedAlrady)
    else
      let deleted : Bool ← config userId (.deleteFontRecord findPath)
      if deleted then fixStaleRecords userId installPath rest else pure (some .installFail)

def copyAndInsertFont (env : Env) (fd : Fd) (userId : Int) (fullNames : List Str)
    (maxInstallNum : Int) : FontTask FontErrorCode := do
  let fileName := getFileName (getFilePathByFd fd)
  let destPath ← copyFileForInstall env (installPath userId) fileName fd
  if destPath = [] then pure .copyFail
  else
    let insertRet : FontErrorCode ← config userId
      (.insertFontRecordIfUnderLimit (installPathApp ++ getFileName destPath) fullNames
        maxInstallNum)
    if insertRet ≠ .ok then
      deleteDir destPath
      pure insertRet
    else
      publishFontUpdate .install (getFormatFullName fullNames) userId
      pure .ok

def installFont (env : Env) (fd : Fd) (userId : Int) : FontTask FontErrorCode := do
  if ← checkAndInitInstallPath (installPath userId) then
    let fullNames := getFullNamesByFd fd
    if fullNames = [] then pure .fileVerifyFail
    else
      match ← fixStaleRecords userId (installPath userId) fullNames with
      | some code => pure code
      | none =>
        let maxInstallNum ← getMaxInstallNum
        let installed : Nat ← config userId .getInstalledFontsNum
        if (installed : Int) ≥ maxInstallNum then pure .maxFileCount
        else copyAndInsertFont env fd userId fullNames maxInstallNum
  else pure .fileNotExists

def removeIfExists (realPath : Str) : FontTask Bool := do
  if realPath = [] then pure true
  else if ← checkPathExist realPath then removeFile realPath
  else pure true

def uninstallFont (fontFullName : Str) (userId : Int) : FontTask FontErrorCode := do
  if fontFullName = [] then pure .uninstallFileNotExists
  else
    match ← config userId (.getFontRecordByName fontFullName) with
    | none => pure .uninstallFileNotExists
    | some record =>
      if record.fontPath = [] ∨ record.scope ≥ 0 then pure .uninstallFileNotExists
      else
        let realPath ← validateAndResolveRealPath (installPath userId) record.fontPath
        if realPath = [] then pure .uninstallFileNotExists
        else if ← removeIfExists realPath then
          let deleted : Bool ← config userId (.deleteFontRecord record.fontPath)
          if deleted then
            publishFontUpdate .uninstall fontFullName userId
            pure .ok
          else pure .uninstallFail
        else pure .uninstallRemoveFail

def findInstalledName (userId : Int) : List Str → FontTask Bool
  | [] => pure false
  | name :: rest => do
    let existing : Option FontRecordInfo ← config userId (.getFontRecordByName name)
    if existing.isSome then pure true else findInstalledName userId rest

def validateScopeFontForInstall (userId : Int) (srcPath : Str) (fd : Fd) :
    FontTask FontErrorCode := do
  let record : Option FontRecordInfo ← config userId (.getFontRecordByUrl srcPath)
  if record.isSome then pure .installedAlrady
  else
    let maxInstallNum ← getMaxInstallNum
    let installed : Nat ← config userId .getTotalInstalledFontsNum
    if (installed : Int) ≥ maxInstallNum then pure .maxFileCount
    else if getFullNamesByFd fd = [] then pure .fileVerifyFail
    else if ← findInstalledName userId (getFullNamesByFd fd) then pure .installedAlrady
    else pure .ok

def scopeRecord (info : ScopeFontInstallInfo) (destPath : Str) : FontRecordInfo where
  fontPath := installPathApp ++ info.appIdentifier ++ ['/'] ++ getFileName destPath
  fullNames := getFullNamesByFd info.fd
  scope := info.scope
  srcPath := info.srcPath
  appIdentifier := info.appIdentifier
  bundleName := info.bundleName

def copyAndInsertScopeFont (env : Env) (info : ScopeFontInstallInfo) : FontTask FontErrorCode := do
  let appDir := getAppInstallPath info.userId info.appIdentifier
  if ← checkAndInitScopeFontPath appDir then
    let fileName := getFileName (getFilePathByFd info.fd)
    let destPath ← copyFileForInstall env appDir fileName info.fd
    if destPath = [] then pure .copyFail
    else
      let inserted : Bool ←
        config info.userId (.insertScopeFontRecord (scopeRecord info destPath))
      if inserted then pure .ok
      else
        deleteDir destPath
        pure .systemError
  else pure .systemError

def installScopeFont (env : Env) (info : ScopeFontInstallInfo) : FontTask FontErrorCode := do
  if info.scope ≠ fontScopeApp ∧ info.scope ≠ fontScopeSession then pure .invalidParam
  else if ← checkAndInitInstallPath (installPath info.userId) then
    let updated : Bool ← config info.userId .checkAndUpdateFontRecord
    if updated then
      let ret ← validateScopeFontForInstall info.userId info.srcPath info.fd
      if ret ≠ .ok then pure ret
      else
        let ret ← copyAndInsertScopeFont env info
        if ret ≠ .ok then pure ret
        else
          publishFontUpdate .install (getFormatFullName (getFullNamesByFd info.fd)) info.userId
          pure .ok
    else pure .systemError
  else pure .systemError

def owns (record : FontRecordInfo) (bundleName : Str) (tokenId : Int) : Bool :=
  record.bundleName = bundleName && record.appIdentifier = makeAppIdentifier record.scope tokenId

def uninstallScopeFont (srcPath bundleName : Str) (tokenId userId : Int) :
    FontTask FontErrorCode := do
  if srcPath = [] then pure .scopeFontNotFound
  else
    match ← config userId (.getFontRecordByUrl srcPath) with
    | none => pure .scopeFontNotFound
    | some record =>
      if owns record bundleName tokenId then
        let realPath ← validateAndResolveRealPath (installPath userId) record.fontPath
        if ← removeIfExists realPath then
          let deleted : Bool ← config userId (.deleteScopeFontRecordByUrl srcPath)
          if deleted then
            publishFontUpdate .uninstall (getFormatFullName record.fullNames) userId
            pure .ok
          else pure .systemError
        else pure .uninstallRemoveFail
      else pure .scopeFontNotFound

def getFontScope (srcPath bundleName : Str) (tokenId userId : Int) : FontTask Int := do
  match ← config userId (.getFontRecordByUrl srcPath) with
  | none => pure FontErrorCode.scopeFontNotFound.value
  | some record =>
    if owns record bundleName tokenId then pure record.scope
    else pure FontErrorCode.scopeFontNotFound.value

def sweepRecords (userId : Int) : List FontRecordInfo → FontTask Unit
  | [] => pure ()
  | record :: rest => do
    let realPath ← validateAndResolveRealPath (installPath userId) record.fontPath
    let _ ← removeIfExists realPath
    let _ ← config userId (.deleteScopeFontRecordByUrl record.srcPath)
    sweepRecords userId rest

def removedNames (records : List FontRecordInfo) : Str :=
  List.intercalate [','] ((records.map fun r => getFormatFullName r.fullNames).filter (· ≠ []))

def reportRemoved (userId : Int) (records : List FontRecordInfo) : FontTask Unit :=
  if records = [] then pure ()
  else publishFontUpdate .uninstall (removedNames records) userId

def cleanupAppScopeFonts (appIdentifier : Str) (userId : Int) : FontTask FontErrorCode := do
  let records : List FontRecordInfo ← config userId (.getFontRecordsByAppId appIdentifier)
  sweepRecords userId records
  reportRemoved userId records
  deleteDir (getAppInstallPath userId appIdentifier)
  pure .ok

def cleanupScopeFontsByUser (userId : Int) : FontTask FontErrorCode := do
  let scopeRecords : List FontRecordInfo ← config userId .getScopeFontRecords
  sweepRecords userId scopeRecords
  reportRemoved userId scopeRecords
  pure .ok

def cleanupAppScopeFontsByUser (userId : Int) : FontTask FontErrorCode := do
  let appRecords : List FontRecordInfo ← config userId .getAppScopeFontRecords
  sweepRecords userId appRecords
  reportRemoved userId appRecords
  pure .ok

end FontManager
