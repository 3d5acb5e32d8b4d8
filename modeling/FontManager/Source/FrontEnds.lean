import FontManager.Source.Kits

open FontDefine FontManagerUtils

structure BusinessError where
  code : Int
  message : Option Str
deriving DecidableEq

inductive Settled where
  | resolved (value : Option Int)
  | rejected (error : BusinessError)
deriving DecidableEq

-- What the property onServiceDied of an observer is.
inductive ServiceDied where
  | function
  | undefined
  | other
deriving DecidableEq

-- The calls on fonts and observers. dataMigration, which acts on the whole process, is a function of
-- each binding beside execute.
inductive ApiCall where
  | installFont (path : Option Str)
  | uninstallFont (fullName : Option Str)
  | installScopeFont (url : Option Str) (scope : Int)
  | uninstallScopeFont (url : Option Str)
  | getFontScope (url : Option Str)
  | onFontObserver (observer : Option ServiceDied)
  | offFontObserver

abbrev ErrMsgMap := List (FontErrorCode × Str)

namespace ErrMsgMap

def find (m : ErrMsgMap) (errCode : Int) : Option Str :=
  (List.find? (fun e => e.1.value = errCode) m).map Prod.snd

def text (m : ErrMsgMap) (other : Str) (errCode : Int) : Str := (m.find errCode).getD other

end ErrMsgMap

namespace FrontEnd

def permissionMsg : Str :=
  ("Permission verification failed. The application does not " ++
    "have the permission required to call the API.").toList
def systemAppMsg : Str :=
  "Permission verification failed. A non-system application calls a system API.".toList
def abnormalMsg : Str := "The system ability works abnormally.".toList
def systemErrorMsg : Str := "Call failed due to system error.".toList
def otherMsg : Str := "Other error.".toList

-- Both bindings hold this table, the one under g_ScopeFontErrMsgMap, the other under errorMsg.
def errorMsg : ErrMsgMap :=
  [(.noPermission, permissionMsg),
    (.notSystemApp, systemAppMsg),
    (.invalidParam, "Parameter error.".toList),
    (.fileNotExists, "The font does not exist.".toList),
    (.fileVerifyFail, "The font is not supported.".toList),
    (.copyFail, "Failed to copy the font file.".toList),
    (.installedAlrady, "The font file is installed.".toList),
    (.maxFileCount, "Exceeded the maximum number of installed files.".toList),
    (.installFail, abnormalMsg),
    (.uninstallFileNotExists, "The font file does not exist.".toList),
    (.uninstallRemoveFail, "Failed to delete the font file.".toList),
    (.uninstallFail, abnormalMsg),
    (.systemError, systemErrorMsg),
    (.dataMigrationing, "Data migration is in progress.".toList),
    (.scopeFontNotFound, "The scope font is not found.".toList),
    (.scopeFontRepeatedRegister, "The font observer is already registered.".toList),
    (.scopeFontExceedRegisterLimit,
      "The maximum number of font observers has been reached.".toList),
    (.scopeFontNotRegistered, "The font observer is not registered.".toList)]

-- A JavaScript value that is no string is read as the empty string.
def getString (value : Option Str) : Str := Text.cStr (value.getD [])

end FrontEnd

open FrontEnd

namespace FontManagerAddon

def installErrMsg : ErrMsgMap :=
  [(.noPermission, permissionMsg),
    (.notSystemApp, systemAppMsg),
    (.fileNotExists, "The font does not exist.".toList),
    (.fileVerifyFail, "The font is not supported.".toList),
    (.copyFail, "Failed to copy the font file.".toList),
    (.installedAlrady, "The font file is installed.".toList),
    (.maxFileCount, "Exceeded the maximum number of installed files.".toList),
    (.installFail, abnormalMsg)]

def uninstallErrMsg : ErrMsgMap :=
  [(.noPermission, permissionMsg),
    (.notSystemApp, systemAppMsg),
    (.uninstallFileNotExists, "The font file does not exist.".toList),
    (.uninstallRemoveFail, "Failed to delete the font file.".toList),
    (.uninstallFail, abnormalMsg)]

def dataMigrationErrMsg : ErrMsgMap :=
  [(.noPermission, permissionMsg),
    (.notSystemApp, systemAppMsg),
    (.dataMigrationing, "Data migration is in progress.".toList),
    (.systemError, systemErrorMsg)]

def getScopeFontErrMsg (errCode : Int) : Str := errorMsg.text systemErrorMsg errCode

def getDataMigrationErrMsg (errCode : Int) : Str := dataMigrationErrMsg.text systemErrorMsg errCode

def setErrorMsg (message : Str) (errCode : Int) : Settled := .rejected ⟨errCode, some message⟩

def settleFont (table : ErrMsgMap) (abnormal : FontErrorCode) (answer : Int × Int) : Settled :=
  let errCode := if answer.1 ≠ FontErrorCode.ok.value then abnormal.value else answer.2
  if errCode ≠ FontErrorCode.ok.value then setErrorMsg (table.text otherMsg errCode) errCode
  else .resolved (some errCode)

def settleScope (answer : Int × Int) : Settled :=
  if answer.1 ≠ FontErrorCode.ok.value then setErrorMsg (getScopeFontErrMsg answer.1) answer.1
  else if answer.2 ≠ FontErrorCode.ok.value then
    setErrorMsg (getScopeFontErrMsg answer.2) answer.2
  else .resolved none

def settleQuery (answer : Int × Int) : Settled :=
  if answer.1 ≠ FontErrorCode.ok.value then setErrorMsg (getScopeFontErrMsg answer.1) answer.1
  else .resolved (some answer.2)

def settleObserver (ret : Int) : Settled :=
  if ret ≠ FontErrorCode.ok.value then setErrorMsg (getScopeFontErrMsg ret) ret else .resolved none

def settleMigration (result : Int) : Settled :=
  if result ≠ FontErrorCode.ok.value then setErrorMsg (getDataMigrationErrMsg result) result
  else .resolved (some result)

def invalidParam : Settled :=
  setErrorMsg (getScopeFontErrMsg FontErrorCode.invalidParam.value) FontErrorCode.invalidParam.value

def execute (conn : Connection) : ApiCall → FontTask Settled
  | .installFont path =>
    if getString path = [] then
      pure (setErrorMsg "The font does not exist.".toList FontErrorCode.fileNotExists.value)
    else do
      let answer ← FontManagerKits.installFont conn (getString path)
      pure (settleFont installErrMsg .installFail answer)
  | .uninstallFont fullName =>
    if getString fullName = [] then
      pure (setErrorMsg "The font file does not exist.".toList
        FontErrorCode.uninstallFileNotExists.value)
    else do
      let answer ← FontManagerKits.uninstallFont conn (getString fullName)
      pure (settleFont uninstallErrMsg .uninstallFail answer)
  | .installScopeFont url scope =>
    if getString url = [] then pure invalidParam
    else do
      let answer ← FontManagerKits.installScopeFont conn (getString url) scope
      pure (settleScope answer)
  | .uninstallScopeFont url =>
    if getString url = [] then pure invalidParam
    else do
      let answer ← FontManagerKits.uninstallScopeFont conn (getString url)
      pure (settleScope answer)
  | .getFontScope url =>
    if getString url = [] then pure invalidParam
    else do
      let answer ← FontManagerKits.getFontScope conn (getString url)
      pure (settleQuery answer)
  | .onFontObserver observer =>
    if observer = some .function then do
      let ret ← FontManagerKits.onFontObserver conn
      pure (settleObserver ret)
    else pure invalidParam
  | .offFontObserver => do
    let ret ← FontManagerKits.offFontObserver conn
    pure (settleObserver ret)

-- Without one object as argument the error is made of its code alone.
def dataMigration {C : Type} (conn : Connection) (listener : Option C) (id : Nat) :
    ProcessTask C Settled :=
  match listener with
  | none => pure (.rejected ⟨FontErrorCode.invalidParam.value, none⟩)
  | some listener => do
    let result ← FontManagerKits.dataMigration conn listener id
    pure (settleMigration result)

end FontManagerAddon

namespace FontManagerAni

def throwAniError (errorCode : Int) : Settled :=
  .rejected ⟨errorCode, some (errorMsg.text otherMsg errorCode)⟩

def settleFont (answer : Int × Int) : Settled :=
  if answer.1 ≠ 0 then throwAniError answer.1
  else if answer.2 ≠ 0 then throwAniError answer.2
  else .resolved (some answer.2)

def settleScope (answer : Int × Int) : Settled :=
  if answer.1 ≠ FontErrorCode.ok.value then throwAniError answer.1
  else if answer.2 ≠ FontErrorCode.ok.value then throwAniError answer.2
  else .resolved none

def settleQuery (answer : Int × Int) : Settled :=
  if answer.1 ≠ FontErrorCode.ok.value then throwAniError answer.1 else .resolved (some answer.2)

def settleObserver (ret : Int) : Settled :=
  if ret ≠ FontErrorCode.ok.value then throwAniError ret else .resolved none

def settleMigration (ret : Int) : Settled :=
  if ret ≠ FontErrorCode.ok.value then throwAniError ret else .resolved (some ret)

def execute (conn : Connection) : ApiCall → FontTask Settled
  | .installFont path => do
    let answer ← FontManagerKits.installFont conn (getString path)
    pure (settleFont answer)
  | .uninstallFont fullName => do
    let answer ← FontManagerKits.uninstallFont conn (getString fullName)
    pure (settleFont answer)
  | .installScopeFont url scope =>
    if getString url = [] then pure (throwAniError FontErrorCode.invalidParam.value)
    else do
      let answer ← FontManagerKits.installScopeFont conn (getString url) scope
      pure (settleScope answer)
  | .uninstallScopeFont url =>
    if getString url = [] then pure (throwAniError FontErrorCode.invalidParam.value)
    else do
      let answer ← FontManagerKits.uninstallScopeFont conn (getString url)
      pure (settleScope answer)
  | .getFontScope url =>
    if getString url = [] then pure (throwAniError FontErrorCode.invalidParam.value)
    else do
      let answer ← FontManagerKits.getFontScope conn (getString url)
      pure (settleQuery answer)
  | .onFontObserver observer =>
    if observer = none ∨ observer = some .undefined then
      pure (throwAniError FontErrorCode.invalidParam.value)
    else do
      let ret ← FontManagerKits.onFontObserver conn
      pure (settleObserver ret)
  | .offFontObserver => do
    let ret ← FontManagerKits.offFontObserver conn
    pure (settleObserver ret)

def dataMigration {C : Type} (conn : Connection) (listener : Option C) (id : Nat) :
    ProcessTask C Settled :=
  match listener with
  | none => pure (throwAniError FontErrorCode.invalidParam.value)
  | some listener => do
    let ret ← FontManagerKits.dataMigration conn listener id
    pure (settleMigration ret)

end FontManagerAni
