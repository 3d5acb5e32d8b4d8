import FontManager.Source.Process

open FontDefine FontManagerUtils Interaction

namespace DataMigrationManager

variable {C : Type}

def copySpeed : Nat := 10 * 1024 / 60
def maxTriggerCount : Nat := 100
def heartBeatInterval : Nat := 60
def bytesToMbShift : Nat := 20

def uint32 (n : Nat) : Nat := n % 2 ^ 32
def int32 (n : Nat) : Int := (n : Int).bmod (2 ^ 32)
def uintmaxMax : Nat := 2 ^ 64 - 1

def perform (o : ProcessOp C) : ProcessTask C o.Reply := Program.perform (P := processSig C) o

def userPath (userId : Int) : Str := installPathPrefix ++ Text.decimal userId ++ installPathSuffix

section events

def refreshEventData (request : Nat) (event : EventData) : ProcessTask C Unit := do
  let callback : Option C ← perform .callback
  match callback with
  | none => pure ()
  | some callback => perform (.handle request callback event)

-- The doubles of the source are read as exact: round(i / step) with step = totalCount / 100.
def isShouldUpdateProgress (i totalCount : Nat) : Bool :=
  if totalCount ≤ maxTriggerCount then true
  else
    let expectedTriggerIndex := (2 * maxTriggerCount * i + totalCount) / (2 * totalCount)
    2 * ((maxTriggerCount * i : Int) - expectedTriggerIndex * totalCount).natAbs < maxTriggerCount

def timeRemaining (folderSize idsize : Nat) : Nat :=
  let remain := if idsize > 0 ∧ folderSize < uintmaxMax / idsize then
    folderSize * idsize / 2 ^ bytesToMbShift else 0
  max 1 (uint32 (remain / copySpeed))

def progressPercentage (i size : Nat) : Nat :=
  if i = 0 then i else uint32 ((i * maxTriggerCount + size / 2) / size)

-- Both numbers are uint32_t here and int in the event.
def eventDataProgress (request i size idsize : Nat) : ProcessTask C Unit := do
  let folderSize : Nat ← perform (.getFolderSize installPathApp)
  refreshEventData request
    (.progressDoing (int32 (timeRemaining folderSize idsize)) (int32 (progressPercentage i size)))

def eventDataResult (request : Nat) (result : DataMigrationResultCode) : ProcessTask C Unit :=
  refreshEventData request (.progressResult result)

end events

section copying

def removeTemp (tempPath : Str) : ProcessTask C Unit := do
  let _ ← font (removeFile tempPath)

def copyFileForDataMigration (srcPath : Str) (userId : Int) :
    ProcessTask C DataMigrationResultCode := do
  let fileName := getFileName srcPath
  let tempPath := userPath userId ++ tempFile ++ fileName
  let desPath := userPath userId ++ fileName
  if ← font (checkPathExist desPath) then pure .ok
  else
    let fp : Option Entry ← perform (.openFile srcPath)
    match fp with
    | none => pure .openSrcFile
    | some source =>
      let copied : Bool ← perform (.copyFile source tempPath)
      if copied then
        let found ← font (checkPathExist tempPath)
        let renamed : Bool ← if found then perform (.renameFile tempPath desPath) else pure false
        if renamed then pure .ok
        else
          removeTemp tempPath
          pure .renameFile
      else pure .copyFile

def copyToUsers (path : Str) : List Int → ProcessTask C DataMigrationResultCode
  | [] => pure .ok
  | userId :: rest => do
    let ret ← copyFileForDataMigration path userId
    if ret ≠ .ok then pure ret else copyToUsers path rest

def startOneFileCopyTask (userIds : List Int) (path : Str) :
    ProcessTask C DataMigrationResultCode := do
  let ret ← copyToUsers path userIds
  if ret ≠ .ok then pure ret
  else if ← font (removeFile path) then pure .ok
  else pure .removeSrcFile

def migrateFiles (request : Nat) (userIds : List Int) (size : Nat) :
    Nat → List Str → ProcessTask C DataMigrationResultCode
  | _, [] => pure .ok
  | i, path :: rest => do
    if isShouldUpdateProgress (uint32 i) (uint32 size) then
      eventDataProgress request (uint32 i) (uint32 size) (uint32 userIds.length)
    let ret ← startOneFileCopyTask userIds path
    if ret ≠ .ok then pure ret else migrateFiles request userIds size (i + 1) rest

def startDataMigration (request : Nat) (userIds : List Int) :
    ProcessTask C DataMigrationResultCode := do
  let paths : List Str ← perform (.getDirFiles installPathApp)
  migrateFiles request userIds paths.length 0 paths

end copying

def checkAllUserDir : List Int → ProcessTask C Bool
  | [] => pure true
  | userId :: rest => do
    if ← font (checkPathExist (userPath userId)) then checkAllUserDir rest else pure false

def initDataMigrationTempDir : List Int → ProcessTask C Bool
  | [] => pure true
  | userId :: rest => do
    if ← font (checkOrCreateDir (userPath userId ++ tempFile)) then initDataMigrationTempDir rest
    else pure false

def checkUsers (userIds : List Int) : ProcessTask C DataMigrationResultCode := do
  font (deleteDir (installPathApp ++ tempFile))
  let empty : Bool ← perform (.isEmptyFolder installPathApp)
  if empty then pure .notNeedDataMigration
  else if ← checkAllUserDir userIds then
    if ← initDataMigrationTempDir userIds then pure .ok else pure .initTempDir
  else pure .checkInstallDir

def initDataMigrationEnv : ProcessTask C (List Int × DataMigrationResultCode) := do
  let userIds ← font getAllCreatedUserIds
  if userIds = [] then pure (userIds, .getAllUserids)
  else
    let ret ← checkUsers userIds
    pure (userIds, ret)

def checkAndUpdateAllFontRecord : List Int → ProcessTask C Unit
  | [] => pure ()
  | userId :: rest => do
    let _ ← font (FontManager.config userId .checkAndUpdateFontRecord)
    checkAndUpdateAllFontRecord rest

def dataMigrationInner (request : Nat) : ProcessTask C (List Int × DataMigrationResultCode) := do
  let env ← initDataMigrationEnv
  if env.2 ≠ .ok then pure env
  else
    perform (.startHeartBeat request)
    let ret ← startDataMigration request env.1
    pure (env.1, ret)

def migrate (request : Nat) : ProcessTask C DataMigrationResultCode := do
  let done ← dataMigrationInner request
  checkAndUpdateAllFontRecord done.1
  pure done.2

def finish (request : Nat) (ret : DataMigrationResultCode) : ProcessTask C Unit := do
  perform .clearMigrating
  eventDataResult request ret
  let joinable : Bool ← perform .heartBeatJoinable
  if joinable then perform .joinHeartBeat
  perform (.setCallback none)

def dataMigration (callback : C) (request : Nat) : ProcessTask C Unit := do
  let expected : Bool ← perform .setMigrating
  if expected then
    perform (.setCallback (some callback))
    let ret ← migrate request
    finish request ret
  else pure ()

end DataMigrationManager

namespace HeartBeat

open DataMigrationManager

variable {C : Type}

-- One step of the thread that StartHeartBeatTask starts.
def next (s : Process C) (h : HeartBeat C) : Option (HeartBeat C × List (Delivery C)) :=
  match h.step with
  | .loop => some ({ h with step := if s.migrating then .read else .stopped }, [])
  | .read =>
    match s.callback with
    | none => some ({ h with step := .wait 0 }, [])
    | some callback => some ({ h with step := .handle callback }, [])
  | .handle callback =>
    some ({ h with step := .wait 0 }, [⟨h.request, callback, .heartBeat⟩])
  | .wait i =>
    some ({ h with step := if i < heartBeatInterval ∧ s.migrating = true then .wait (i + 1) else .loop }, [])
  | .stopped => none

end HeartBeat
