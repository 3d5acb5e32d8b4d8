import FontManager.Source.Migration

open FontDefine FontManagerUtils Interaction DataMigrationManager

inductive ServerCall (C : Type) where
  | installFont (caller : Caller) (env : Env) (fd : Fd)
  | uninstallFont (caller : Caller) (fontName : Str)
  | dataMigration (caller : Caller) (callback : C)
  | installFontWithUserId (caller : Caller) (env : Env) (fd : Fd) (userId : Int)
  | uninstallFontWithUserId (caller : Caller) (fontName : Str) (userId : Int)
  | onFontObserver (caller : Caller) (hasBinder : Bool)
  | offFontObserver (caller : Caller)
  | installScopeFont (caller : Caller) (env : Env) (fd : Fd) (scope : Int) (srcPath : Str)
  | uninstallScopeFont (caller : Caller) (srcPath : Str)
  | getFontScope (caller : Caller) (srcPath : Str)

inductive Role (C : Type) where
  | arriving (call : ServerCall C)
  | counting (call : ServerCall C)
  | serving (call : ServerCall C)
  | leaving (call : ServerCall C)
  | clientDied (tokenId : Int)
  | migrating (callback : C) (request : Nat)
  | migrated (callback : C) (request : Nat)
  | unloading
  | cleaning

structure ServerThread (C : Type) where
  role : Role C
  program : ProcessTask C Int

inductive Mark where
  | unloadFontService
  | ended (found : Bool)
deriving DecidableEq

structure Server (C : Type) where
  process : Process C
  threads : List (ServerThread C)
  marks : List Mark

inductive ServerEvent (C : Type) where
  | call (call : ServerCall C)
  | clientDied (tokenId : Int)
  | userStopping (userId : Int)
  | dispatch (i : Nat)
  | act (i : Nat) (io : Io)
  | heartBeat (i : Nat)

namespace FontManagerUtils

variable {C : Type}

def clearTempAndCollect : List Str → ProcessTask C (List Str)
  | [] => pure []
  | dirPath :: rest => do
    if ← font (checkPathExist (dirPath ++ ['/'] ++ tempFile)) then
      font (deleteDir (dirPath ++ ['/'] ++ tempFile))
    let empty : Bool ← perform (.isEmpty dirPath)
    let dirsToRemove ← clearTempAndCollect rest
    if empty then pure (dirPath :: dirsToRemove) else pure dirsToRemove

def removeDirs : List Str → ProcessTask C Unit
  | [] => pure ()
  | dirPath :: rest => do
    let _ : Bool ← perform (.removeEmpty dirPath)
    removeDirs rest

def cleanupScopeFontDirs : List Int → ProcessTask C Unit
  | [] => pure ()
  | userId :: rest => do
    if ← font (checkPathExist (installPath userId)) then
      let names : List Str ← font (directories (installPath userId))
      let dirsToRemove ← clearTempAndCollect ((names.filter isScopeDir).map (installPath userId ++ ·))
      removeDirs dirsToRemove
      cleanupScopeFontDirs rest
    else cleanupScopeFontDirs rest

end FontManagerUtils

namespace FontManagerServer

variable {C : Type}

def getClientCount : ProcessTask C Nat := font (FontClientRegistry.perform .getClientCount)

def unloadTask : ProcessTask C Unit := do
  let callingCount : Nat ← perform .callingCount
  if callingCount ≠ 0 then pure ()
  else
    let isDataMigrationing : Bool ← perform .isDataMigrationing
    if isDataMigrationing then pure ()
    else
      let clientCount ← getClientCount
      if clientCount > 0 then pure ()
      else
        let tempUserIds ← font getAllCreatedUserIds
        font (clearAllTempFileDir tempUserIds)
        let dirUserIds ← font getAllCreatedUserIds
        cleanupScopeFontDirs dirUserIds
        perform .unloadFontService

def addUnloadFontServiceTask : ProcessTask C Unit := do
  let callingCount : Nat ← perform .callingCount
  if callingCount > 0 then pure ()
  else
    let isDataMigrationing : Bool ← perform .isDataMigrationing
    if isDataMigrationing then pure ()
    else
      let clientCount ← getClientCount
      if clientCount > 0 then pure ()
      else
        let _ : Bool ← perform (.postTask .unload)

def removeUnloadFontServiceTask : ProcessTask C Unit := perform .removeUnloadTask

-- The ClientDiedCallback that OnStart registers.
def clientDiedCallback : ProcessTask C Unit := do
  let callingCount : Nat ← perform .callingCount
  if callingCount = 0 then
    let isDataMigrationing : Bool ← perform .isDataMigrationing
    if isDataMigrationing then pure ()
    else
      let clientCount ← getClientCount
      if clientCount = 0 then addUnloadFontServiceTask else pure ()
  else pure ()

-- What the destructor of CallingCountGuard does after its decrement.
def leave (checkClientCount : Bool) : ProcessTask C Unit := do
  let callingCount : Nat ← perform .callingCount
  if callingCount = 0 then
    if checkClientCount then
      let clientCount ← getClientCount
      if clientCount = 0 then addUnloadFontServiceTask else pure ()
    else addUnloadFontServiceTask
  else pure ()

-- UnregisterClient and OnClientDied; the latter returns nothing, its code here says whether the
-- token was registered.
def eraseAndNotify (tokenId : Int) : ProcessTask C FontErrorCode := do
  let erased : Option (Str × Int) ← font (FontClientRegistry.perform (.eraseClient tokenId))
  match erased with
  | none => pure .scopeFontNotRegistered
  | some client =>
    font (FontClientRegistry.cleanup client)
    clientDiedCallback
    pure .ok

def offFontObserver (caller : Caller) : ProcessTask C FontErrorCode :=
  if !caller.updateScopeFont then pure .noPermission else eraseAndNotify caller.tokenId

def dataMigrationInner (caller : Caller) (callback : C) (request : Nat) :
    ProcessTask C FontErrorCode :=
  if !caller.updateFont then pure .noPermission
  else do
    let exchanged : Bool ← perform .setDataMigrationing
    if exchanged then
      let posted : Bool ← perform (.postTask (.dataMigration callback request))
      if posted then pure .ok
      else
        perform .clearDataMigrationing
        pure .systemError
    else pure .dataMigrationing

def reply (task : ProcessTask C FontErrorCode) : ProcessTask C Int := do
  let code ← task
  pure code.value

def body (request : Nat) : ServerCall C → ProcessTask C Int
  | .installFont caller env fd => reply (font (installFontInner caller env fd))
  | .uninstallFont caller fontName => reply (font (uninstallFontInner caller fontName))
  | .dataMigration caller callback => reply (dataMigrationInner caller callback request)
  | .installFontWithUserId caller env fd userId =>
    reply (font (installFontWithUserId caller env fd userId))
  | .uninstallFontWithUserId caller fontName userId =>
    reply (font (uninstallFontWithUserId caller fontName userId))
  | .onFontObserver caller hasBinder => reply (font (onFontObserverInner caller hasBinder))
  | .offFontObserver caller => reply (offFontObserver caller)
  | .installScopeFont caller env fd scope srcPath =>
    reply (font (installScopeFontInner caller env fd scope srcPath))
  | .uninstallScopeFont caller srcPath => reply (font (uninstallScopeFontInner caller srcPath))
  | .getFontScope caller srcPath => font (getFontScopeInner caller srcPath)

def checkClientCount : ServerCall C → Bool
  | .installFont .. => false
  | .uninstallFont .. => false
  | .dataMigration .. => false
  | .installFontWithUserId .. => false
  | .uninstallFontWithUserId .. => false
  | _ => true

def migrationTask (callback : C) (request : Nat) : ProcessTask C Unit := do
  removeUnloadFontServiceTask
  dataMigration callback request

def silent {α : Type} (task : ProcessTask C α) : ProcessTask C Int := do
  let _ ← task
  pure FontErrorCode.ok.value

def handle : HandlerTask C → ServerThread C
  | .unload => ⟨.unloading, silent unloadTask⟩
  | .dataMigration callback request =>
    ⟨.migrating callback request, silent (migrationTask callback request)⟩
  | .cleanupAllScopeFontsOnBoot => ⟨.cleaning, silent (font cleanupAllScopeFontsOnBoot)⟩
  | .cleanupUserScopeFonts userId => ⟨.cleaning, silent (font (cleanupUserScopeFonts userId))⟩
  | .cleanupAppScopeFontsOnStart => ⟨.cleaning, silent (font cleanupAppScopeFontsOnStart)⟩

end FontManagerServer

inductive StartReason where
  | bootCompleted
  | userStopping (userId : Int)
  | other

namespace FontManagerServer

variable {C : Type}

def startTask : StartReason → HandlerTask C
  | .bootCompleted => .cleanupAllScopeFontsOnBoot
  | .userStopping userId => .cleanupUserScopeFonts userId
  | .other => .cleanupAppScopeFontsOnStart

end FontManagerServer

namespace ServerThread

variable {C : Type}

def finished (t : ServerThread C) : Bool :=
  match t.role with
  | .arriving _ => false
  | .counting _ => false
  | .serving _ => false
  | .migrating _ _ => false
  | _ => t.program.finished

def onHandler (t : ServerThread C) : Bool :=
  match t.role with
  | .migrating _ _ => true
  | .migrated _ _ => true
  | .unloading => true
  | .cleaning => true
  | _ => false

def inCall (t : ServerThread C) : Bool :=
  match t.role with
  | .serving _ => true
  | _ => false

-- The mark that the end of a thread leaves; the start-up and user clean-ups are no operations.
def mark (t : ServerThread C) : List Mark :=
  match t.role, t.program with
  | .leaving _, .done _ => [.ended true]
  | .clientDied _, .done code => [.ended (decide (code = FontErrorCode.ok.value))]
  | .migrated _ _, .done _ => [.ended true]
  | .unloading, .done _ => [.ended true]
  | _, _ => []

end ServerThread

namespace Server

open FontManagerServer

variable {C : Type}

def onStart (reason : StartReason) (w : World) : Server C where
  process :=
    { world := { w with registry := .empty }
      callingCount := 0
      isDataMigrationing := false
      pending := [startTask reason, .unload]
      migrating := false
      callback := none
      heartBeatThread := none
      heartBeats := []
      delivered := [] }
  threads := []
  marks := []

def spawn (t : ServerThread C) (s : Server C) : Server C := { s with threads := s.threads ++ [t] }

def handlerIdle (s : Server C) : Bool := s.threads.all fun t => !t.onHandler || t.finished

def stopped (s : Process C) (i : Nat) : Bool :=
  match s.heartBeats[i]? with
  | some ⟨_, .stopped⟩ => true
  | _ => false

def enabled (s : Process C) : ProcessOp C → Bool
  | .joinHeartBeat => s.heartBeatThread.all (stopped s)
  | _ => true

def calledUnload : ProcessOp C → List Mark
  | .unloadFontService => [.unloadFontService]
  | _ => []

def advance (s : Server C) (i : Nat) (process : Process C) (t : ServerThread C) (called : List Mark) :
    Server C where
  process := process
  threads := s.threads.set i t
  marks := called ++ t.mark ++ s.marks

def act (s : Server C) (i : Nat) (io : Io) : ServerThread C → Option (Server C)
  | ⟨.arriving call, p⟩ =>
    some (s.advance i (s.process.exec .removeUnloadTask io).2 ⟨.counting call, p⟩ [])
  | ⟨.counting call, p⟩ =>
    some (s.advance i { s.process with callingCount := s.process.callingCount + 1 }
      ⟨.serving call, p⟩ [])
  | ⟨.serving call, .done code⟩ =>
    some (s.advance i { s.process with callingCount := s.process.callingCount - 1 }
      ⟨.leaving call, do
        leave (checkClientCount call)
        pure code⟩ [])
  | ⟨.migrating callback request, .done _⟩ =>
    some (s.advance i (s.process.exec .clearDataMigrationing io).2
      ⟨.migrated callback request, silent addUnloadFontServiceTask⟩ [])
  | ⟨role, .call o k⟩ =>
    if enabled s.process o then
      some (s.advance i (s.process.exec o io).2 ⟨role, k (s.process.exec o io).1⟩ (calledUnload o))
    else none
  | ⟨_, .done _⟩ => none

def beat (s : Server C) (i : Nat) : Option (Server C) := do
  let h ← s.process.heartBeats[i]?
  let r ← h.next s.process
  some { s with process := { s.process with
    heartBeats := s.process.heartBeats.set i r.1
    delivered := s.process.delivered ++ r.2 } }

def next (s : Server C) : ServerEvent C → Option (Server C)
  | .call call => some (s.spawn ⟨.arriving call, body s.threads.length call⟩)
  | .clientDied tokenId => some (s.spawn ⟨.clientDied tokenId, reply (eraseAndNotify tokenId)⟩)
  | .userStopping userId =>
    some { s with process :=
      { s.process with pending := s.process.pending ++ [.cleanupUserScopeFonts userId] } }
  | .dispatch i =>
    if s.handlerIdle then
      (s.process.pending[i]?).map fun task =>
        { s with process := { s.process with pending := s.process.pending.eraseIdx i } }.spawn
          (handle task)
    else none
  | .act i io => (s.threads[i]?).bind (s.act i io)
  | .heartBeat i => s.beat i

def machine : Machine (Server C) (ServerEvent C) := ⟨next⟩

end Server
