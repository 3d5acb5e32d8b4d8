import FontManager.Source.Server

open FontDefine FontManagerUtils Interaction

inductive EventData where
  | progressDoing (timeRemaining progressPercentage : Int)
  | progressResult (progressResult : DataMigrationResultCode)
  | heartBeat
deriving DecidableEq

inductive HandlerTask (C : Type) where
  | unload
  | dataMigration (callback : C) (request : Nat)
  | cleanupAllScopeFontsOnBoot
  | cleanupUserScopeFonts (userId : Int)
  | cleanupAppScopeFontsOnStart
deriving DecidableEq

inductive ProcessOp (C : Type) where
  | font (o : Op)
  | getDirFiles (path : Str)
  | isEmptyFolder (path : Str)
  | getFolderSize (path : Str)
  | openFile (path : Str)
  | copyFile (source : Entry) (path : Str)
  | renameFile (src dest : Str)
  | isEmpty (path : Str)
  | removeEmpty (path : Str)
  | callingCount
  | isDataMigrationing
  | setDataMigrationing
  | clearDataMigrationing
  | postTask (task : HandlerTask C)
  | removeUnloadTask
  | unloadFontService
  | setMigrating
  | clearMigrating
  | setCallback (callback : Option C)
  | callback
  | handle (request : Nat) (callback : C) (event : EventData)
  | startHeartBeat (request : Nat)
  | heartBeatJoinable
  | joinHeartBeat

abbrev ProcessOp.Reply {C : Type} : ProcessOp C → Type
  | .font o => o.Reply
  | .getDirFiles _ => List Str
  | .isEmptyFolder _ => Bool
  | .getFolderSize _ => Nat
  | .openFile _ => Option Entry
  | .copyFile _ _ => Bool
  | .renameFile _ _ => Bool
  | .isEmpty _ => Bool
  | .removeEmpty _ => Bool
  | .callingCount => Nat
  | .isDataMigrationing => Bool
  | .setDataMigrationing => Bool
  | .postTask _ => Bool
  | .setMigrating => Bool
  | .callback => Option C
  | .heartBeatJoinable => Bool
  | _ => Unit

abbrev processSig (C : Type) : PFunctor.{0, 0} := ⟨ProcessOp C, ProcessOp.Reply⟩

abbrev ProcessTask (C : Type) := Program (processSig C)

inductive HeartBeatStep (C : Type) where
  | loop
  | read
  | handle (callback : C)
  | wait (i : Nat)
  | stopped
deriving DecidableEq

structure HeartBeat (C : Type) where
  request : Nat
  step : HeartBeatStep C
deriving DecidableEq

structure Delivery (C : Type) where
  request : Nat
  callback : C
  event : EventData
deriving DecidableEq

-- The server and the DataMigrationManager each have a flag isDataMigrationing_; migrating is the
-- manager's.
structure Process (C : Type) where
  world : World
  callingCount : Nat
  isDataMigrationing : Bool
  pending : List (HandlerTask C)
  migrating : Bool
  callback : Option C
  heartBeatThread : Option Nat
  heartBeats : List (HeartBeat C)
  delivered : List (Delivery C)

namespace World

def files (w : World) (root : Loc) : List Loc :=
  w.tree.filterMap fun x =>
    match x.2 with
    | .dir => none
    | _ => if FileTree.under root x.1 then some x.1 else none

def openFile (w : World) (path : Str) (ok : Bool) : Option Entry :=
  match w.entry path with
  | some .dir => none
  | e => if ok then e else none

def copyEntry (w : World) (source : Entry) (path : Str) (io : Io) : Bool × World :=
  match source with
  | .dir => (false, w)
  | .bytes content => w.copy ⟨none, content, []⟩ path io
  | .document json =>
    if !io.ok || !w.canHold (locate path) then (false, w)
    else if io.sent.isSome then (false, w.put path (.bytes []))
    else (true, w.put path (.document json))

def renameEntry (w : World) (src dest : Str) (ok : Bool) : Bool × World :=
  match w.openFile src (ok && w.canHold (locate dest)) with
  | none => (false, w)
  | some e => (true, { w with tree := (w.tree.prune (locate src)).put (locate dest) e })

def isEmpty (w : World) (path : Str) : Bool := (w.tree.children (locate path)).isEmpty

def removeEmpty (w : World) (path : Str) (ok : Bool) : Bool × World :=
  if ok && w.isEmpty path then (true, { w with tree := w.tree.prune (locate path) })
  else (false, w)

end World

namespace Process

variable {C : Type}

def onWorld {α : Type} (s : Process C) (r : α × World) : α × Process C := (r.1, { s with world := r.2 })

def exec (s : Process C) (o : ProcessOp C) (io : Io) : o.Reply × Process C :=
  match o with
  | .font o => s.onWorld (s.world.exec o io)
  | .getDirFiles path => ((s.world.files (locate path)).map joinPath, s)
  | .isEmptyFolder path => ((s.world.files (locate path)).isEmpty, s)
  | .getFolderSize _ => (io.sent.getD 0, s)
  | .openFile path => (s.world.openFile path io.ok, s)
  | .copyFile source path => s.onWorld (s.world.copyEntry source path io)
  | .renameFile src dest => s.onWorld (s.world.renameEntry src dest io.ok)
  | .isEmpty path => (io.ok && s.world.isEmpty path, s)
  | .removeEmpty path => s.onWorld (s.world.removeEmpty path io.ok)
  | .callingCount => (s.callingCount, s)
  | .isDataMigrationing => (s.isDataMigrationing, s)
  | .setDataMigrationing => (!s.isDataMigrationing, { s with isDataMigrationing := true })
  | .clearDataMigrationing => ((), { s with isDataMigrationing := false })
  | .postTask task => (io.ok, if io.ok then { s with pending := s.pending ++ [task] } else s)
  | .removeUnloadTask =>
    ((), { s with pending := s.pending.filter fun t => match t with | .unload => false | _ => true })
  | .unloadFontService => ((), s)
  | .setMigrating => (!s.migrating, { s with migrating := true })
  | .clearMigrating => ((), { s with migrating := false })
  | .setCallback callback => ((), { s with callback })
  | .callback => (s.callback, s)
  | .handle request callback event =>
    ((), { s with delivered := s.delivered ++ [⟨request, callback, event⟩] })
  | .startHeartBeat request =>
    ((), { s with
      heartBeatThread := some s.heartBeats.length
      heartBeats := s.heartBeats ++ [⟨request, .loop⟩] })
  | .heartBeatJoinable => (s.heartBeatThread.isSome, s)
  | .joinHeartBeat => ((), { s with heartBeatThread := none })

end Process

def processSemantics (C : Type) : Semantics (processSig C) (Process C) Io := ⟨Process.exec⟩

def font {C α : Type} (p : FontTask α) : ProcessTask C α :=
  p.embed (Q := processSig C) ProcessOp.font fun _ r => r
