import FontManager.Collection.FileTree
import FontManager.Interaction.Program
import FontManager.Source.Config
import FontManager.Source.Registry

open FontDefine FontManagerUtils CJson

abbrev Loc := List Str

inductive Entry where
  | dir
  | bytes (content : List UInt8)
  | document (json : Json)

inductive FontEventType where
  | install
  | uninstall
deriving DecidableEq

structure FontEvent where
  type : FontEventType
  fullName : Str
  userId : Int
deriving DecidableEq

structure World where
  tree : FileTree Str Entry
  registry : FontClientRegistry
  maxInstallNum : Int
  createdUserIds : List Int
  published : List FontEvent

inductive WriteOutcome where
  | complete
  | openFails
  | short (left : List UInt8)
  | lost (left : List UInt8)

structure Io where
  ok : Bool := true
  sent : Option Nat := none
  write : WriteOutcome := .complete
  remains : Loc → Bool := fun _ => true
  fullNames : Str → List Str := fun _ => []
  made : Bool := false

instance : Inhabited Io := ⟨{}⟩

inductive ConfigOp where
  | insertFontRecord (fontPath : Str) (fullNames : List Str)
  | insertFontRecordIfUnderLimit (fontPath : Str) (fullNames : List Str) (maxCount : Int)
  | insertScopeFontRecord (record : FontRecordInfo)
  | deleteFontRecord (fontPath : Str)
  | deleteScopeFontRecordByUrl (srcPath : Str)
  | deleteScopeFontRecordByAppId (appIdentifier : Str)
  | checkAndUpdateFontRecord
  | getInstalledFontsNum
  | getTotalInstalledFontsNum
  | getFontFileByName (fullName : Str)
  | getFontRecordByName (fullName : Str)
  | getFontRecordByUrl (srcPath : Str)
  | getFontRecordsByAppId (appIdentifier : Str)
  | getScopeFontRecords
  | getAppScopeFontRecords

inductive FileOp where
  | exists (path : Str)
  | createDirectory (path : Str)
  | createConfig (path : Str)
  | copy (fd : Fd) (path : Str)
  | rename (src dest : Str)
  | removeAll (path : Str)
  | weaklyCanonical (path : Str)
  | directories (path : Str)

inductive RegistryOp where
  | registerClient (hasBinder : Bool) (bundleName : Str) (userId tokenId : Int)
  | eraseClient (tokenId : Int)
  | isClientRegistered (tokenId : Int)
  | getClientCount

inductive Op where
  | config (userId : Int) (op : ConfigOp)
  | file (op : FileOp)
  | registry (op : RegistryOp)
  | getMaxInstallNum
  | getAllCreatedUserIds
  | publishFontUpdate (event : FontEvent)

abbrev ConfigOp.Reply : ConfigOp → Type
  | .insertFontRecordIfUnderLimit _ _ _ => FontErrorCode
  | .getInstalledFontsNum => Nat
  | .getTotalInstalledFontsNum => Nat
  | .getFontFileByName _ => Str
  | .getFontRecordByName _ => Option FontRecordInfo
  | .getFontRecordByUrl _ => Option FontRecordInfo
  | .getFontRecordsByAppId _ => List FontRecordInfo
  | .getScopeFontRecords => List FontRecordInfo
  | .getAppScopeFontRecords => List FontRecordInfo
  | _ => Bool

abbrev FileOp.Reply : FileOp → Type
  | .weaklyCanonical _ => Option Str
  | .directories _ => List Str
  | _ => Bool

abbrev RegistryOp.Reply : RegistryOp → Type
  | .registerClient _ _ _ _ => FontErrorCode
  | .eraseClient _ => Option (Str × Int)
  | .isClientRegistered _ => Bool
  | .getClientCount => Nat

abbrev Op.Reply : Op → Type
  | .config _ op => op.Reply
  | .file op => op.Reply
  | .registry op => op.Reply
  | .getMaxInstallNum => Int
  | .getAllCreatedUserIds => List Int
  | .publishFontUpdate _ => Unit

abbrev sig : PFunctor.{0, 0} := ⟨Op, Op.Reply⟩

def ConfigOp.edit (fullNamesByPath : Str → List Str) (configPath : Str) (json : Option Json) :
    (op : ConfigOp) → Edit Json op.Reply
  | .insertFontRecord path names => FontConfig.insertFontRecord path names json
  | .insertFontRecordIfUnderLimit path names maxCount =>
    FontConfig.insertFontRecordIfUnderLimit path names maxCount json
  | .insertScopeFontRecord record => FontConfig.insertScopeFontRecord record json
  | .deleteFontRecord path => FontConfig.deleteFontRecord path json
  | .deleteScopeFontRecordByUrl srcPath => FontConfig.deleteScopeFontRecordByUrl srcPath json
  | .deleteScopeFontRecordByAppId id => FontConfig.deleteScopeFontRecordByAppId id json
  | .checkAndUpdateFontRecord =>
    FontConfig.checkAndUpdateFontRecord fullNamesByPath configPath json
  | .getInstalledFontsNum => .keep (FontConfig.getInstalledFontsNum json)
  | .getTotalInstalledFontsNum => .keep (FontConfig.getTotalInstalledFontsNum json)
  | .getFontFileByName name => .keep (FontConfig.getFontFileByName name json)
  | .getFontRecordByName name => .keep (FontConfig.getFontRecordByName name json)
  | .getFontRecordByUrl srcPath => .keep (FontConfig.getFontRecordByUrl srcPath json)
  | .getFontRecordsByAppId id => .keep (FontConfig.getFontRecordsByAppId id json)
  | .getScopeFontRecords => .keep (FontConfig.getScopeFontRecords json)
  | .getAppScopeFontRecords => .keep (FontConfig.getAppScopeFontRecords json)

def configPath (userId : Int) : Str := installPath userId ++ fontConfigFile

def emptyConfig : Json :=
  .object [(FontConfig.fontList, .array []), (FontConfig.fontVersion, .string fontConfigVersion7)]

namespace World

def entry (w : World) (path : Str) : Option Entry := w.tree.lookup (locate path)

def isDir (w : World) (loc : Loc) : Bool :=
  match w.tree.lookup loc with
  | some .dir => true
  | _ => false

def pathExists (w : World) (path : Str) : Bool := (w.entry path).isSome

def config (w : World) (userId : Int) : Option Json :=
  match w.entry (configPath userId) with
  | some (.document json) => some json
  | _ => none

def put (w : World) (path : Str) (e : Entry) : World := { w with tree := w.tree.put (locate path) e }

def writeFile (w : World) (path : Str) (json : Json) : WriteOutcome → Bool × World
  | .complete => (true, w.put path (.document json))
  | .openFails => (false, w)
  | .short left => (false, w.put path (.bytes left))
  | .lost left => (true, w.put path (.bytes left))

def applyEdit {α : Type} (w : World) (path : Str) (outcome : WriteOutcome) : Edit Json α → α × World
  | .keep reply => (reply, w)
  | .write json done failed =>
    (if (w.writeFile path json outcome).1 then done else failed, (w.writeFile path json outcome).2)

def canHold (w : World) (loc : Loc) : Bool := w.isDir loc.dropLast && !w.isDir loc

-- A file that cannot be opened, held or read to its end is parsed as no text at all.
def checkConfigFile (w : World) (userId : Int) (ok : Bool) : Option Json :=
  if ok then w.config userId else none

def execConfig (w : World) (userId : Int) (op : ConfigOp) (io : Io) : op.Reply × World :=
  w.applyEdit (configPath userId) io.write
    (op.edit io.fullNames (configPath userId) (w.checkConfigFile userId io.ok))

-- A directory stays when it was made and only its permissions could not be set.
def createDirectory (w : World) (path : Str) (io : Io) : Bool × World :=
  if !io.ok && !io.made then (false, w)
  else
    match w.entry path with
    | some .dir => (io.ok, w)
    | some _ => (false, w)
    | none => if w.isDir (locate path).dropLast then (io.ok, w.put path .dir) else (false, w)

-- An fstream reports a failed open only; a failed write or close goes unnoticed.
def createConfig (w : World) (path : Str) (io : Io) : Bool × World :=
  if !w.canHold (locate path) then (false, w)
  else
    match io.write with
    | .complete => (io.ok, w.put path (.document emptyConfig))
    | .openFails => (false, w)
    | .short left => (io.ok, w.put path (.bytes left))
    | .lost left => (io.ok, w.put path (.bytes left))

def copy (w : World) (fd : Fd) (path : Str) (io : Io) : Bool × World :=
  if !io.ok || !w.canHold (locate path) then (false, w)
  else if fd.content.length > maxFontFileSize then (false, w.put path (.bytes []))
  else
    let sent := io.sent.getD fd.content.length
    (fd.content.length ≤ sent, w.put path (.bytes (fd.content.take sent)))

def rename (w : World) (src dest : Str) (ok : Bool) : Bool × World :=
  match w.entry src with
  | some (.bytes content) =>
    if ok && w.canHold (locate dest) then
      (true, { w with tree := (w.tree.prune (locate src)).put (locate dest) (.bytes content) })
    else (false, w)
  | _ => (false, w)

def removeAll (w : World) (path : Str) (io : Io) : Bool × World :=
  if io.ok then (true, { w with tree := w.tree.prune (locate path) })
  else
    (false, { w with
      tree := w.tree.keep fun loc => !FileTree.under (locate path) loc || io.remains loc })

def directories (w : World) (path : Str) : List Str :=
  (w.tree.children (locate path)).filterMap fun c =>
    match c.2 with
    | .dir => some c.1
    | _ => none

def execFile (w : World) (io : Io) : (op : FileOp) → op.Reply × World
  | .exists path => (path ≠ [] && io.ok && w.pathExists path, w)
  | .createDirectory path => w.createDirectory path io
  | .createConfig path => w.createConfig path io
  | .copy fd path => w.copy fd path io
  | .rename src dest => w.rename src dest io.ok
  | .removeAll path => w.removeAll path io
  | .weaklyCanonical path => (if io.ok then some (lexicallyNormal path) else none, w)
  | .directories path => (if io.ok then w.directories path else [], w)

def execRegistry (w : World) (io : Io) : (op : RegistryOp) → op.Reply × World
  | .registerClient hasBinder bundleName userId tokenId =>
    let r := w.registry.registerClient hasBinder io.ok bundleName userId tokenId
    (r.1, { w with registry := r.2 })
  | .eraseClient tokenId =>
    let r := w.registry.eraseClient tokenId
    (r.1, { w with registry := r.2 })
  | .isClientRegistered tokenId => (w.registry.isClientRegistered tokenId, w)
  | .getClientCount => (w.registry.getClientCount, w)

def exec (w : World) (o : Op) (io : Io) : o.Reply × World :=
  match o with
  | .config userId op => w.execConfig userId op io
  | .file op => w.execFile io op
  | .registry op => w.execRegistry io op
  | .getMaxInstallNum => (FontManagerUtils.getMaxInstallNum w.maxInstallNum, w)
  | .getAllCreatedUserIds => (w.createdUserIds, w)
  | .publishFontUpdate event => ((), { w with published := w.published ++ [event] })

end World

def semantics : Interaction.Semantics sig World Io := ⟨World.exec⟩
