import FontManager.Sequential.FontCall
import FontManager.Source.Server
import FontManager.Store.Mutation

open FontDefine FontManagerUtils Interaction Program

def FileOp.moves : FileOp → Bool
  | .rename _ _ => true
  | _ => false

def FileOp.adds : FileOp → Bool
  | .createDirectory _ => true
  | .createConfig _ => true
  | .copy _ _ => true
  | .rename _ _ => true
  | _ => false

theorem FileOp.moves_of_adds {op : FileOp} (h : op.adds = false) : op.moves = false := by
  cases op <;> first | rfl | cases h

-- Looking whether one path exists and removing what is there.
structure ErasePermits (ok : (o : Op) → o.Reply → Prop) (safe : Op → Prop) (path : Str) : Prop where
  look : safe (.file (.exists path))
  erase : safe (.file (.removeAll path))

namespace ErasePermits

variable {ok : (o : Op) → o.Reply → Prop} {safe : Op → Prop} {path : Str}
  (h : ErasePermits ok safe path)

include h

theorem removeFile : always (P := sig) ok safe (FontManagerUtils.removeFile path) := by
  refine always_bind (always_perform h.look) fun b => ?_
  cases b with
  | false => exact always_pure _
  | true => exact always_perform h.erase

theorem deleteDir : always (P := sig) ok safe (FontManagerUtils.deleteDir path) := by
  refine always_bind (always_perform h.look) fun b => ?_
  cases b with
  | false => exact always_pure _
  | true => exact always_bind (always_perform h.erase) fun _ => always_pure _

theorem removeIfExists : always (P := sig) ok safe (FontManager.removeIfExists path) := by
  unfold FontManager.removeIfExists
  split
  · exact always_pure _
  · refine always_bind (always_perform h.look) fun b => ?_
    cases b with
    | false => exact always_pure _
    | true => exact h.removeFile

end ErasePermits

structure RemovalPermits (ok : (o : Op) → o.Reply → Prop) (safe : Op → Prop) : Prop where
  removal : ∀ op : FileOp, op.adds = false → safe (.file op)

namespace RemovalPermits

variable {ok : (o : Op) → o.Reply → Prop} {safe : Op → Prop} (h : RemovalPermits ok safe)

include h

theorem toErase (path : Str) : ErasePermits ok safe path := ⟨h.removal _ rfl, h.removal _ rfl⟩

theorem removalTask (op : FileOp) (hop : op.adds = false) :
    always (P := sig) ok safe (FontManagerUtils.fileTask op) :=
  always_perform (h.removal op hop)

theorem removeFile (path : Str) :
    always (P := sig) ok safe (FontManagerUtils.removeFile path) := (h.toErase path).removeFile

theorem deleteDir (path : Str) : always (P := sig) ok safe (FontManagerUtils.deleteDir path) :=
  (h.toErase path).deleteDir

theorem removeIfExists (path : Str) :
    always (P := sig) ok safe (FontManager.removeIfExists path) := (h.toErase path).removeIfExists

theorem validateAndResolveRealPath (installPath path : Str) :
    always (P := sig) ok safe (FontManager.validateAndResolveRealPath installPath path) := by
  unfold FontManager.validateAndResolveRealPath
  split
  · exact always_pure _
  · refine always_bind (h.removalTask _ rfl) fun canonical => ?_
    cases canonical with
    | none => exact always_pure _
    | some canonicalStr =>
      refine always_bind (h.removalTask _ rfl) fun canonical => ?_
      cases canonical with
      | none => exact always_pure _
      | some canonicalInstall =>
        dsimp only
        split <;> exact always_pure _

end RemovalPermits

def FileOp.setsUp : FileOp → Bool
  | .exists _ => true
  | .createDirectory _ => true
  | .createConfig _ => true
  | _ => false

theorem FileOp.moves_of_setsUp {op : FileOp} (h : op.setsUp = true) : op.moves = false := by
  cases op <;> first | rfl | cases h

structure SetupPermits (ok : (o : Op) → o.Reply → Prop) (safe : Op → Prop) : Prop where
  setup : ∀ op : FileOp, op.setsUp = true → safe (.file op)

namespace SetupPermits

variable {ok : (o : Op) → o.Reply → Prop} {safe : Op → Prop} (h : SetupPermits ok safe)

include h

theorem setupTask (op : FileOp) (hop : op.setsUp = true) :
    always (P := sig) ok safe (FontManagerUtils.fileTask op) :=
  always_perform (h.setup op hop)

theorem createDirWithPermission (path : Str) :
    always (P := sig) ok safe (FontManagerUtils.createDirWithPermission path) := by
  unfold FontManagerUtils.createDirWithPermission
  split
  · exact always_pure _
  · exact h.setupTask _ rfl

theorem createFileWithPermission (path : Str) :
    always (P := sig) ok safe (FontManagerUtils.createFileWithPermission path) := by
  unfold FontManagerUtils.createFileWithPermission
  split
  · exact always_pure _
  · exact h.setupTask _ rfl

theorem checkOrCreateDir (path : Str) :
    always (P := sig) ok safe (FontManagerUtils.checkOrCreateDir path) := by
  refine always_bind (h.setupTask _ rfl) fun b => ?_
  cases b with
  | false => exact h.createDirWithPermission path
  | true => exact always_pure _

theorem checkFontConfigPath (path : Str) :
    always (P := sig) ok safe (FontManagerUtils.checkFontConfigPath path) := by
  refine always_bind (h.setupTask _ rfl) fun b => ?_
  cases b with
  | false => exact h.createFileWithPermission _
  | true => exact always_pure _

theorem checkAndInitScopeFontPath (path : Str) :
    always (P := sig) ok safe (FontManagerUtils.checkAndInitScopeFontPath path) := by
  refine always_bind (h.checkOrCreateDir _) fun b => ?_
  cases b with
  | false => exact always_pure _
  | true => exact h.checkOrCreateDir _

theorem checkAndInitInstallPath (path : Str) :
    always (P := sig) ok safe (FontManagerUtils.checkAndInitInstallPath path) := by
  refine always_bind (h.checkAndInitScopeFontPath _) fun b => ?_
  cases b with
  | false => exact always_pure _
  | true => exact h.checkFontConfigPath _

end SetupPermits

structure StillPermits (ok : (o : Op) → o.Reply → Prop) (safe : Op → Prop) : Prop
    extends RemovalPermits ok safe where
  still : ∀ op : FileOp, op.moves = false → safe (.file op)
  removal := fun op hop => still op (FileOp.moves_of_adds hop)

namespace StillPermits

variable {ok : (o : Op) → o.Reply → Prop} {safe : Op → Prop} (h : StillPermits ok safe)

include h

theorem toSetup : SetupPermits ok safe := ⟨fun op hop => h.still op (FileOp.moves_of_setsUp hop)⟩

theorem stillTask (op : FileOp) (hop : op.moves = false) :
    always (P := sig) ok safe (FontManagerUtils.fileTask op) :=
  always_perform (h.still op hop)

end StillPermits

structure FilePermits (ok : (o : Op) → o.Reply → Prop) (safe : Op → Prop) : Prop
    extends StillPermits ok safe where
  file : ∀ op, safe (.file op)
  still := fun op _ => file op

namespace FilePermits

variable {ok : (o : Op) → o.Reply → Prop} {safe : Op → Prop} (h : FilePermits ok safe)

include h

theorem fileTask (op : FileOp) : always (P := sig) ok safe (FontManagerUtils.fileTask op) :=
  always_perform (h.file op)

theorem renameFile (src dest : Str) :
    always (P := sig) ok safe (FontManagerUtils.renameFile src dest) := by
  refine always_bind (h.fileTask _) fun b => ?_
  cases b with
  | false => exact always_pure _
  | true => exact h.fileTask _

theorem copyFileForInstall (env : Env) (path fileName : Str) (fd : Fd) :
    always (P := sig) ok safe (FontManager.copyFileForInstall env path fileName fd) := by
  refine always_bind (h.fileTask _) fun b => ?_
  cases b with
  | false => exact always_pure _
  | true =>
    refine always_bind (h.renameFile _ _) fun b => ?_
    cases b with
    | false => exact always_bind (h.removeFile _) fun _ => always_pure _
    | true => exact always_pure _

end FilePermits

-- The operations that every call may make: no insertion, and no deletion by path or by application.
def ConfigOp.routine : ConfigOp → Bool
  | .insertFontRecord _ _ => false
  | .insertFontRecordIfUnderLimit _ _ _ => false
  | .insertScopeFontRecord _ => false
  | .deleteFontRecord _ => false
  | .deleteScopeFontRecordByAppId _ => false
  | _ => true

structure QueryPermits (ok : (o : Op) → o.Reply → Prop) (safe : Op → Prop) (u : Int) : Prop where
  config : ∀ op : ConfigOp, op.routine = true → safe (.config u op)
  limit : safe .getMaxInstallNum

namespace QueryPermits

variable {ok : (o : Op) → o.Reply → Prop} {safe : Op → Prop} {u : Int} (h : QueryPermits ok safe u)

include h

theorem configTask (op : ConfigOp) (hop : op.routine = true) :
    always (P := sig) ok safe (FontManager.config u op) := always_perform (h.config op hop)

theorem findInstalledName (names : List Str) :
    always (P := sig) ok safe (FontManager.findInstalledName u names) := by
  induction names with
  | nil => exact always_pure _
  | cons name rest ih =>
    refine always_bind (h.configTask _ rfl) fun existing => ?_
    cases existing with
    | none => exact ih
    | some record => exact always_pure _

theorem validateScopeFontForInstall (srcPath : Str) (fd : Fd) :
    always (P := sig) ok safe (FontManager.validateScopeFontForInstall u srcPath fd) := by
  refine always_bind (h.configTask _ rfl) fun record => ?_
  cases record with
  | some record => exact always_pure _
  | none =>
    refine always_perform_bind h.limit fun m _ => ?_
    refine always_bind (h.configTask _ rfl) fun installed => ?_
    split
    · exact always_pure _
    · split
      · exact always_pure _
      · refine always_bind (h.findInstalledName _) fun b => ?_
        cases b <;> exact always_pure _

end QueryPermits

structure RoutinePermits (ok : (o : Op) → o.Reply → Prop) (safe : Op → Prop) (u : Int) : Prop
    extends RemovalPermits ok safe where
  config : ∀ op : ConfigOp, op.routine = true → safe (.config u op)
  limit : safe .getMaxInstallNum
  publish : ∀ event, safe (.publishFontUpdate event)

theorem always_reportRemoved {ok : (o : Op) → o.Reply → Prop} {safe : Op → Prop} {u : Int}
    (h : ∀ event, safe (.publishFontUpdate event)) (records : List FontRecordInfo) :
    always (P := sig) ok safe (FontManager.reportRemoved u records) := by
  unfold FontManager.reportRemoved
  split
  · exact always_pure _
  · exact always_perform (h _)

theorem RoutinePermits.toQuery {ok : (o : Op) → o.Reply → Prop} {safe : Op → Prop} {u : Int}
    (h : RoutinePermits ok safe u) : QueryPermits ok safe u := ⟨h.config, h.limit⟩

namespace RoutinePermits

variable {ok : (o : Op) → o.Reply → Prop} {safe : Op → Prop} {u : Int}

theorem configTask (h : RoutinePermits ok safe u) (op : ConfigOp) (hop : op.routine = true) :
    always (P := sig) ok safe (FontManager.config u op) := always_perform (h.config op hop)

theorem publishFontUpdate (h : RoutinePermits ok safe u) (type : FontEventType) (name : Str) :
    always (P := sig) ok safe (FontManager.publishFontUpdate type name u) :=
  always_perform (h.publish _)

section calls

variable (h : RoutinePermits ok safe u)

include h

theorem fixStaleRecords (hdelete : ∀ path, safe (.config u (.deleteFontRecord path))) (path : Str)
    (names : List Str) :
    always (P := sig) ok safe (FontManager.fixStaleRecords u path names) := by
  induction names with
  | nil => exact always_pure _
  | cons name rest ih =>
    refine always_bind (h.configTask _ rfl) fun findPath => ?_
    split
    · exact ih
    · refine always_bind (h.removalTask _ rfl) fun b => ?_
      cases b with
      | true => exact always_pure _
      | false =>
        refine always_bind (always_perform (hdelete _)) fun deleted => ?_
        cases deleted with
        | true => exact ih
        | false => exact always_pure _

theorem uninstallFont (hdelete : ∀ path, safe (.config u (.deleteFontRecord path))) (name : Str) :
    always (P := sig) ok safe (FontManager.uninstallFont name u) := by
  unfold FontManager.uninstallFont
  split
  · exact always_pure _
  · refine always_bind (h.configTask _ rfl) fun found => ?_
    cases found with
    | none => exact always_pure _
    | some record =>
      dsimp only
      split
      · exact always_pure _
      · refine always_bind (h.validateAndResolveRealPath _ _) fun realPath => ?_
        split
        · exact always_pure _
        · refine always_bind (h.removeIfExists _) fun b => ?_
          cases b with
          | false => exact always_pure _
          | true =>
            refine always_bind (always_perform (hdelete _)) fun deleted => ?_
            cases deleted with
            | false => exact always_pure _
            | true => exact always_bind (h.publishFontUpdate _ _) fun _ => always_pure _

theorem uninstallScopeFont (srcPath bundleName : Str) (tokenId : Int) :
    always (P := sig) ok safe (FontManager.uninstallScopeFont srcPath bundleName tokenId u) := by
  unfold FontManager.uninstallScopeFont
  split
  · exact always_pure _
  · refine always_bind (h.configTask _ rfl) fun found => ?_
    cases found with
    | none => exact always_pure _
    | some record =>
      dsimp only
      split
      · refine always_bind (h.validateAndResolveRealPath _ _) fun realPath => ?_
        refine always_bind (h.removeIfExists _) fun b => ?_
        cases b with
        | false => exact always_pure _
        | true =>
          refine always_bind (h.configTask _ rfl) fun deleted => ?_
          cases deleted with
          | false => exact always_pure _
          | true => exact always_bind (h.publishFontUpdate _ _) fun _ => always_pure _
      · exact always_pure _

theorem sweepRecords (records : List FontRecordInfo) :
    always (P := sig) ok safe (FontManager.sweepRecords u records) := by
  induction records with
  | nil => exact always_pure _
  | cons record rest ih =>
    refine always_bind (h.validateAndResolveRealPath _ _) fun _ => ?_
    refine always_bind (h.removeIfExists _) fun _ => ?_
    exact always_bind (h.configTask _ rfl) fun _ => ih

theorem reportRemoved (records : List FontRecordInfo) :
    always (P := sig) ok safe (FontManager.reportRemoved u records) :=
  always_reportRemoved h.publish records

theorem cleanupAppScopeFonts (id : Str) :
    always (P := sig) ok safe (FontManager.cleanupAppScopeFonts id u) := by
  refine always_bind (h.configTask _ rfl) fun records => ?_
  refine always_bind (h.sweepRecords _) fun _ => ?_
  refine always_bind (h.reportRemoved _) fun _ => ?_
  exact always_bind (h.deleteDir _) fun _ => always_pure _

theorem cleanupScopeFontsByUser :
    always (P := sig) ok safe (FontManager.cleanupScopeFontsByUser u) := by
  refine always_bind (h.configTask _ rfl) fun records => ?_
  exact always_bind (h.sweepRecords _) fun _ => always_bind (h.reportRemoved _) fun _ =>
    always_pure _

theorem cleanupAppScopeFontsByUser :
    always (P := sig) ok safe (FontManager.cleanupAppScopeFontsByUser u) := by
  refine always_bind (h.configTask _ rfl) fun records => ?_
  exact always_bind (h.sweepRecords _) fun _ => always_bind (h.reportRemoved _) fun _ =>
    always_pure _

end calls

section cleanups

variable (h : ∀ u, RoutinePermits ok safe u)

include h

theorem deleteDirs (paths : List Str) :
    always (P := sig) ok safe (FontManagerUtils.deleteDirs paths) := by
  induction paths with
  | nil => exact always_pure _
  | cons path rest ih => exact always_bind ((h 0).deleteDir path) fun _ => ih

theorem cleanupDirs (selected : Str → Bool) (userIds : List Int) :
    always (P := sig) ok safe (FontManagerUtils.cleanupDirs selected userIds) := by
  induction userIds with
  | nil => exact always_pure _
  | cons userId rest ih =>
    refine always_bind ((h 0).removalTask _ rfl) fun b => ?_
    cases b with
    | false => exact ih
    | true =>
      refine always_bind ((h 0).removalTask _ rfl) fun names => ?_
      exact always_bind (deleteDirs h _) fun _ => ih

theorem clearAllTempFileDir (userIds : List Int) :
    always (P := sig) ok safe (FontManagerUtils.clearAllTempFileDir userIds) := by
  induction userIds with
  | nil => exact always_pure _
  | cons userId rest ih =>
    refine always_bind ((h 0).removalTask _ rfl) fun b => ?_
    cases b with
    | false => exact ih
    | true => exact always_bind ((h 0).deleteDir _) fun _ => ih

theorem cleanup (client : Str × Int) :
    always (P := sig) ok safe (FontClientRegistry.cleanup client) := by
  unfold FontClientRegistry.cleanup
  split
  · exact always_bind ((h _).cleanupAppScopeFonts _) fun _ => always_pure _
  · exact always_pure _

theorem cleanupUserScopeFonts (userId : Int) :
    always (P := sig) ok safe (FontManagerServer.cleanupUserScopeFonts userId) := by
  unfold FontManagerServer.cleanupUserScopeFonts
  split
  · exact always_pure _
  · exact (h _).cleanupScopeFontsByUser

omit h in
theorem cleanupUsers {cleanup : Int → FontTask FontErrorCode}
    (hcleanup : ∀ u, always (P := sig) ok safe (cleanup u)) (userIds : List Int) :
    always (P := sig) ok safe (FontManagerServer.cleanupUsers cleanup userIds) := by
  induction userIds with
  | nil => exact always_pure _
  | cons userId rest ih => exact always_bind (hcleanup userId) fun _ => ih

theorem cleanupAllScopeFontsOnBoot (hids : safe .getAllCreatedUserIds) :
    always (P := sig) ok safe FontManagerServer.cleanupAllScopeFontsOnBoot := by
  refine always_perform_bind hids fun userIds _ => ?_
  refine always_bind (cleanupUsers (fun u => (h u).cleanupScopeFontsByUser) _) fun _ => ?_
  refine always_perform_bind hids fun tempUserIds _ => ?_
  refine always_bind (clearAllTempFileDir h _) fun _ => always_perform_bind hids fun dirUserIds _ => ?_
  exact always_bind (cleanupDirs h _ _) fun _ => always_pure _

theorem cleanupAppScopeFontsOnStart (hids : safe .getAllCreatedUserIds) :
    always (P := sig) ok safe FontManagerServer.cleanupAppScopeFontsOnStart := by
  refine always_perform_bind hids fun userIds _ => ?_
  refine always_bind (cleanupUsers (fun u => (h u).cleanupAppScopeFontsByUser) _) fun _ => ?_
  refine always_perform_bind hids fun dirUserIds _ => ?_
  exact always_bind (cleanupDirs h _ _) fun _ => always_pure _

end cleanups

end RoutinePermits

structure Permits (ok : (o : Op) → o.Reply → Prop) (safe : Op → Prop) (u : Int) : Prop
    extends RoutinePermits ok safe u, FilePermits ok safe

namespace Permits

variable {ok : (o : Op) → o.Reply → Prop} {safe : Op → Prop} {u : Int}

theorem validated_names (srcPath : Str) (fd : Fd) : returns (P := sig)
    (fun ret => ret = FontErrorCode.ok → getFullNamesByFd fd ≠ [])
    (FontManager.validateScopeFontForInstall u srcPath fd) := by
  intro record
  cases record with
  | some record => exact fun h => nomatch h
  | none =>
    refine fun maxInstallNum installed => ?_
    change returns _ (if _ then _ else _)
    split
    · exact fun h => nomatch h
    · split
      · exact fun h => nomatch h
      · rename_i hnames
        exact returns_of_forall (fun _ _ => hnames) _

variable (h : Permits ok safe u)

include h

theorem copyAndInsertFont {names : List Str} (hinsert : ∀ path m, ok .getMaxInstallNum m →
      safe (.config u (.insertFontRecordIfUnderLimit path names m)))
    (env : Env) (fd : Fd) {m : Int} (hm : ok .getMaxInstallNum m) :
    always (P := sig) ok safe (FontManager.copyAndInsertFont env fd u names m) := by
  refine always_bind (h.copyFileForInstall _ _ _ _) fun destPath => ?_
  split
  · exact always_pure _
  · refine always_bind (always_perform (hinsert _ _ hm)) fun insertRet => ?_
    split
    · exact always_bind (h.deleteDir _) fun _ => always_pure _
    · exact always_bind (h.publishFontUpdate _ _) fun _ => always_pure _

theorem installFont (hdelete : ∀ path, safe (.config u (.deleteFontRecord path)))
    (hinsert : ∀ path names m, names ≠ [] → ok .getMaxInstallNum m →
      safe (.config u (.insertFontRecordIfUnderLimit path names m))) (env : Env) (fd : Fd) :
    always (P := sig) ok safe (FontManager.installFont env fd u) := by
  refine always_bind (h.toSetup.checkAndInitInstallPath _) fun b => ?_
  cases b with
  | false => exact always_pure _
  | true =>
    simp only [if_true]
    split
    · exact always_pure _
    · rename_i hnames
      refine always_bind (h.fixStaleRecords hdelete _ _) fun fixed => ?_
      cases fixed with
      | some code => exact always_pure _
      | none =>
        refine always_perform_bind h.limit fun m hm => ?_
        refine always_bind (h.configTask _ rfl) fun installed => ?_
        split
        · exact always_pure _
        · exact h.copyAndInsertFont (fun path m => hinsert path _ m hnames) env fd hm

theorem copyAndInsertScopeFont {env : Env} {info : ScopeFontInstallInfo}
    (hinsert : ∀ destPath, safe (.config u (.insertScopeFontRecord
      (FontManager.scopeRecord info destPath)))) (hu : info.userId = u) :
    always (P := sig) ok safe (FontManager.copyAndInsertScopeFont env info) := by
  obtain rfl := hu
  refine always_bind (h.toSetup.checkAndInitScopeFontPath _) fun b => ?_
  cases b with
  | false => exact always_pure _
  | true =>
    refine always_bind (h.copyFileForInstall _ _ _ _) fun destPath => ?_
    split
    · exact always_pure _
    · refine always_bind (always_perform (hinsert _)) fun inserted => ?_
      cases inserted with
      | true => exact always_pure _
      | false => exact always_bind (h.deleteDir _) fun _ => always_pure _

theorem installScopeFont (hinsert : ∀ record : FontRecordInfo, record.fullNames ≠ [] →
      safe (.config u (.insertScopeFontRecord record)))
    (env : Env) (info : ScopeFontInstallInfo) (hu : info.userId = u) :
    always (P := sig) ok safe (FontManager.installScopeFont env info) := by
  obtain rfl := hu
  unfold FontManager.installScopeFont
  split
  · exact always_pure _
  · refine always_bind (h.toSetup.checkAndInitInstallPath _) fun b => ?_
    cases b with
    | false => exact always_pure _
    | true =>
      refine always_bind (h.configTask _ rfl) fun updated => ?_
      cases updated with
      | false => exact always_pure _
      | true =>
        refine always_bind_returns (h.toQuery.validateScopeFontForInstall _ _) (validated_names _ _)
          fun ret hret => ?_
        split
        · exact always_pure _
        · rename_i hok
          have hnames := hret (not_not.mp hok)
          refine always_bind (h.copyAndInsertScopeFont (fun _ => hinsert _ hnames) rfl) fun ret => ?_
          split
          · exact always_pure _
          · exact always_bind (h.publishFontUpdate _ _) fun _ => always_pure _

theorem call (hdelete : ∀ path, safe (.config u (.deleteFontRecord path)))
    (hfont : ∀ path names m, names ≠ [] → ok .getMaxInstallNum m →
      safe (.config u (.insertFontRecordIfUnderLimit path names m)))
    (hscope : ∀ record : FontRecordInfo, record.fullNames ≠ [] →
      safe (.config u (.insertScopeFontRecord record))) (c : FontCall) :
    always (P := sig) ok safe (c.program u) := by
  cases c with
  | installFont env fd => exact h.installFont hdelete hfont env fd
  | uninstallFont name => exact h.uninstallFont hdelete name
  | installScopeFont env fd scope srcPath bundleName t => exact h.installScopeFont hscope env _ rfl
  | uninstallScopeFont srcPath bundleName t => exact h.uninstallScopeFont _ _ _
  | cleanupAppScopeFonts scope t => exact h.cleanupAppScopeFonts _
  | cleanupScopeFontsByUser => exact h.cleanupScopeFontsByUser
  | cleanupAppScopeFontsByUser => exact h.cleanupAppScopeFontsByUser

end Permits

def outside : Op → Prop
  | .registry _ => False
  | _ => True

theorem outside_permits (u : Int) : Permits (fun _ _ => True) outside u where
  file _ := trivial
  config _ _ := trivial
  limit := trivial
  publish _ := trivial

theorem outside_routine (u : Int) : RoutinePermits (fun _ _ => True) outside u :=
  (outside_permits u).toRoutinePermits

theorem registry_of_outside {w : World} {o : Op} (h : outside o) (io : Io) :
    (w.exec o io).2.registry = w.registry :=
  World.exec_registry io fun op heq => by
    subst heq
    exact h
