import FontManager.Source.Lifecycle

open FontDefine FontManagerUtils Interaction DataMigrationManager FontManagerServer
open Program hiding perform

variable {C : Type} {α : Type} {ok : (o : ProcessOp C) → o.Reply → Prop}
  {safe : ProcessOp C → Prop}

structure AdmitsCleanup (safe : ProcessOp C → Prop) : Prop where
  font : ∀ o, safe (.font o)
  isEmpty : ∀ path, safe (.isEmpty path)
  removeEmpty : ∀ path, safe (.removeEmpty path)

structure AdmitsService (safe : ProcessOp C → Prop) : Prop extends AdmitsCleanup safe where
  callingCount : safe .callingCount
  isDataMigrationing : safe .isDataMigrationing
  postUnload : safe (.postTask .unload)
  removeUnloadTask : safe .removeUnloadTask
  unloadFontService : safe .unloadFontService

structure AdmitsCopying (safe : ProcessOp C → Prop) : Prop where
  font : ∀ o, safe (.font o)
  getDirFiles : ∀ path, safe (.getDirFiles path)
  isEmptyFolder : ∀ path, safe (.isEmptyFolder path)
  openFile : ∀ path, safe (.openFile path)
  copyFile : ∀ source path, safe (.copyFile source path)
  renameFile : ∀ src dest, safe (.renameFile src dest)

structure AdmitsMigration (safe : ProcessOp C → Prop) : Prop extends AdmitsCopying safe where
  removeUnloadTask : safe .removeUnloadTask
  getFolderSize : ∀ path, safe (.getFolderSize path)
  setMigrating : safe .setMigrating
  clearMigrating : safe .clearMigrating
  setCallback : ∀ callback, safe (.setCallback callback)
  callback : safe .callback
  handle : ∀ request callback event, safe (.handle request callback event)
  startHeartBeat : ∀ request, safe (.startHeartBeat request)
  heartBeatJoinable : safe .heartBeatJoinable
  joinHeartBeat : safe .joinHeartBeat

theorem always_font (h : ∀ o, safe (.font o)) (p : FontTask α) :
    always (P := processSig C) ok safe (font p) := by
  have hp : always (P := sig) (fun _ _ => True) (fun _ => True) p :=
    always_of_forall (fun _ => trivial) p
  exact always_embed (fun o _ => h o) hp

theorem always_reply {p : ProcessTask C FontErrorCode} (h : always (P := processSig C) ok safe p) :
    always (P := processSig C) ok safe (reply p) := always_bind h fun _ => always_pure _

theorem always_silent {p : ProcessTask C α} (h : always (P := processSig C) ok safe p) :
    always (P := processSig C) ok safe (silent p) := always_bind h fun _ => always_pure _

namespace AdmitsCleanup

variable (h : AdmitsCleanup safe)

include h

theorem clearTempAndCollect (dirs : List Str) :
    always (P := processSig C) ok safe (clearTempAndCollect dirs) := by
  induction dirs with
  | nil => exact always_pure _
  | cons dirPath rest ih =>
    refine always_bind (always_font h.font _) fun found => ?_
    have collected : always (P := processSig C) ok safe (do
        let empty : Bool ← perform (.isEmpty dirPath)
        let dirsToRemove ← FontManagerUtils.clearTempAndCollect rest
        if empty then pure (dirPath :: dirsToRemove) else pure dirsToRemove) := by
      refine always_perform_bind (h.isEmpty _) fun empty _ => always_bind ih fun dirsToRemove => ?_
      split <;> exact always_pure _
    cases found with
    | true => exact always_bind (always_font h.font _) fun _ => collected
    | false => exact collected

theorem removeDirs (dirs : List Str) : always (P := processSig C) ok safe (removeDirs dirs) := by
  induction dirs with
  | nil => exact always_pure _
  | cons dirPath rest ih => exact always_perform_bind (h.removeEmpty _) fun _ _ => ih

theorem cleanupScopeFontDirs (userIds : List Int) :
    always (P := processSig C) ok safe (cleanupScopeFontDirs userIds) := by
  induction userIds with
  | nil => exact always_pure _
  | cons userId rest ih =>
    refine always_bind (always_font h.font _) fun found => ?_
    cases found with
    | true =>
      refine always_bind (always_font h.font _) fun names => ?_
      exact always_bind (h.clearTempAndCollect _) fun dirs =>
        always_bind (h.removeDirs dirs) fun _ => ih
    | false => exact ih

end AdmitsCleanup

namespace AdmitsService

variable (h : AdmitsService safe)

include h

theorem unloadTask : always (P := processSig C) ok safe unloadTask := by
  refine always_perform_bind h.callingCount fun (n : Nat) _ => ?_
  split
  · exact always_pure _
  · refine always_perform_bind h.isDataMigrationing fun migrating _ => ?_
    split
    · exact always_pure _
    · refine always_bind (always_font h.font _) fun clientCount => ?_
      split
      · exact always_pure _
      · refine always_bind (always_font h.font _) fun _ => ?_
        refine always_bind (always_font h.font _) fun _ => ?_
        refine always_bind (always_font h.font _) fun _ => ?_
        exact always_bind (h.cleanupScopeFontDirs _) fun _ => always_perform h.unloadFontService

theorem addUnloadFontServiceTask :
    always (P := processSig C) ok safe addUnloadFontServiceTask := by
  refine always_perform_bind h.callingCount fun (n : Nat) _ => ?_
  split
  · exact always_pure _
  · refine always_perform_bind h.isDataMigrationing fun migrating _ => ?_
    split
    · exact always_pure _
    · refine always_bind (always_font h.font _) fun clientCount => ?_
      split
      · exact always_pure _
      · exact always_bind (always_perform h.postUnload) fun _ => always_pure _

theorem clientDiedCallback : always (P := processSig C) ok safe clientDiedCallback := by
  refine always_perform_bind h.callingCount fun (n : Nat) _ => ?_
  split
  · refine always_perform_bind h.isDataMigrationing fun migrating _ => ?_
    split
    · exact always_pure _
    · refine always_bind (always_font h.font _) fun clientCount => ?_
      split
      · exact h.addUnloadFontServiceTask
      · exact always_pure _
  · exact always_pure _

theorem leave (checkClientCount : Bool) :
    always (P := processSig C) ok safe (leave checkClientCount) := by
  refine always_perform_bind h.callingCount fun (n : Nat) _ => ?_
  split
  · split
    · refine always_bind (always_font h.font _) fun clientCount => ?_
      split
      · exact h.addUnloadFontServiceTask
      · exact always_pure _
    · exact h.addUnloadFontServiceTask
  · exact always_pure _

theorem eraseAndNotify (tokenId : Int) :
    always (P := processSig C) ok safe (eraseAndNotify tokenId) := by
  refine always_bind (always_font h.font _) fun erased => ?_
  cases erased with
  | none => exact always_pure _
  | some client =>
    exact always_bind (always_font h.font _) fun _ => always_bind h.clientDiedCallback fun _ =>
      always_pure _

theorem body (request : Nat) (call : ServerCall C)
    (hcall : ∀ caller callback, call ≠ .dataMigration caller callback) :
    always (P := processSig C) ok safe (body request call) := by
  cases call with
  | dataMigration caller callback => exact absurd rfl (hcall caller callback)
  | offFontObserver caller =>
    refine always_reply ?_
    unfold offFontObserver
    split
    · exact always_pure _
    · exact h.eraseAndNotify _
  | getFontScope caller srcPath => exact always_font h.font _
  | _ => exact always_reply (always_font h.font _)

end AdmitsService

namespace AdmitsCopying

variable (h : AdmitsCopying safe)

include h

theorem copyFileForDataMigration (path : Str) (userId : Int) :
    always (P := processSig C) ok safe (copyFileForDataMigration path userId) := by
  refine always_bind (always_font h.font _) fun exists_ => ?_
  split
  · exact always_pure _
  · refine always_perform_bind (h.openFile _) fun fp _ => ?_
    cases fp with
    | none => exact always_pure _
    | some source =>
      refine always_perform_bind (h.copyFile _ _) fun copied _ => ?_
      cases copied with
      | false => exact always_pure _
      | true =>
        refine always_bind (always_font h.font _) fun found => ?_
        have renamed (result : Bool) : always (P := processSig C) ok safe
            (if result then pure .ok
             else do
              removeTemp (userPath userId ++ tempFile ++ getFileName path)
              pure DataMigrationResultCode.renameFile) := by
          split
          · exact always_pure _
          · exact always_bind (always_bind (always_font h.font _) fun _ => always_pure _) fun _ =>
              always_pure _
        cases found with
        | false => exact renamed false
        | true => exact always_perform_bind (h.renameFile _ _) fun result _ => renamed result

theorem copyToUsers (path : Str) (userIds : List Int) :
    always (P := processSig C) ok safe (copyToUsers path userIds) := by
  induction userIds with
  | nil => exact always_pure _
  | cons userId rest ih =>
    refine always_bind (h.copyFileForDataMigration path userId) fun ret => ?_
    split
    · exact always_pure _
    · exact ih

theorem startOneFileCopyTask (userIds : List Int) (path : Str) :
    always (P := processSig C) ok safe (startOneFileCopyTask userIds path) := by
  refine always_bind (h.copyToUsers path userIds) fun ret => ?_
  split
  · exact always_pure _
  · refine always_bind (always_font h.font _) fun removed => ?_
    split <;> exact always_pure _

theorem checkAllUserDir (userIds : List Int) :
    always (P := processSig C) ok safe (checkAllUserDir userIds) := by
  induction userIds with
  | nil => exact always_pure _
  | cons userId rest ih =>
    refine always_bind (always_font h.font _) fun found => ?_
    split
    · exact ih
    · exact always_pure _

theorem initDataMigrationTempDir (userIds : List Int) :
    always (P := processSig C) ok safe (initDataMigrationTempDir userIds) := by
  induction userIds with
  | nil => exact always_pure _
  | cons userId rest ih =>
    refine always_bind (always_font h.font _) fun created => ?_
    split
    · exact ih
    · exact always_pure _

theorem initDataMigrationEnv : always (P := processSig C) ok safe initDataMigrationEnv := by
  refine always_bind (always_font h.font _) fun userIds => ?_
  split
  · exact always_pure _
  · refine always_bind ?_ fun _ => always_pure _
    refine always_bind (always_font h.font _) fun _ => ?_
    refine always_perform_bind (h.isEmptyFolder _) fun empty _ => ?_
    split
    · exact always_pure _
    · refine always_bind (h.checkAllUserDir _) fun checked => ?_
      split
      · refine always_bind (h.initDataMigrationTempDir _) fun created => ?_
        split <;> exact always_pure _
      · exact always_pure _

theorem checkAndUpdateAllFontRecord (userIds : List Int) :
    always (P := processSig C) ok safe (checkAndUpdateAllFontRecord userIds) := by
  induction userIds with
  | nil => exact always_pure _
  | cons userId rest ih => exact always_bind (always_font h.font _) fun _ => ih

end AdmitsCopying

namespace AdmitsMigration

variable (h : AdmitsMigration safe)

include h

theorem refreshEventData (request : Nat) (event : EventData) :
    always (P := processSig C) ok safe (refreshEventData request event) := by
  refine always_perform_bind h.callback fun callback _ => ?_
  cases callback with
  | none => exact always_pure _
  | some callback => exact always_perform (h.handle _ _ _)

theorem migrateFiles (request : Nat) (userIds : List Int) (size i : Nat) (paths : List Str) :
    always (P := processSig C) ok safe (migrateFiles request userIds size i paths) := by
  induction paths generalizing i with
  | nil => exact always_pure _
  | cons path rest ih =>
    have copied : always (P := processSig C) ok safe (do
        let ret ← startOneFileCopyTask userIds path
        if ret ≠ .ok then pure ret
        else DataMigrationManager.migrateFiles request userIds size (i + 1) rest) := by
      refine always_bind (h.startOneFileCopyTask _ _) fun ret => ?_
      split
      · exact always_pure _
      · exact ih _
    unfold DataMigrationManager.migrateFiles
    split
    · refine always_bind ?_ fun _ => copied
      exact always_perform_bind (h.getFolderSize _) fun _ _ => h.refreshEventData _ _
    · exact copied

theorem dataMigrationInner (request : Nat) :
    always (P := processSig C) ok safe (dataMigrationInner request) := by
  refine always_bind h.initDataMigrationEnv fun env => ?_
  split
  · exact always_pure _
  · refine always_perform_bind (h.startHeartBeat _) fun _ _ => always_bind ?_ fun _ => always_pure _
    exact always_perform_bind (h.getDirFiles _) fun paths _ => h.migrateFiles _ _ _ _ _

theorem finish (request : Nat) (ret : DataMigrationResultCode) :
    always (P := processSig C) ok safe (finish request ret) := by
  refine always_perform_bind h.clearMigrating fun _ _ => ?_
  refine always_bind (h.refreshEventData _ _) fun _ => ?_
  refine always_perform_bind h.heartBeatJoinable fun joinable _ => ?_
  cases joinable with
  | false => exact always_perform (h.setCallback none)
  | true => exact always_perform_bind h.joinHeartBeat fun _ _ => always_perform (h.setCallback none)

theorem migrationTask (callback : C) (request : Nat) :
    always (P := processSig C) ok safe (migrationTask callback request) := by
  refine always_perform_bind h.removeUnloadTask fun _ _ => ?_
  refine always_perform_bind h.setMigrating fun expected _ => ?_
  cases expected with
  | false => exact always_pure _
  | true =>
    refine always_perform_bind (h.setCallback _) fun _ _ => always_bind ?_ fun ret => h.finish _ _
    refine always_bind (h.dataMigrationInner request) fun done => ?_
    exact always_bind (h.checkAndUpdateAllFontRecord _) fun _ => always_pure _

end AdmitsMigration
