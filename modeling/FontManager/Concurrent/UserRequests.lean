import FontManager.Concurrent.UserView
import FontManager.Interaction.Protocol
import FontManager.Sequential.Containment
import FontManager.Store.Calls

open FontDefine FontManagerUtils FontManager FontLocation Interaction

namespace UserIsolation

def terms (home : Int → Int) (k : Int) : Protocol sig Unit where
  allows _ o := actsFor home k o
  replies _ o r := answers home o r
  after _ _ _ := ()

abbrev Confined (home : Int → Int) (k : Int) {α : Type} (post : α → Prop) (p : FontTask α) : Prop :=
  (terms home k).Follows (fun a _ => post a) () p

structure Base (u : Int) (cs : Loc) : Prop where
  plain : ∀ c ∈ cs, Plain c
  below : userDir u <+: cs

namespace Base

variable {u : Int} {cs : Loc}

theorem user (u : Int) : Base u (userDir u) := ⟨userDir_plain u, List.prefix_rfl⟩

theorem app (u : Int) {id : Str} (hid : Plain id) : Base u (userDir u ++ [id]) :=
  ⟨appDir_plain u hid, List.prefix_append _ _⟩

theorem dir (h : Base u cs) : Inside u (dirPath cs) := by
  rw [Inside, locate_dirPath h.plain]
  exact h.below

theorem extend (h : Base u cs) {c : Str} (hc : Plain c) : Base u (cs ++ [c]) := by
  refine ⟨?_, h.below.trans (List.prefix_append _ _)⟩
  intro d hd
  rcases List.mem_append.mp hd with hd | hd
  · exact h.plain d hd
  · exact List.mem_singleton.mp hd ▸ hc

theorem name (h : Base u cs) {c : Str} (hc : Plain c) : Inside u (dirPath cs ++ c) := by
  rw [dirPath_append_name, Inside, locate_joinPath (h.extend hc).plain]
  exact (h.extend hc).below

theorem temp (cs : Loc) : dirPath cs ++ tempFile = dirPath (cs ++ [tempDir]) := by
  have htemp : tempFile = tempDir ++ ['/'] := by decide
  rw [htemp, ← List.append_assoc, dirPath_append_dir]

theorem extend_temp (h : Base u cs) : Base u (cs ++ [tempDir]) := h.extend (by decide)

end Base

namespace Confined

variable {home : Int → Int} {k : Int} {α β : Type}

theorem pure {post : α → Prop} {a : α} (h : post a) : Confined home k post (Pure.pure a) := h

theorem bind {m : α → Prop} {post : β → Prop} {p : FontTask α} {f : α → FontTask β}
    (hp : Confined home k m p) (hf : ∀ a, m a → Confined home k post (f a)) :
    Confined home k post (p >>= f) :=
  Protocol.follows_bind (Protocol.follows_mono (fun a _ h => hf a h) hp)

theorem perform {post : α → Prop} {o : Op} {f : o.Reply → FontTask α} (h : actsFor home k o)
    (hf : ∀ r, answers home o r → Confined home k post (f r)) :
    Confined home k post (Program.perform (P := sig) o >>= f) :=
  Protocol.follows_perform_bind h hf

theorem step {o : Op} (h : actsFor home k o) :
    Confined home k (fun r => answers home o r) (Program.perform (P := sig) o) :=
  ⟨h, fun _ hr => hr⟩

theorem weaken {m post : α → Prop} {p : FontTask α} (hp : Confined home k m p)
    (h : ∀ a, m a → post a) : Confined home k post p :=
  Protocol.follows_mono (fun a _ ha => h a ha) hp

theorem trivially {m : α → Prop} {p : FontTask α} (hp : Confined home k m p) :
    Confined home k (fun _ => True) p := hp.weaken fun _ _ => trivial

theorem always {post : α → Prop} {p : FontTask α} (hp : Confined home k post p) :
    Program.always (P := sig) (answers home) (actsFor home k) p := by
  induction p with
  | done a => trivial
  | call o f ih => exact ⟨hp.1, fun r hr => ih r (hp.2 r hr)⟩

section files

variable {path : Str}

theorem checkPathExist (hp : Inside k path) :
    Confined home k (fun _ => True) (FontManagerUtils.checkPathExist path) :=
  trivially (step (o := .file (.exists path)) hp)

theorem createDirWithPermission (hp : Inside k path) :
    Confined home k (fun _ => True) (FontManagerUtils.createDirWithPermission path) := by
  unfold FontManagerUtils.createDirWithPermission
  split
  · exact pure trivial
  · exact trivially (step (o := .file (.createDirectory path)) hp)

theorem createFileWithPermission (hp : Inside k path) :
    Confined home k (fun _ => True) (FontManagerUtils.createFileWithPermission path) := by
  unfold FontManagerUtils.createFileWithPermission
  split
  · exact pure trivial
  · exact trivially (step (o := .file (.createConfig path)) hp)

theorem checkOrCreateDir (hp : Inside k path) :
    Confined home k (fun _ => True) (FontManagerUtils.checkOrCreateDir path) := by
  apply bind (checkPathExist hp)
  intro found _
  cases found with
  | true => exact pure trivial
  | false => exact createDirWithPermission hp

theorem removeFile (hp : Inside k path) :
    Confined home k (fun _ => True) (FontManagerUtils.removeFile path) := by
  apply bind (checkPathExist hp)
  intro found _
  cases found with
  | true => exact trivially (step (o := .file (.removeAll path)) hp)
  | false => exact pure trivial

theorem deleteDir (hp : Inside k path) :
    Confined home k (fun _ => True) (FontManagerUtils.deleteDir path) := by
  apply bind (checkPathExist hp)
  intro found _
  cases found with
  | true => exact bind (step (o := .file (.removeAll path)) hp) fun _ _ => pure trivial
  | false => exact pure trivial

theorem removeIfExists (hp : path = [] ∨ Inside k path) :
    Confined home k (fun _ => True) (FontManager.removeIfExists path) := by
  unfold FontManager.removeIfExists
  split
  · exact pure trivial
  · next hne =>
    have hinside := hp.resolve_left hne
    apply bind (checkPathExist hinside)
    intro found _
    cases found with
    | true => exact removeFile hinside
    | false => exact pure trivial

theorem validateAndResolveRealPath (path : Str) :
    Confined home k (fun r => r = [] ∨ Inside k r)
      (FontManager.validateAndResolveRealPath (installPath k) path) := by
  unfold FontManager.validateAndResolveRealPath
  split
  · exact pure (Or.inl rfl)
  · apply perform (o := .file (.weaklyCanonical _)) trivial
    intro r hr
    cases r with
    | none => exact pure (Or.inl rfl)
    | some canonicalStr =>
      apply perform (o := .file (.weaklyCanonical _)) trivial
      intro r' hr'
      cases r' with
      | none => exact pure (Or.inl rfl)
      | some canonicalInstall =>
        obtain rfl := hr canonicalStr rfl
        obtain rfl := hr' canonicalInstall rfl
        dsimp only
        split
        · next hprefix => exact pure (Or.inr (contained_of_leading hprefix).inside)
        · exact pure (Or.inl rfl)

end files

section directories

variable {cs : Loc}

theorem checkAndInitScopeFontPath (h : Base k cs) :
    Confined home k (fun _ => True) (FontManagerUtils.checkAndInitScopeFontPath (dirPath cs)) := by
  apply bind (checkOrCreateDir h.dir)
  intro made _
  cases made with
  | true =>
    apply checkOrCreateDir
    rw [Base.temp]
    exact h.extend_temp.dir
  | false => exact pure trivial

theorem checkAndInitInstallPath (u : Int) :
    Confined home u (fun _ => True) (FontManagerUtils.checkAndInitInstallPath (installPath u)) := by
  have hconfig : Inside u (installPath u ++ fontConfigFile) := by
    rw [installPath_eq]
    exact (Base.user u).name fontConfigFile_plain
  unfold FontManagerUtils.checkAndInitInstallPath FontManagerUtils.checkFontConfigPath
  apply bind (m := fun _ => True)
  · rw [installPath_eq]
    exact checkAndInitScopeFontPath (.user u)
  · intro made _
    cases made with
    | false => exact pure trivial
    | true =>
      apply bind (checkPathExist hconfig)
      intro found _
      cases found with
      | true => exact pure trivial
      | false => exact createFileWithPermission hconfig

theorem copyFileForInstall (h : Base k cs) (env : Env) (fd : Fd) :
    Confined home k (fun r => r = [] ∨
        r = dirPath cs ++ taggedName env (getFileName (getFilePathByFd fd)))
      (FontManager.copyFileForInstall env (dirPath cs) (getFileName (getFilePathByFd fd)) fd) := by
  have hplain := (taggedName_tagged env fd).plain
  have htemp : Inside k (dirPath cs ++ tempFile ++
      taggedName env (getFileName (getFilePathByFd fd))) := by
    rw [Base.temp]
    exact h.extend_temp.name hplain
  have hdest := h.name hplain
  unfold FontManager.copyFileForInstall
  apply bind (step (o := .file (.copy fd _)) htemp)
  intro copied _
  cases copied with
  | false => exact pure (Or.inl rfl)
  | true =>
    apply bind (m := fun _ => True)
    · apply bind (checkPathExist htemp)
      intro found _
      cases found with
      | false => exact pure trivial
      | true => exact trivially (step (o := .file (.rename _ _)) ⟨htemp, hdest⟩)
    · intro renamed _
      cases renamed with
      | true => exact pure (Or.inr rfl)
      | false => exact bind (removeFile htemp) fun _ _ => pure (Or.inl rfl)

theorem inserted_inside {s : Slot} (hs : s.Valid) {path : Str} (hpath : path = s.sandbox) :
    Inside k (realPath k (Text.cStr path)) := by
  rw [hpath, Text.cStr_of_nulFree (sandbox_nulFree hs), Inside, locate_realPath hs]
  exact List.prefix_append _ _

end directories

section calls

variable {u : Int}

theorem config (op : ConfigOp) (hop : Inserts u op) :
    Confined home u (fun r => answers home (.config u op) r) (FontManager.config u op) :=
  step (o := .config u op) ⟨rfl, hop⟩

theorem publishFontUpdate (type : FontEventType) (name : Str) :
    Confined home u (fun _ => True) (FontManager.publishFontUpdate type name u) :=
  step (o := .publishFontUpdate ⟨type, name, u⟩) rfl

theorem getMaxInstallNum : Confined home u (fun _ => True) FontManager.getMaxInstallNum :=
  step (o := .getMaxInstallNum) trivial

theorem fixStaleRecords (names : List Str) :
    Confined home u (fun _ => True) (FontManager.fixStaleRecords u (installPath u) names) := by
  induction names with
  | nil => exact pure trivial
  | cons name rest ih =>
    apply bind (config (.getFontFileByName name) trivial)
    intro findPath hfind
    split
    · exact ih
    · next hne =>
      apply bind (checkPathExist (hfind.resolve_left hne))
      intro found _
      cases found with
      | true => exact pure trivial
      | false =>
        apply bind (config (.deleteFontRecord findPath) trivial)
        intro deleted _
        cases deleted with
        | true => exact ih
        | false => exact pure trivial

theorem copyAndInsertFont (env : Env) (fd : Fd) (names : List Str) (maxInstallNum : Int) :
    Confined home u (fun _ => True)
      (FontManager.copyAndInsertFont env fd u names maxInstallNum) := by
  have htagged := taggedName_tagged env fd
  unfold FontManager.copyAndInsertFont
  rw [installPath_eq]
  apply bind (copyFileForInstall (.user u) env fd)
  intro destPath hdest
  split
  · exact pure trivial
  · next hne =>
    obtain rfl := hdest.resolve_left hne
    apply bind (config (.insertFontRecordIfUnderLimit _ names maxInstallNum) ?_)
    · intro insertRet _
      split
      · apply bind (deleteDir ((Base.user u).name htagged.plain))
        intro _ _
        exact pure trivial
      · exact bind (publishFontUpdate _ _) fun _ _ => pure trivial
    · apply inserted_inside (s := ⟨none, taggedName env (getFileName (getFilePathByFd fd))⟩)
      · exact ⟨htagged, by simp⟩
      · rw [getFileName_dirPath _ htagged.plain.noSlash, sandbox_none]

theorem installFont (env : Env) (fd : Fd) (u : Int) :
    Confined home u (fun _ => True) (FontManager.installFont env fd u) := by
  apply bind (checkAndInitInstallPath u)
  intro ready _
  cases ready with
  | false => exact pure trivial
  | true =>
    simp only [if_true]
    split
    · exact pure trivial
    · apply bind (fixStaleRecords (getFullNamesByFd fd))
      intro fixed _
      cases fixed with
      | some code => exact pure trivial
      | none =>
        apply bind getMaxInstallNum
        intro maxInstallNum _
        apply bind (config .getInstalledFontsNum trivial)
        intro installed _
        split
        · exact pure trivial
        · exact copyAndInsertFont env fd _ maxInstallNum

theorem uninstallFont (name : Str) (u : Int) :
    Confined home u (fun _ => True) (FontManager.uninstallFont name u) := by
  unfold FontManager.uninstallFont
  split
  · exact pure trivial
  · apply bind (config (.getFontRecordByName name) trivial)
    intro found _
    cases found with
    | none => exact pure trivial
    | some record =>
      dsimp only
      split
      · exact pure trivial
      · apply bind (validateAndResolveRealPath record.fontPath)
        intro realPath hreal
        split
        · exact pure trivial
        · apply bind (removeIfExists hreal)
          intro removed _
          cases removed with
          | false => exact pure trivial
          | true =>
            apply bind (config (.deleteFontRecord record.fontPath) trivial)
            intro deleted _
            cases deleted with
            | false => exact pure trivial
            | true => exact bind (publishFontUpdate _ _) fun _ _ => pure trivial

theorem findInstalledName (names : List Str) :
    Confined home u (fun _ => True) (FontManager.findInstalledName u names) := by
  induction names with
  | nil => exact pure trivial
  | cons name rest ih =>
    apply bind (config (.getFontRecordByName name) trivial)
    intro existing _
    cases existing with
    | none => exact ih
    | some record => exact pure trivial

theorem validateScopeFontForInstall (srcPath : Str) (fd : Fd) :
    Confined home u (fun _ => True) (FontManager.validateScopeFontForInstall u srcPath fd) := by
  apply bind (config (.getFontRecordByUrl srcPath) trivial)
  intro record _
  cases record with
  | some record => exact pure trivial
  | none =>
    apply bind getMaxInstallNum
    intro maxInstallNum _
    apply bind (config .getTotalInstalledFontsNum trivial)
    intro installed _
    split
    · exact pure trivial
    · split
      · exact pure trivial
      · apply bind (findInstalledName (getFullNamesByFd fd))
        intro installed _
        cases installed with
        | true => exact pure trivial
        | false => exact pure trivial

theorem copyAndInsertScopeFont (env : Env) (info : ScopeFontInstallInfo) {tokenId : Int}
    (hid : info.appIdentifier = makeAppIdentifier info.scope tokenId) :
    Confined home info.userId (fun _ => True) (FontManager.copyAndInsertScopeFont env info) := by
  have htagged := taggedName_tagged env info.fd
  have hbase : Base info.userId (userDir info.userId ++ [info.appIdentifier]) :=
    .app info.userId (hid ▸ makeAppIdentifier_plain info.scope tokenId)
  unfold FontManager.copyAndInsertScopeFont
  rw [getAppInstallPath_eq]
  apply bind (checkAndInitScopeFontPath hbase)
  intro ready _
  cases ready with
  | false => exact pure trivial
  | true =>
    apply bind (copyFileForInstall hbase env info.fd)
    intro destPath hdest
    split
    · exact pure trivial
    · next hne =>
      obtain rfl := hdest.resolve_left hne
      apply bind (config (.insertScopeFontRecord _) ?_)
      · intro inserted _
        cases inserted with
        | true => exact pure trivial
        | false =>
          apply bind (deleteDir (hbase.name htagged.plain))
          intro _ _
          exact pure trivial
      · apply inserted_inside
          (s := ⟨some info.appIdentifier, taggedName env (getFileName (getFilePathByFd info.fd))⟩)
        · exact ⟨htagged, fun d hd => ⟨info.scope, tokenId, (Option.some.inj hd).symm.trans hid⟩⟩
        · rw [sandbox_some, scopeRecord, getFileName_dirPath _ htagged.plain.noSlash]

theorem installScopeFont (env : Env) (info : ScopeFontInstallInfo) {tokenId : Int}
    (hid : info.appIdentifier = makeAppIdentifier info.scope tokenId) :
    Confined home info.userId (fun _ => True) (FontManager.installScopeFont env info) := by
  unfold FontManager.installScopeFont
  split
  · exact pure trivial
  · apply bind (checkAndInitInstallPath info.userId)
    intro ready _
    cases ready with
    | false => exact pure trivial
    | true =>
      apply bind (config .checkAndUpdateFontRecord trivial)
      intro updated _
      cases updated with
      | false => exact pure trivial
      | true =>
        apply bind (validateScopeFontForInstall info.srcPath info.fd)
        intro ret _
        split
        · exact pure trivial
        · apply bind (copyAndInsertScopeFont env info hid)
          intro ret _
          split
          · exact pure trivial
          · exact bind (publishFontUpdate _ _) fun _ _ => pure trivial

theorem uninstallScopeFont (srcPath bundleName : Str) (tokenId u : Int) :
    Confined home u (fun _ => True)
      (FontManager.uninstallScopeFont srcPath bundleName tokenId u) := by
  unfold FontManager.uninstallScopeFont
  split
  · exact pure trivial
  · apply bind (config (.getFontRecordByUrl srcPath) trivial)
    intro found _
    cases found with
    | none => exact pure trivial
    | some record =>
      dsimp only
      split
      · apply bind (validateAndResolveRealPath record.fontPath)
        intro realPath hreal
        apply bind (removeIfExists hreal)
        intro removed _
        cases removed with
        | false => exact pure trivial
        | true =>
          apply bind (config (.deleteScopeFontRecordByUrl srcPath) trivial)
          intro deleted _
          cases deleted with
          | false => exact pure trivial
          | true => exact bind (publishFontUpdate _ _) fun _ _ => pure trivial
      · exact pure trivial

theorem getFontScope (srcPath bundleName : Str) (tokenId u : Int) :
    Confined home u (fun _ => True) (FontManager.getFontScope srcPath bundleName tokenId u) := by
  apply bind (config (.getFontRecordByUrl srcPath) trivial)
  intro found _
  cases found with
  | none => exact pure trivial
  | some record =>
    dsimp only
    split
    · exact pure trivial
    · exact pure trivial

theorem sweepRecords (records : List FontRecordInfo) :
    Confined home u (fun _ => True) (FontManager.sweepRecords u records) := by
  induction records with
  | nil => exact pure trivial
  | cons record rest ih =>
    apply bind (validateAndResolveRealPath record.fontPath)
    intro realPath hreal
    apply bind (removeIfExists hreal)
    intro _ _
    exact bind (config (.deleteScopeFontRecordByUrl record.srcPath) trivial) fun _ _ => ih

theorem reportRemoved (records : List FontRecordInfo) :
    Confined home u (fun _ => True) (FontManager.reportRemoved u records) := by
  unfold FontManager.reportRemoved
  split
  · exact pure trivial
  · exact publishFontUpdate _ _

theorem cleanupAppScopeFonts (scope tokenId u : Int) :
    Confined home u (fun _ => True)
      (FontManager.cleanupAppScopeFonts (makeAppIdentifier scope tokenId) u) := by
  apply bind (config (.getFontRecordsByAppId _) trivial)
  intro records _
  apply bind (sweepRecords records)
  intro _ _
  apply bind (reportRemoved records)
  intro _ _
  apply bind (deleteDir ?_)
  · intro _ _
    exact pure trivial
  · rw [getAppInstallPath_eq]
    exact (Base.app u (makeAppIdentifier_plain scope tokenId)).dir

theorem cleanupScopeFontsByUser (u : Int) :
    Confined home u (fun _ => True) (FontManager.cleanupScopeFontsByUser u) := by
  apply bind (config .getScopeFontRecords trivial)
  intro records _
  apply bind (sweepRecords records)
  intro _ _
  exact bind (reportRemoved records) fun _ _ => pure trivial

theorem cleanupAppScopeFontsByUser (u : Int) :
    Confined home u (fun _ => True) (FontManager.cleanupAppScopeFontsByUser u) := by
  apply bind (config .getAppScopeFontRecords trivial)
  intro records _
  apply bind (sweepRecords records)
  intro _ _
  exact bind (reportRemoved records) fun _ _ => pure trivial

end calls

section requests

theorem value {u : Int} {p : FontTask FontErrorCode} (h : Confined home u (fun _ => True) p) :
    Confined home u (fun _ => True) (FontManagerServer.value p) := bind h fun _ _ => pure trivial

theorem cleanup (tokenId : Int) :
    Confined home (home tokenId) (fun _ => True)
      (FontClientRegistry.cleanup (makeAppIdentifier fontScopeApp tokenId, home tokenId)) := by
  unfold FontClientRegistry.cleanup
  split
  · exact bind (cleanupAppScopeFonts fontScopeApp tokenId _) fun _ _ => pure trivial
  · exact pure trivial

theorem unregisterClient (tokenId : Int) :
    Confined home (home tokenId) (fun _ => True) (FontClientRegistry.unregisterClient tokenId) := by
  apply perform (o := .registry (.eraseClient tokenId)) rfl
  intro client hclient
  cases client with
  | none => exact pure trivial
  | some client =>
    obtain rfl := hclient client rfl
    exact bind (cleanup tokenId) fun _ _ => pure trivial

theorem onClientDied (tokenId : Int) :
    Confined home (home tokenId) (fun _ => True) (FontClientRegistry.onClientDied tokenId) := by
  apply perform (o := .registry (.eraseClient tokenId)) rfl
  intro client hclient
  cases client with
  | none => exact pure trivial
  | some client =>
    obtain rfl := hclient client rfl
    exact bind (cleanup tokenId) fun _ _ => pure trivial

theorem installRegistered (caller : Caller) (env : Env) (fd : Fd) (scope : Int) (srcPath : Str) :
    Confined home caller.userId (fun _ => True)
      (FontManagerServer.installRegistered caller env fd scope srcPath) := by
  unfold FontManagerServer.installRegistered
  split
  · exact pure trivial
  · have hid : (FontManagerServer.scopeInfo caller fd scope srcPath).appIdentifier =
        makeAppIdentifier scope caller.tokenId := rfl
    exact installScopeFont env (FontManagerServer.scopeInfo caller fd scope srcPath) hid

theorem installScopeFontInner {caller : Caller} (hhome : home caller.tokenId = caller.userId)
    (env : Env) (fd : Fd) (scope : Int) (srcPath : Str) :
    Confined home caller.userId (fun _ => True)
      (FontManagerServer.installScopeFontInner caller env fd scope srcPath) := by
  unfold FontManagerServer.installScopeFontInner
  split
  · exact pure trivial
  · split
    · exact pure trivial
    · split
      · exact pure trivial
      · split
        · apply perform (o := .registry (.isClientRegistered caller.tokenId)) hhome
          intro registered _
          cases registered with
          | false => exact pure trivial
          | true => exact installRegistered caller env fd scope srcPath
        · exact installRegistered caller env fd scope srcPath

end requests

end Confined

end UserIsolation
