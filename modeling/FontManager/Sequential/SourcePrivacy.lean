import FontManager.Concurrent.FontCount
import FontManager.Sequential.UninstallInverse
import FontManager.Store.Truthful

open FontDefine FontManagerUtils FontLocation FontConfig StoreInvariant Interaction KeyedList CJson
  Program

namespace SourcePrivacy

structure Owner where
  bundleName : Str
  tokenId : Int

inductive ScopeCall where
  | install (env : Env) (fd : Fd) (scope : Int)
  | uninstall
  | getScope

def ScopeCall.program (u : Int) (a : Owner) (srcPath : Str) : ScopeCall → FontTask Int
  | install env fd scope => FontManagerServer.value
      (FontManager.installScopeFont env (FontCall.info u fd scope srcPath a.bundleName a.tokenId))
  | uninstall =>
    FontManagerServer.value (FontManager.uninstallScopeFont srcPath a.bundleName a.tokenId u)
  | getScope => FontManager.getFontScope srcPath a.bundleName a.tokenId u

def completes : WriteOutcome → Bool
  | .complete => true
  | _ => false

-- Every file operation of the call succeeds, and a query for a file is answered.
def succeeds (w : World) : Op → Io → Bool
  | .config _ _, io => io.ok && completes io.write
  | .file (.exists _), io => io.ok
  | .file (.createDirectory path), io => (w.createDirectory path io).1
  | .file (.createConfig path), io => completes io.write && (w.createConfig path io).1
  | .file (.copy fd path), io => (w.copy fd path io).1
  | .file (.rename src dest), io => (w.rename src dest io.ok).1
  | .file (.removeAll _), io => io.ok
  | .file (.weaklyCanonical _), io => io.ok
  | .file (.directories _), io => io.ok
  | _, _ => true

abbrev Succeeds (w : World) (o : Op) (io : Io) : Prop := succeeds w o io = true

theorem complete_of_completes {outcome : WriteOutcome} (h : completes outcome = true) :
    outcome = .complete := by
  cases outcome <;> first | rfl | cases h

theorem read_of_succeeds {w : World} {u : Int} {op : ConfigOp} {io : Io}
    (h : Succeeds w (.config u op) io) : io.ok = true := (Bool.and_eq_true_iff.mp h).1

theorem complete_of_succeeds {w : World} {u : Int} {op : ConfigOp} {io : Io}
    (h : Succeeds w (.config u op) io) : io.write = .complete :=
  complete_of_completes (Bool.and_eq_true_iff.mp h).2

theorem succeeds_truthful : Truthful Succeeds := ⟨fun h => h, fun h => Or.inl (complete_of_succeeds h)⟩

section codes

def Named (rs : List Record) (names : List Str) : Prop := ∃ n ∈ names, ∃ r ∈ rs, n ∈ r.fullNames

instance (rs : List Record) (names : List Str) : Decidable (Named rs names) :=
  inferInstanceAs (Decidable (∃ n ∈ names, ∃ r ∈ rs, n ∈ r.fullNames))

def freshCode (rs : List Record) (limit : Int) (fd : Fd) : FontErrorCode :=
  if (rs.length : Int) ≥ limit then .maxFileCount
  else if getFullNamesByFd fd = [] then .fileVerifyFail
  else if Named rs (getFullNamesByFd fd) then .installedAlrady
  else .ok

def validateCode (rs : List Record) (limit : Int) (srcPath : Str) (fd : Fd) : FontErrorCode :=
  if (rs.find? (has Record.urls srcPath)).isSome then .installedAlrady else freshCode rs limit fd

def installCode (rs : List Record) (limit : Int) (srcPath : Str) (fd : Fd) (scope : Int) :
    FontErrorCode :=
  if scope ≠ fontScopeApp ∧ scope ≠ fontScopeSession then .invalidParam
  else validateCode rs limit srcPath fd

def ownsFirst (rs : List Record) (a : Owner) (srcPath : Str) : Bool :=
  (rs.find? (has Record.urls srcPath)).any fun r => FontManager.owns r.info a.bundleName a.tokenId

def uninstallCode (rs : List Record) (a : Owner) (srcPath : Str) : FontErrorCode :=
  if srcPath ≠ [] ∧ ownsFirst rs a srcPath = true then .ok else .scopeFontNotFound

def scopeCode (rs : List Record) (a : Owner) (srcPath : Str) : Int :=
  match rs.find? (has Record.urls srcPath) with
  | none => FontErrorCode.scopeFontNotFound.value
  | some r =>
    if FontManager.owns r.info a.bundleName a.tokenId then r.info.scope
    else FontErrorCode.scopeFontNotFound.value

def code (rs : List Record) (limit : Int) (a : Owner) (srcPath : Str) : ScopeCall → Int
  | .install _ fd scope => (installCode rs limit srcPath fd scope).value
  | .uninstall => (uninstallCode rs a srcPath).value
  | .getScope => scopeCode rs a srcPath

end codes

section paths

theorem hasDotComponent_of_noDot {path : Str} (h : '.' ∉ path) : hasDotComponent path = false := by
  have absent : ∀ needle : Str, '.' ∈ needle → strstr path needle = false := by
    intro needle hdot
    refine List.any_eq_false.mpr fun t ht hpre => h ?_
    exact ((List.mem_tails _ _).mp ht).subset ((List.isPrefixOf_iff_prefix.mp hpre).subset hdot)
  rw [hasDotComponent, absent _ (by decide), absent _ (by decide), Bool.or_false]

theorem installPath_noDot (u : Int) : '.' ∉ installPath u := by
  have hprefix : '.' ∉ installPathPrefix := by decide
  have hsuffix : '.' ∉ installPathSuffix := by decide
  have hdecimal := Text.not_mem_decimal (c := '.') (by decide) (by decide) u
  simp [installPath, hprefix, hsuffix, hdecimal]

theorem appInstallPath_noDot (u scope t : Int) :
    '.' ∉ FontManager.getAppInstallPath u (makeAppIdentifier scope t) := by
  have hid := makeAppIdentifier_free (c := '.') (by decide) (by decide) (by decide) (by decide) scope t
  simp [FontManager.getAppInstallPath, installPath_noDot, hid]

theorem tempFile_noDot {path : Str} (h : '.' ∉ path) : '.' ∉ path ++ tempFile := by
  have htemp : '.' ∉ tempFile := by decide
  simp [h, htemp]

end paths

section rules

variable {u : Int} {w : World} {rs : List Record}

theorem checkOrCreateDir {path : Str} (hp : path ≠ []) (hdot : '.' ∉ path) {Q : Bool → World → Prop}
    (h : ∀ w', Frame (· = locate path) w w' → Q true w') :
    Obeys Succeeds (checkOrCreateDir path) Q w := by
  refine Obeys.bind (Obeys.checkPathExist succeeds_truthful hp ?_)
  cases w.pathExists path with
  | true => exact Obeys.pure (h _ (.refl _ w))
  | false =>
    show Obeys Succeeds (createDirWithPermission path) Q w
    unfold createDirWithPermission
    rw [if_neg (by simp [hp, hasDotComponent_of_noDot hdot])]
    refine Obeys.perform fun io (hio : (w.createDirectory path io).1 = true) => ?_
    change Q (w.createDirectory path io).1 (w.createDirectory path io).2
    rw [hio]
    exact h _ (World.createDirectory_frame w path io)

theorem checkAndInitScopeFontPath {path : Str} (hp : path ≠ []) (hdot : '.' ∉ path)
    {Q : Bool → World → Prop}
    (h : ∀ w', Frame (fun l => l = locate path ∨ l = locate (path ++ tempFile)) w w' → Q true w') :
    Obeys Succeeds (checkAndInitScopeFontPath path) Q w := by
  refine Obeys.bind (checkOrCreateDir hp hdot fun w₁ h₁ => ?_)
  exact checkOrCreateDir (by simp [hp]) (tempFile_noDot hdot) fun w₂ h₂ => h w₂ (h₁.trans h₂)

theorem pathExists_of_shows (hv : View.Shows u (some rs) w) : w.pathExists (configPath u) = true := by
  cases hentry : w.entry (configPath u) with
  | none => simp [View.Shows, World.config, hentry] at hv
  | some e => simp [World.pathExists, hentry]

theorem checkAndInitInstallPath (hv : View.Shows u (some rs) w) {Q : Bool → World → Prop}
    (h : ∀ w', View.Shows u (some rs) w' → w'.maxInstallNum = w.maxInstallNum → Q true w') :
    Obeys Succeeds (checkAndInitInstallPath (installPath u)) Q w := by
  have hp : installPath u ≠ [] := by simp [installPath_eq, dirPath]
  refine Obeys.bind (checkAndInitScopeFontPath hp (installPath_noDot u) fun w₁ h₁ => ?_)
  rw [locate_installPath, installPath_eq, locate_dir_tempFile (userDir_plain u)] at h₁
  have hv₁ := hv.frame h₁ fun hl => hl.elim (configLoc_ne_userDir u) (configLoc_ne_append (by decide))
  refine Obeys.bind (Obeys.checkPathExist succeeds_truthful (by simp [hp]) ?_)
  rw [show w₁.pathExists (installPath u ++ fontConfigFile) = true from pathExists_of_shows hv₁]
  exact Obeys.pure (h w₁ hv₁ h₁.maxInstallNum)

theorem copyFile {fd : Fd} {path : Str} {Q : Bool → World → Prop}
    (h : ∀ w', Frame (· = locate path) w w' → w'.entry path = some (.bytes fd.content) → Q true w') :
    Obeys Succeeds (copyFile fd path) Q w := by
  refine Obeys.perform fun io (hio : (w.copy fd path io).1 = true) => ?_
  change Q (w.copy fd path io).1 (w.copy fd path io).2
  rw [hio]
  exact h _ (World.copy_frame w fd path io) (Ensures.copy_content hio)

theorem renameFile {src dest : Str} {content : List UInt8} (hp : src ≠ [])
    (hsrc : w.entry src = some (.bytes content)) {Q : Bool → World → Prop}
    (h : ∀ w', Frame (FileOp.rename src dest).touches w w' → Q true w') :
    Obeys Succeeds (renameFile src dest) Q w := by
  refine Obeys.bind (Obeys.checkPathExist succeeds_truthful hp ?_)
  rw [show w.pathExists src = true by simp [World.pathExists, hsrc]]
  refine Obeys.perform fun io (hio : (w.rename src dest io.ok).1 = true) => ?_
  change Q (w.rename src dest io.ok).1 (w.rename src dest io.ok).2
  rw [hio]
  exact h _ (World.rename_frame w src dest io.ok)

theorem copyFileForInstall {cs : Loc} (hcs : ∀ c ∈ cs, Plain c) {env : Env} {fileName : Str} {fd : Fd}
    (hname : Plain (FontManager.taggedName env fileName)) {Q : Str → World → Prop}
    (h : ∀ w', Frame (CopyTouches cs (FontManager.taggedName env fileName)) w w' →
      Q (dirPath cs ++ FontManager.taggedName env fileName) w') :
    Obeys Succeeds (FontManager.copyFileForInstall env (dirPath cs) fileName fd) Q w := by
  have htemp := locate_tempFile hcs hname
  have hdest := locate_name hcs hname
  unfold FontManager.copyFileForInstall
  refine Obeys.bind (copyFile fun w₁ h₁ hcontent => ?_)
  rw [htemp] at h₁
  refine Obeys.bind (renameFile (by simp [dirPath]) hcontent fun w₂ h₂ => Obeys.pure (h w₂ ?_))
  have h₂' : Frame (CopyTouches cs (FontManager.taggedName env fileName)) w₁ w₂ :=
    h₂.mono fun l hl => by rwa [FileOp.touches, htemp, hdest] at hl
  exact (h₁.mono fun l hl => Or.inl (hl ▸ List.prefix_rfl)).step h₂'

theorem edit_byUrl (rs : List Record) (srcPath : Str) :
    View.edit (some rs) (.getFontRecordByUrl srcPath) =
      .keep ((rs.find? (has Record.urls srcPath)).map Record.info) :=
  View.edit_getFontRecordByUrl (some rs) srcPath

theorem findInstalledName (hv : View.Shows u (some rs) w) {names : List Str} {Q : Bool → World → Prop}
    (h : ∀ b, (b = true ↔ Named rs names) → Q b w) :
    Obeys Succeeds (FontManager.findInstalledName u names) Q w := by
  induction names with
  | nil => exact Obeys.pure (h _ (by simp [Named]))
  | cons n rest ih =>
    refine Obeys.bind (Obeys.read hv (fun _ hio => read_of_succeeds hio) (View.edit_getFontRecordByName (some rs) n) ?_)
    change Obeys Succeeds (if (RecordStore.findInfo (has Record.fullNames n) rs).isSome = true then
      pure true else FontManager.findInstalledName u rest) Q w
    cases hf : rs.find? (has Record.fullNames n) with
    | some r =>
      obtain ⟨hr, hn⟩ := find_has_some hf
      simp only [RecordStore.findInfo, hf, Option.map_some, Option.isSome_some, if_true]
      exact Obeys.pure (h _ (iff_of_true rfl ⟨n, List.mem_cons_self, r, hr, hn⟩))
    | none =>
      simp only [RecordStore.findInfo, hf, Option.map_none, Option.isSome_none, Bool.false_eq_true,
        if_false]
      refine ih fun b hb => h b (hb.trans ?_)
      constructor
      · rintro ⟨m, hm, hr⟩
        exact ⟨m, List.mem_cons_of_mem _ hm, hr⟩
      · rintro ⟨m, hm, r, hr, hmr⟩
        rcases List.mem_cons.mp hm with rfl | hm
        · exact absurd hmr (find_has_none.mp hf r hr)
        · exact ⟨m, hm, r, hr, hmr⟩

theorem validateScopeFontForInstall (hv : View.Shows u (some rs) w) (srcPath : Str) (fd : Fd)
    {Q : FontErrorCode → World → Prop}
    (h : Q (validateCode rs (FontManagerUtils.getMaxInstallNum w.maxInstallNum) srcPath fd) w) :
    Obeys Succeeds (FontManager.validateScopeFontForInstall u srcPath fd) Q w := by
  unfold validateCode freshCode at h
  refine Obeys.bind (Obeys.read hv (fun _ hio => read_of_succeeds hio) (edit_byUrl rs srcPath) ?_)
  rw [Option.isSome_map]
  split
  · rename_i hused
    rw [if_pos hused] at h
    exact Obeys.pure h
  · rename_i hused
    rw [if_neg hused] at h
    refine Obeys.bind (Obeys.perform fun _ _ => ?_)
    refine Obeys.bind (Obeys.read (w := w) hv (fun _ hio => read_of_succeeds hio) (View.edit_getTotalInstalledFontsNum (some rs)) ?_)
    change Obeys Succeeds
      (if (rs.length : Int) ≥ FontManagerUtils.getMaxInstallNum w.maxInstallNum then _ else _) Q w
    split
    · rename_i hlimit
      rw [if_pos hlimit] at h
      exact Obeys.pure h
    · rename_i hlimit
      rw [if_neg hlimit] at h
      split
      · rename_i hnames
        rw [if_pos hnames] at h
        exact Obeys.pure h
      · rename_i hnames
        rw [if_neg hnames] at h
        refine Obeys.bind (findInstalledName hv fun b hb => ?_)
        cases b with
        | true => exact Obeys.pure (by rwa [if_pos (hb.mp rfl)] at h)
        | false => exact Obeys.pure (by rwa [if_neg fun hn => Bool.false_ne_true (hb.mpr hn)] at h)

theorem step_complete_insert {io : Io} (hread : io.ok = true) (hio : io.write = .complete)
    (record : FontRecordInfo) :
    View.step (some rs) (.insertScopeFontRecord record) io =
      (true, some (rs ++ [Record.ofInfo record])) := by
  simp [View.step, View.edit, RecordStore.edit, View.apply, hread, hio]

theorem copyAndInsertScopeFont {env : Env} {info : ScopeFontInstallInfo}
    (hid : ∃ scope t, info.appIdentifier = makeAppIdentifier scope t)
    (hv : View.Shows info.userId (some rs) w) :
    Obeys Succeeds (FontManager.copyAndInsertScopeFont env info) (fun code _ => code = .ok) w := by
  obtain ⟨scope, t, hid⟩ := hid
  have hslot : (appSlot env info.fd info.appIdentifier).Valid := hid ▸ appSlot_valid env info.fd scope t
  have hdir : ∀ c ∈ userDir info.userId ++ [info.appIdentifier], Plain c := root_plain hslot info.userId
  have hdot : '.' ∉ dirPath (userDir info.userId ++ [info.appIdentifier]) := by
    rw [← getAppInstallPath_eq, hid]
    exact appInstallPath_noDot _ _ _
  have hne : ∀ l, configLoc info.userId ≠ userDir info.userId ++ info.appIdentifier :: l :=
    fun l he => userDir_noPrefix_configLoc (hid ▸ fontConfigFile_ne_app scope t)
      (FileTree.prefix_of_eq he.symm)
  unfold FontManager.copyAndInsertScopeFont
  rw [getAppInstallPath_eq]
  refine Obeys.bind (checkAndInitScopeFontPath (by simp [dirPath]) hdot fun w₁ h₁ => ?_)
  rw [locate_dirPath hdir, locate_dir_tempFile hdir] at h₁
  have hv₁ := hv.frame h₁ (by simpa using ⟨hne [], hne [tempDir]⟩)
  simp only [if_true]
  refine Obeys.bind (copyFileForInstall hdir hslot.tagged.plain fun w₂ h₂ => ?_)
  have hv₂ := hv₁.frame h₂ (configLoc_not_copied hslot)
  rw [if_neg (by simp [dirPath])]
  refine Obeys.bind (Obeys.config hv₂ fun io w₃ hio _ _ => ?_)
  rw [step_complete_insert (read_of_succeeds hio) (complete_of_succeeds hio)]
  exact Obeys.pure rfl

theorem installScopeFont {env : Env} {info : ScopeFontInstallInfo}
    (hid : ∃ scope t, info.appIdentifier = makeAppIdentifier scope t)
    (hv : View.Shows info.userId (some rs) w) :
    Obeys Succeeds (FontManager.installScopeFont env info) (fun code _ => code =
      installCode rs (FontManagerUtils.getMaxInstallNum w.maxInstallNum) info.srcPath info.fd info.scope)
      w := by
  unfold FontManager.installScopeFont installCode
  split
  · exact Obeys.pure rfl
  · refine Obeys.bind (checkAndInitInstallPath hv fun w₁ hv₁ hlimit => ?_)
    simp only [if_true]
    refine Obeys.bind (Obeys.read hv₁ (fun _ hio => read_of_succeeds hio) (View.edit_checkAndUpdateFontRecord (some rs)) ?_)
    refine Obeys.bind (validateScopeFontForInstall hv₁ _ _ ?_)
    rw [hlimit]
    split
    · exact Obeys.pure rfl
    · rename_i hok
      rw [not_not.mp hok]
      refine Obeys.bind ((copyAndInsertScopeFont hid hv₁).mono fun code w₂ hcode => ?_)
      rw [hcode]
      exact Obeys.bind (Obeys.publishFontUpdate fun _ => Obeys.pure rfl)

theorem removeIfExists {path : Str} {l : Loc} (hpath : path = [] ∨ locate path = l)
    {Q : Bool → World → Prop} (h : ∀ w', Frame (l <+: ·) w w' → Q true w') :
    Obeys Succeeds (FontManager.removeIfExists path) Q w := by
  unfold FontManager.removeIfExists
  split
  · exact Obeys.pure (h w (.refl _ w))
  · rename_i hne
    obtain rfl := hpath.resolve_left hne
    refine Obeys.bind (Obeys.checkPathExist succeeds_truthful hne ?_)
    cases hexists : w.pathExists path with
    | false => exact Obeys.pure (h w (.refl _ w))
    | true =>
      refine Obeys.bind (Obeys.checkPathExist succeeds_truthful hne ?_)
      rw [hexists]
      refine Obeys.perform fun io (hio : io.ok = true) => ?_
      have hframe := World.removeAll_frame w path io
      change Q (w.removeAll path io).1 (w.removeAll path io).2
      rw [show (w.removeAll path io).1 = true by simp [World.removeAll, hio]]
      exact h _ hframe

theorem step_complete_delete {srcPath : Str} {r : Record}
    (h : rs.find? (has Record.urls srcPath) = some r) {io : Io} (hread : io.ok = true)
    (hio : io.write = .complete) :
    (View.step (some rs) (.deleteScopeFontRecordByUrl srcPath) io).1 = true := by
  have hany : rs.any (has Record.urls srcPath) = true :=
    List.any_eq_true.mpr ⟨r, List.mem_of_find?_eq_some h, List.find?_some h⟩
  simp [View.step, View.edit, RecordStore.edit, RecordStore.deleteFirst, hany, View.apply, hread, hio]

theorem uninstallScopeFont (hp : View.Placed (some rs)) (hv : View.Shows u (some rs) w) (a : Owner)
    (srcPath : Str) :
    Obeys Succeeds (FontManager.uninstallScopeFont srcPath a.bundleName a.tokenId u)
      (fun code _ => code = uninstallCode rs a srcPath) w := by
  unfold FontManager.uninstallScopeFont uninstallCode ownsFirst
  by_cases hsrc : srcPath = []
  · rw [if_pos hsrc, if_neg (by simp [hsrc])]
    exact Obeys.pure rfl
  · rw [if_neg hsrc]
    refine Obeys.bind (Obeys.read hv (fun _ hio => read_of_succeeds hio) (edit_byUrl rs srcPath) ?_)
    cases hf : rs.find? (has Record.urls srcPath) with
    | none =>
      rw [if_neg (by simp)]
      exact Obeys.pure rfl
    | some r =>
      obtain ⟨s, hs⟩ := hp r (List.mem_of_find?_eq_some hf)
      have hpath : r.info.fontPath = s.sandbox := hs.path
      simp only [Option.map_some, Option.any_some]
      by_cases howns : FontManager.owns r.info a.bundleName a.tokenId = true
      · rw [if_pos howns, if_pos ⟨hsrc, howns⟩, hpath]
        have removed : ∀ path, path = [] ∨ locate path = s.loc u →
            Obeys Succeeds (FontManager.removeIfExists path >>= fun b => if b = true then do
                let deleted : Bool ← FontManager.config u (.deleteScopeFontRecordByUrl srcPath)
                if deleted then do
                  FontManager.publishFontUpdate .uninstall
                    (FontManager.getFormatFullName r.info.fullNames) u
                  pure FontErrorCode.ok
                else pure .systemError
              else pure .uninstallRemoveFail) (fun code _ => code = FontErrorCode.ok) w := by
          intro path hlocate
          refine Obeys.bind (removeIfExists hlocate fun w₁ h₁ => ?_)
          have hv₁ := hv.frame h₁ (configLoc_not_loc hs.valid)
          simp only [if_true]
          refine Obeys.bind (Obeys.config hv₁ fun io w₂ hio _ _ => ?_)
          rw [step_complete_delete hf (read_of_succeeds hio) (complete_of_succeeds hio)]
          exact Obeys.bind (Obeys.publishFontUpdate fun _ => Obeys.pure rfl)
        exact Obeys.bind (Obeys.resolve hs.valid (removed [] (Or.inl rfl))
          (removed _ (Or.inr (locate_joinPath (loc_plain hs.valid u)))))
      · rw [if_neg howns, if_neg fun h => howns h.2]
        exact Obeys.pure rfl

theorem getFontScope (hv : View.Shows u (some rs) w) (a : Owner) (srcPath : Str) :
    Obeys Succeeds (FontManager.getFontScope srcPath a.bundleName a.tokenId u)
      (fun code _ => code = scopeCode rs a srcPath) w := by
  unfold FontManager.getFontScope scopeCode
  refine Obeys.bind (Obeys.read hv (fun _ hio => read_of_succeeds hio) (edit_byUrl rs srcPath) ?_)
  cases rs.find? (has Record.urls srcPath) with
  | none => exact Obeys.pure rfl
  | some r =>
    simp only [Option.map_some]
    split
    · exact Obeys.pure rfl
    · exact Obeys.pure rfl

theorem program_code (hp : View.Placed (some rs)) (hv : View.Shows u (some rs) w) (a : Owner)
    (srcPath : Str) (c : ScopeCall) :
    Obeys Succeeds (c.program u a srcPath) (fun reply _ =>
      reply = code rs (FontManagerUtils.getMaxInstallNum w.maxInstallNum) a srcPath c) w := by
  cases c with
  | install env fd scope =>
    have hinstall := @installScopeFont w rs env
      (FontCall.info u fd scope srcPath a.bundleName a.tokenId) ⟨scope, a.tokenId, rfl⟩ hv
    exact Obeys.bind (hinstall.mono fun reply _ hreply => Obeys.pure (congrArg _ hreply))
  | uninstall =>
    exact Obeys.bind ((uninstallScopeFont hp hv a srcPath).mono fun reply _ hreply =>
      Obeys.pure (congrArg _ hreply))
  | getScope => exact getFontScope hv a srcPath

end rules

def owned (a : Owner) (item : Json) : Bool :=
  FontManager.owns (parseScopeRecord item) a.bundleName a.tokenId

structure Agree (u : Int) (a : Owner) (w₁ w₂ : World) : Prop where
  own : (listed (w₁.config u)).filter (owned a) = (listed (w₂.config u)).filter (owned a)
  count : (listed (w₁.config u)).length = (listed (w₂.config u)).length
  names : ∀ n, (∃ item ∈ listed (w₁.config u), n ∈ fullNamesOf item) ↔
    ∃ item ∈ listed (w₂.config u), n ∈ fullNamesOf item

def Used (u : Int) (srcPath : Str) (w : World) : Prop :=
  ∃ item ∈ listed (w.config u), atUrl srcPath item = true

def LeadsOwn (u : Int) (a : Owner) (srcPath : Str) (w : World) : Prop :=
  ∃ item, (listed (w.config u)).find? (atUrl srcPath) = some item ∧ owned a item = true

def Shielded (u : Int) (a : Owner) (srcPath : Str) (w₁ w₂ : World) : ScopeCall → Prop
  | .install _ fd scope => (scope ≠ fontScopeApp ∧ scope ≠ fontScopeSession) ∨
      (Used u srcPath w₁ ↔ Used u srcPath w₂) ∨
      ((listed (w₁.config u)).length : Int) < FontManagerUtils.getMaxInstallNum w₁.maxInstallNum ∧
        ∃ n ∈ getFullNamesByFd fd, ∃ item ∈ listed (w₁.config u), n ∈ fullNamesOf item
  | .uninstall => srcPath = [] ∨ (LeadsOwn u a srcPath w₁ ↔ LeadsOwn u a srcPath w₂)
  | .getScope => LeadsOwn u a srcPath w₁ ↔ LeadsOwn u a srcPath w₂

section comparison

variable {rs rs₁ rs₂ : List Record} {a : Owner} {srcPath : Str}

theorem named_iff (hnames : ∀ n, (∃ r ∈ rs₁, n ∈ r.fullNames) ↔ ∃ r ∈ rs₂, n ∈ r.fullNames)
    (names : List Str) : Named rs₁ names ↔ Named rs₂ names :=
  exists_congr fun n => and_congr_right fun _ => hnames n

theorem freshCode_installed_iff (limit : Int) (fd : Fd) :
    (freshCode rs limit fd).value = FontErrorCode.installedAlrady.value ↔
      (rs.length : Int) < limit ∧ Named rs (getFullNamesByFd fd) := by
  unfold freshCode
  split
  · rename_i hlimit
    exact iff_of_false (by decide) fun h => absurd h.1 (not_lt.mpr hlimit)
  · rename_i hlimit
    split
    · rename_i hnone
      refine iff_of_false (by decide) fun ⟨_, n, hn, _⟩ => ?_
      rw [hnone] at hn
      cases hn
    · split
      · rename_i hnamed
        exact iff_of_true rfl ⟨not_le.mp hlimit, hnamed⟩
      · rename_i hnamed
        exact iff_of_false (by decide) fun h => hnamed h.2

theorem freshCode_congr (hcount : rs₁.length = rs₂.length)
    (hnames : ∀ n, (∃ r ∈ rs₁, n ∈ r.fullNames) ↔ ∃ r ∈ rs₂, n ∈ r.fullNames) (limit : Int) (fd : Fd) :
    freshCode rs₁ limit fd = freshCode rs₂ limit fd := by
  simp only [freshCode, hcount, named_iff hnames]

theorem installCode_eq_iff (hcount : rs₁.length = rs₂.length)
    (hnames : ∀ n, (∃ r ∈ rs₁, n ∈ r.fullNames) ↔ ∃ r ∈ rs₂, n ∈ r.fullNames) (limit : Int) (fd : Fd)
    (scope : Int) :
    (installCode rs₁ limit srcPath fd scope).value = (installCode rs₂ limit srcPath fd scope).value ↔
      (scope ≠ fontScopeApp ∧ scope ≠ fontScopeSession) ∨
        ((rs₁.find? (has Record.urls srcPath)).isSome = true ↔
          (rs₂.find? (has Record.urls srcPath)).isSome = true) ∨
        (rs₁.length : Int) < limit ∧ Named rs₁ (getFullNamesByFd fd) := by
  have hfresh := freshCode_congr hcount hnames limit fd
  have hinstalled := @freshCode_installed_iff rs₁ limit fd
  unfold installCode
  by_cases hscope : scope ≠ fontScopeApp ∧ scope ≠ fontScopeSession
  · rw [if_pos hscope, if_pos hscope]
    exact iff_of_true rfl (Or.inl hscope)
  · rw [if_neg hscope, if_neg hscope, validateCode, validateCode, ← hfresh, ← hinstalled]
    cases (rs₁.find? (has Record.urls srcPath)).isSome <;>
      cases (rs₂.find? (has Record.urls srcPath)).isSome <;> simp [hscope, eq_comm]

theorem uninstallCode_eq_iff :
    (uninstallCode rs₁ a srcPath).value = (uninstallCode rs₂ a srcPath).value ↔
      srcPath = [] ∨ (ownsFirst rs₁ a srcPath = true ↔ ownsFirst rs₂ a srcPath = true) := by
  unfold uninstallCode
  by_cases hsrc : srcPath = []
  · simp [hsrc]
  · cases ownsFirst rs₁ a srcPath <;> cases ownsFirst rs₂ a srcPath <;>
      simp [hsrc, FontErrorCode.value]

theorem find_filter_of_first {own first : Record → Bool} {r : Record} (h : rs.find? first = some r)
    (hr : own r = true) : (rs.filter own).find? first = some r := by
  induction rs with
  | nil => cases h
  | cons q rest ih =>
    by_cases hq : first q = true
    · obtain rfl : q = r := by simpa [hq] using h
      simp [hr, hq]
    · rw [List.find?_cons_of_neg hq] at h
      rw [List.filter_cons]
      split
      · rw [List.find?_cons_of_neg hq]
        exact ih h
      · exact ih h

theorem scopeCode_own (h : ownsFirst rs a srcPath = true) :
    ∃ r ∈ rs, (rs.filter fun r => FontManager.owns r.info a.bundleName a.tokenId).find?
        (has Record.urls srcPath) = some r ∧ scopeCode rs a srcPath = r.info.scope := by
  unfold ownsFirst at h
  unfold scopeCode
  cases hf : rs.find? (has Record.urls srcPath) with
  | none => simp [hf] at h
  | some r =>
    have howns : FontManager.owns r.info a.bundleName a.tokenId = true := by simpa [hf] using h
    exact ⟨r, List.mem_of_find?_eq_some hf, find_filter_of_first hf howns, if_pos howns⟩

theorem scopeCode_foreign (h : ownsFirst rs a srcPath = false) :
    scopeCode rs a srcPath = FontErrorCode.scopeFontNotFound.value := by
  unfold ownsFirst at h
  unfold scopeCode
  cases hf : rs.find? (has Record.urls srcPath) with
  | none => rfl
  | some r =>
    have howns : FontManager.owns r.info a.bundleName a.tokenId = false := by simpa [hf] using h
    simp [howns]

theorem scope_ne_notFound {r : Record} (h : r.Placed) :
    r.info.scope ≠ FontErrorCode.scopeFontNotFound.value := by
  obtain ⟨s, hs⟩ := h
  have hinfo : r.info.scope = (r.scope.map Record.clamp).getD fontScopeNone := rfl
  rw [hinfo]
  rcases hs.owner with ⟨hscope, -, -⟩ | ⟨scope, t, hkind, hscope, -, -⟩
  · rw [hscope]
    decide
  · rcases hkind with rfl | rfl <;> rw [hscope] <;> decide

theorem scopeCode_eq_iff (hp₁ : View.Placed (some rs₁)) (hp₂ : View.Placed (some rs₂))
    (hown : rs₁.filter (fun r => FontManager.owns r.info a.bundleName a.tokenId) =
      rs₂.filter fun r => FontManager.owns r.info a.bundleName a.tokenId) :
    scopeCode rs₁ a srcPath = scopeCode rs₂ a srcPath ↔
      (ownsFirst rs₁ a srcPath = true ↔ ownsFirst rs₂ a srcPath = true) := by
  cases h₁ : ownsFirst rs₁ a srcPath with
  | true =>
    obtain ⟨r₁, hr₁, hf₁, hcode₁⟩ := scopeCode_own h₁
    cases h₂ : ownsFirst rs₂ a srcPath with
    | true =>
      obtain ⟨r₂, -, hf₂, hcode₂⟩ := scopeCode_own h₂
      rw [hown, hf₂] at hf₁
      obtain rfl := Option.some.inj hf₁
      simp [hcode₁, hcode₂]
    | false => simp [hcode₁, scopeCode_foreign h₂, scope_ne_notFound (hp₁ r₁ hr₁)]
  | false =>
    cases h₂ : ownsFirst rs₂ a srcPath with
    | true =>
      obtain ⟨r₂, hr₂, -, hcode₂⟩ := scopeCode_own h₂
      simp [hcode₂, scopeCode_foreign h₁, (scope_ne_notFound (hp₂ r₂ hr₂)).symm]
    | false => simp [scopeCode_foreign h₁, scopeCode_foreign h₂]

end comparison

section documents

variable {u : Int} {w : World} {rs : List Record} {a : Owner} {srcPath : Str}

theorem owned_item (r : Record) :
    owned a r.item = FontManager.owns r.info a.bundleName a.tokenId := by
  rw [owned, r.parseScopeRecord_item]

theorem own_shows (hv : View.Shows u (some rs) w) : (listed (w.config u)).filter (owned a) =
    (rs.filter fun r => FontManager.owns r.info a.bundleName a.tokenId).map Record.item := by
  have hcomp : owned a ∘ Record.item = fun r => FontManager.owns r.info a.bundleName a.tokenId :=
    funext owned_item
  rw [listed_shows hv, List.filter_map, hcomp]
  rfl

theorem find_shows (hv : View.Shows u (some rs) w) : (listed (w.config u)).find? (atUrl srcPath) =
    (rs.find? (has Record.urls srcPath)).map Record.item := by
  have hcomp : atUrl srcPath ∘ Record.item = has Record.urls srcPath :=
    funext fun r => r.atUrl_item srcPath
  rw [listed_shows hv, List.find?_map, hcomp]
  rfl

theorem used_shows (hv : View.Shows u (some rs) w) :
    Used u srcPath w ↔ (rs.find? (has Record.urls srcPath)).isSome = true := by
  rw [Used, ← Option.isSome_map (f := Record.item), ← find_shows hv, List.find?_isSome]

theorem leadsOwn_shows (hv : View.Shows u (some rs) w) :
    LeadsOwn u a srcPath w ↔ ownsFirst rs a srcPath = true := by
  rw [LeadsOwn, find_shows hv, ownsFirst]
  cases rs.find? (has Record.urls srcPath) with
  | none => simp
  | some r => simp [owned_item]

theorem named_shows (hv : View.Shows u (some rs) w) (n : Str) :
    (∃ item ∈ listed (w.config u), n ∈ fullNamesOf item) ↔ ∃ r ∈ rs, n ∈ r.fullNames := by
  rw [listed_shows hv]
  simp [View.records, Record.fullNamesOf_item]

end documents

theorem code_eq_iff {u : Int} {w₁ w₂ : World} {rs₁ rs₂ : List Record} {a : Owner}
    (hp₁ : View.Placed (some rs₁)) (hp₂ : View.Placed (some rs₂)) (hv₁ : View.Shows u (some rs₁) w₁)
    (hv₂ : View.Shows u (some rs₂) w₂) (hagree : Agree u a w₁ w₂) (srcPath : Str) (c : ScopeCall) :
    code rs₁ (FontManagerUtils.getMaxInstallNum w₁.maxInstallNum) a srcPath c =
        code rs₂ (FontManagerUtils.getMaxInstallNum w₁.maxInstallNum) a srcPath c ↔
      Shielded u a srcPath w₁ w₂ c := by
  have hown := hagree.own
  rw [own_shows hv₁, own_shows hv₂] at hown
  replace hown := List.map_injective_iff.mpr (fun _ _ => Record.item_injective) hown
  have hcount : rs₁.length = rs₂.length := by
    simpa [listed_shows hv₁, listed_shows hv₂, View.records] using hagree.count
  have hnames : ∀ n, (∃ r ∈ rs₁, n ∈ r.fullNames) ↔ ∃ r ∈ rs₂, n ∈ r.fullNames := fun n => by
    rw [← named_shows hv₁, ← named_shows hv₂]
    exact hagree.names n
  cases c with
  | install env fd scope =>
    have hlength : (listed (w₁.config u)).length = rs₁.length := by
      simp [listed_shows hv₁, View.records]
    simp only [code, Shielded, used_shows hv₁, used_shows hv₂, named_shows hv₁, hlength]
    exact installCode_eq_iff hcount hnames _ fd scope
  | uninstall =>
    simp only [code, Shielded, leadsOwn_shows hv₁, leadsOwn_shows hv₂]
    exact uninstallCode_eq_iff
  | getScope =>
    simp only [code, Shielded, leadsOwn_shows hv₁, leadsOwn_shows hv₂]
    exact scopeCode_eq_iff hp₁ hp₂ hown

theorem limit_kept (u : Int) (w : World) (es : List (FontCall × List Io)) :
    ((FontCall.service u).after w es).maxInstallNum = w.maxInstallNum := by
  have step : ∀ (w₁ : World) (e : FontCall × List Io), w₁.maxInstallNum = w.maxInstallNum →
      ((FontCall.service u).complete w₁ e).2.maxInstallNum = w.maxInstallNum := by
    intro w₁ e h₁
    have hkept : Upholds semantics (fun _ _ _ => True)
        (fun w' : World => w'.maxInstallNum = w.maxInstallNum) (e.1.program u) (fun _ _ => True) w₁ :=
      .of_stable (fun w' o io h => (FontCount.exec_maxInstallNum w' o io).trans h) (e.1.program u) h₁
    exact (hkept.run (Along.of_forall (fun _ _ _ _ => trivial) _ _)).1
  exact Service.after_invariant step rfl es

theorem scope_calls_private_iff {u : Int} {w : World} {a : Owner} {srcPath : Str} {c : ScopeCall}
    {es₁ es₂ : List (FontCall × List Io)} {ios₁ ios₂ : List Io} (h : w.config u = some emptyConfig)
    (hread₁ : (((FontCall.service u).after w es₁).config u).isSome = true)
    (hread₂ : (((FontCall.service u).after w es₂).config u).isSome = true)
    (hagree : Agree u a ((FontCall.service u).after w es₁) ((FontCall.service u).after w es₂))
    (hios₁ : Along semantics Succeeds (c.program u a srcPath) ((FontCall.service u).after w es₁) ios₁)
    (hios₂ : Along semantics Succeeds (c.program u a srcPath) ((FontCall.service u).after w es₂) ios₂) :
    ((c.program u a srcPath).run semantics ((FontCall.service u).after w es₁) ios₁).1 =
        ((c.program u a srcPath).run semantics ((FontCall.service u).after w es₂) ios₂).1 ↔
      Shielded u a srcPath ((FontCall.service u).after w es₁) ((FontCall.service u).after w es₂) c := by
  have shown : ∀ es, (((FontCall.service u).after w es).config u).isSome = true →
      ∃ rs, View.Placed (some rs) ∧ View.Shows u (some rs) ((FontCall.service u).after w es) := by
    intro es hread
    obtain ⟨v, hp, -, hv⟩ := UninstallInverse.reachable_userPaths h es
    cases v with
    | none =>
      rw [show ((FontCall.service u).after w es).config u = none from hv] at hread
      cases hread
    | some rs => exact ⟨rs, hp, hv⟩
  obtain ⟨rs₁, hp₁, hv₁⟩ := shown es₁ hread₁
  obtain ⟨rs₂, hp₂, hv₂⟩ := shown es₂ hread₂
  have hcode₁ := ((program_code hp₁ hv₁ a srcPath c).run hios₁).2
  have hcode₂ := ((program_code hp₂ hv₂ a srcPath c).run hios₂).2
  rw [hcode₁, hcode₂, limit_kept u w es₂, ← limit_kept u w es₁]
  exact code_eq_iff hp₁ hp₂ hv₁ hv₂ hagree srcPath c

section sample

def caller : Owner := ⟨"caller".toList, 5⟩

def other : Owner := ⟨"other".toList, 9⟩

def installBy (a : Owner) (n : Nat) (fullName srcPath : String) : FontCall × List Io :=
  (.installScopeFont (Sample.noon n) (Sample.sourceFont fullName.toList 1) fontScopeSession srcPath.toList a.bundleName
    a.tokenId, [])

def recordBy (a : Owner) (n : Nat) (fullName srcPath : String) : Record :=
  Record.ofInfo (installedInfo (Sample.noon n) (FontCall.info 100 (Sample.sourceFont fullName.toList 1) fontScopeSession
    srcPath.toList a.bundleName a.tokenId))

def runBefore (srcPath : String) : List (FontCall × List Io) :=
  [installBy caller 0 "A" "/a", installBy other 1 "B" srcPath]

def recordsBefore (srcPath : String) : List Record :=
  [recordBy caller 0 "A" "/a", recordBy other 1 "B" srcPath]

def before (srcPath : String) : World :=
  (FontCall.service 100).after (.provisioned [100]) (runBefore srcPath)

theorem before_shows :
    View.Shows 100 (some (recordsBefore "/b")) (before "/b") ∧
      View.Shows 100 (some (recordsBefore "/c")) (before "/c") := ⟨rfl, rfl⟩

theorem agree_of_shows {u : Int} {a : Owner} {rs₁ rs₂ : List Record} {w₁ w₂ : World}
    (hv₁ : View.Shows u (some rs₁) w₁) (hv₂ : View.Shows u (some rs₂) w₂)
    (hown : rs₁.filter (fun r => FontManager.owns r.info a.bundleName a.tokenId) =
      rs₂.filter fun r => FontManager.owns r.info a.bundleName a.tokenId)
    (hnames : rs₁.map Record.fullNames = rs₂.map Record.fullNames) : Agree u a w₁ w₂ where
  own := by rw [own_shows hv₁, own_shows hv₂, hown]
  count := by
    have hlength : rs₁.length = rs₂.length := by simpa using congrArg List.length hnames
    simpa [listed_shows hv₁, listed_shows hv₂, View.records] using hlength
  names n := by
    have hmem : ∀ rs : List Record, (∃ r ∈ rs, n ∈ r.fullNames) ↔
        ∃ names ∈ rs.map Record.fullNames, n ∈ names := fun rs => by simp
    rw [named_shows hv₁, named_shows hv₂, hmem, hmem, hnames]

theorem before_agree : Agree 100 caller (before "/c") (before "/b") :=
  agree_of_shows before_shows.2 before_shows.1 (by decide) (by decide)

theorem before_readable : ((before "/c").config 100).isSome = true ∧
    ((before "/b").config 100).isSome = true := by
  rw [show (before "/c").config 100 = _ from before_shows.2,
    show (before "/b").config 100 = _ from before_shows.1]
  exact ⟨rfl, rfl⟩

def nextInstall : ScopeCall := .install (Sample.noon 2) (Sample.sourceFont "C".toList 1) fontScopeSession

theorem other_srcPath_seen :
    ¬ ∀ (u : Int) (w : World) (a : Owner) (srcPath : Str) (c : ScopeCall)
      (es₁ es₂ : List (FontCall × List Io)) (ios₁ ios₂ : List Io), w.config u = some emptyConfig →
      (((FontCall.service u).after w es₁).config u).isSome = true →
      (((FontCall.service u).after w es₂).config u).isSome = true →
      Agree u a ((FontCall.service u).after w es₁) ((FontCall.service u).after w es₂) →
      Along semantics Succeeds (c.program u a srcPath) ((FontCall.service u).after w es₁) ios₁ →
      Along semantics Succeeds (c.program u a srcPath) ((FontCall.service u).after w es₂) ios₂ →
      ((c.program u a srcPath).run semantics ((FontCall.service u).after w es₁) ios₁).1 =
        ((c.program u a srcPath).run semantics ((FontCall.service u).after w es₂) ios₂).1 := by
  intro h
  have hsame := h 100 (.provisioned [100]) caller "/c".toList nextInstall (runBefore "/c")
    (runBefore "/b") [] [] rfl before_readable.1 before_readable.2 before_agree (by decide +kernel)
    (by decide +kernel)
  exact absurd hsame (by decide +kernel)

theorem own_font_private :
    ((ScopeCall.uninstall.program 100 caller "/a".toList).run semantics (before "/c") []).1 =
      ((ScopeCall.uninstall.program 100 caller "/a".toList).run semantics (before "/b") []).1 :=
  (@scope_calls_private_iff 100 (.provisioned [100]) caller "/a".toList .uninstall (runBefore "/c")
    (runBefore "/b") [] [] rfl before_readable.1 before_readable.2 before_agree (by decide +kernel)
    (by decide +kernel)).mpr (Or.inr (iff_of_true ((leadsOwn_shows before_shows.2).mpr (by decide))
      ((leadsOwn_shows before_shows.1).mpr (by decide))))

end sample

end SourcePrivacy
