import FontManager.Concurrent.Permits
import FontManager.Sequential.InstallContract
import FontManager.Sequential.MigrationLoss

open FontDefine FontManagerUtils FontLocation FontConfig Interaction Program CJson

namespace WholeFonts

structure Inside (u : Int) (l : Loc) : Prop where
  below : userDir u <+: l
  proper : l ≠ userDir u
  notTemp : ¬ InTemp u l
  notConfig : l ≠ configLoc u

def Whole (sources : Entry → Prop) (w : World) : Prop :=
  ∀ u l e, Inside u l → w.tree.lookup l = some e → e ≠ .dir → sources e

def Designates (u : Int) (json : Option Json) : Prop :=
  ∀ k ∈ listedKeys json, ∀ path, k.fontPath = some path → Inside u (locate (realPath u path))

def Shared (w₀ w : World) : Prop :=
  ∀ l, publicDir <+: l → w.tree.lookup l = w₀.tree.lookup l ∨ w.tree.lookup l = none

structure Holds (sources : Entry → Prop) (w₀ w : World) : Prop where
  whole : Whole sources w
  records : ∀ u, Designates u (w.config u)
  shared : Shared w₀ w

section places

variable {u v : Int} {l : Loc}

theorem Inside.user_of_temp (h : Inside u l) (ht : InTemp v l) : False := by
  have hv : userDir v <+: l := by
    rcases ht with ht | ⟨scope, t, ht⟩
    · exact (List.prefix_append _ _).trans ht
    · exact (List.prefix_append _ _).trans ht
  obtain rfl := userDir_unique h.below hv
  exact h.notTemp ht

theorem Inside.not_configLoc (h : Inside u l) : l ≠ configLoc v := by
  rintro rfl
  obtain rfl := userDir_unique h.below (configLoc_below v)
  exact h.notConfig rfl

theorem inside_loc {s : Slot} (hs : s.Valid) : Inside u (s.loc u) where
  below := List.prefix_append _ _
  proper h := by simpa [Slot.loc, Slot.sub] using congrArg List.length h
  notTemp := loc_not_temp hs List.prefix_rfl
  notConfig := loc_not_config hs List.prefix_rfl

theorem temp_not_shared (h : InTemp u l) : ¬ publicDir <+: l := by
  rcases h with h | ⟨scope, t, h⟩
  · exact Migration.not_shared_of_below ((List.prefix_append _ _).trans h)
  · exact Migration.not_shared_of_below ((List.prefix_append _ _).trans h)

theorem temp_not_config (h : InTemp u l) : l ≠ configLoc v := by
  rintro rfl
  rcases h with h | ⟨scope, t, h⟩
  · obtain rfl := userDir_unique ((List.prefix_append _ _).trans h) (configLoc_below v)
    exact userDir_noPrefix_configLoc (by decide) h
  · obtain rfl := userDir_unique ((List.prefix_append _ _).trans h) (configLoc_below v)
    exact userDir_noPrefix_configLoc (fontConfigFile_ne_app scope t) h

end places

section steps

variable {sources : Entry → Prop} {w₀ w w' : World}

theorem designates_nil {u : Int} {json : Option Json} (h : listed json = []) : Designates u json :=
  fun k hk => by simp [listedKeys, h] at hk

theorem Holds.put (h : Holds sources w₀ w) {path : Str} {e : Entry}
    (hshared : ¬ publicDir <+: locate path)
    (hwhole : ∀ u, Inside u (locate path) → e ≠ .dir → sources e)
    (hrecords : ∀ u json, locate path = configLoc u → e = .document json → Designates u (some json)) :
    Holds sources w₀ (w.put path e) where
  whole u l e' hl hlookup he' := by
    by_cases hpath : locate path = l
    · subst hpath
      obtain rfl : e = e' := by simpa [World.put] using hlookup
      exact hwhole u hl he'
    · rw [World.put, FileTree.lookup_put_ne hpath] at hlookup
      exact h.whole u l e' hl hlookup he'
  records u := by
    rw [World.config_put]
    split
    · rename_i hpath
      cases e with
      | document json => exact hrecords u json hpath rfl
      | _ => exact designates_nil rfl
    · exact h.records u
  shared l hl := by
    have hne : locate path ≠ l := fun he => hshared (he ▸ hl)
    rw [World.put, FileTree.lookup_put_ne hne]
    exact h.shared l hl

theorem Holds.shrinks (h : Holds sources w₀ w) (hs : Migration.Shrinks w w') : Holds sources w₀ w' where
  whole u l e hl hlookup he := by
    rcases hs l with hsame | hgone
    · exact h.whole u l e hl (hsame ▸ hlookup) he
    · rw [hgone] at hlookup
      cases hlookup
  records u := by
    rcases hs (configLoc u) with hsame | hgone
    · rw [World.config_congr hsame]
      exact h.records u
    · refine designates_nil ?_
      rw [World.config_eq_match, hgone]
      rfl
  shared l hl := by
    rcases hs l with hsame | hgone
    · rw [hsame]
      exact h.shared l hl
    · exact Or.inr hgone

theorem Holds.same (h : Holds sources w₀ w) (hw : w'.tree = w.tree) : Holds sources w₀ w' :=
  h.shrinks fun l => Or.inl (by rw [hw])

theorem Holds.put_temp (h : Holds sources w₀ w) {u : Int} {path : Str} {e : Entry}
    (hpath : InTemp u (locate path)) : Holds sources w₀ (w.put path e) :=
  h.put (temp_not_shared hpath) (fun _ hl _ => (hl.user_of_temp hpath).elim) fun _ _ hc _ =>
    absurd hc (temp_not_config hpath)

theorem Holds.put_config (h : Holds sources w₀ w) {u : Int} {e : Entry}
    (he : ∀ json, e = .document json → Designates u (some json)) :
    Holds sources w₀ (w.put (configPath u) e) := by
  have hloc := locate_configPath u
  refine h.put ?_ (fun v hl _ => ?_) fun v json hc hjson => ?_
  · rw [hloc]
    exact Migration.not_shared_of_below (configLoc_below u)
  · rw [hloc] at hl
    exact (hl.not_configLoc rfl).elim
  · rw [hloc] at hc
    obtain rfl := configLoc_injective hc
    exact he json hjson

-- What an operation may do to a place where fonts are found; a rename is followed with its copy.
def tame : Op → Prop
  | .config u (.insertFontRecordIfUnderLimit path _ _) => Inside u (locate (realPath u (Text.cStr path)))
  | .config u (.insertScopeFontRecord record) =>
    Inside u (locate (realPath u (Text.cStr record.fontPath)))
  | .config _ (.insertFontRecord _ _) => False
  | .file (.createDirectory path) => ¬ publicDir <+: locate path
  | .file (.createConfig path) => ∃ u, path = configPath u
  | .file (.copy _ path) => ∃ u, InTemp u (locate path)
  | .file (.rename _ _) => False
  | _ => True

theorem fontPath_inserted {item : Json} {path p : Str} (hitem : stringItem item fontPath = some path)
    (h : (keyOf item).fontPath = some p) : p = path :=
  Option.some.inj (h.symm.trans hitem)

theorem designates_expected {u : Int} {op : ConfigOp} {keys : List RecordKey} (hop : tame (.config u op))
    (h : ∀ k ∈ keys, ∀ path, k.fontPath = some path → Inside u (locate (realPath u path))) :
    ∀ k ∈ op.expected keys, ∀ path, k.fontPath = some path → Inside u (locate (realPath u path)) := by
  intro k hk path hpath
  cases op with
  | insertFontRecord p names => exact hop.elim
  | insertFontRecordIfUnderLimit p names limit =>
    simp only [ConfigOp.expected, ConfigOp.insertKey] at hk
    split at hk
    · exact h k hk path hpath
    · rcases List.mem_append.mp hk with hk | hk
      · exact h k hk path hpath
      · obtain rfl := List.mem_singleton.mp hk
        rw [Record.constructCJSON_eq] at hpath
        obtain rfl := fontPath_inserted (Record.stringItem_fontPath _) hpath
        exact hop
  | insertScopeFontRecord record =>
    rcases List.mem_append.mp hk with hk | hk
    · exact h k hk path hpath
    · obtain rfl := List.mem_singleton.mp hk
      rw [Record.constructScopeCJSON_eq] at hpath
      obtain rfl := fontPath_inserted (Record.stringItem_fontPath _) hpath
      exact hop
  | deleteFontRecord p => exact h k (List.mem_of_mem_eraseP hk) path hpath
  | deleteScopeFontRecordByUrl srcPath => exact h k (List.mem_of_mem_eraseP hk) path hpath
  | deleteScopeFontRecordByAppId id => exact h k (List.mem_of_mem_filter hk) path hpath
  | _ => exact h k hk path hpath

theorem Holds.execConfig (h : Holds sources w₀ w) {u : Int} {op : ConfigOp} (hop : tame (.config u op))
    (io : Io) : Holds sources w₀ (w.execConfig u op io).2 := by
  cases hread : io.ok with
  | false =>
    rw [World.execConfig_unreadable hread]
    exact h
  | true => ?_
  rw [World.execConfig_readable hread]
  cases hedit : op.edit io.fullNames (configPath u) (w.config u) with
  | keep reply => exact h
  | write json done failed =>
    have hdesignates : Designates u (some json) := by
      unfold Designates
      rw [(Mutation.of_edit hedit).listedKeys_eq]
      split
      · exact designates_expected hop (h.records u)
      · exact fun k hk => by cases hk
    simp only [World.applyEdit, World.writeFile]
    cases io.write with
    | complete => exact h.put_config fun j hj => by cases hj; exact hdesignates
    | openFails => exact h
    | short left => exact h.put_config fun j hj => by cases hj
    | lost left => exact h.put_config fun j hj => by cases hj

theorem Holds.createDirectory (h : Holds sources w₀ w) {path : Str} (hpath : ¬ publicDir <+: locate path)
    (io : Io) : Holds sources w₀ (w.createDirectory path io).2 := by
  unfold World.createDirectory
  split
  · exact h
  · split
    · exact h
    · exact h
    · split
      · exact h.put hpath (fun _ _ hdir => absurd rfl hdir) fun _ _ _ hjson => by cases hjson
      · exact h

theorem Holds.createConfig (h : Holds sources w₀ w) (u : Int) (io : Io) :
    Holds sources w₀ (w.createConfig (configPath u) io).2 := by
  unfold World.createConfig
  split
  · exact h
  · split
    · refine h.put_config fun json hjson => ?_
      obtain rfl := Entry.document.inj hjson
      exact designates_nil rfl
    · exact h
    · exact h.put_config fun json hjson => by cases hjson
    · exact h.put_config fun json hjson => by cases hjson

theorem Holds.copy (h : Holds sources w₀ w) {u : Int} {path : Str} (hpath : InTemp u (locate path))
    (fd : Fd) (io : Io) : Holds sources w₀ (w.copy fd path io).2 := by
  unfold World.copy
  split
  · exact h
  · split
    · exact h.put_temp hpath
    · exact h.put_temp hpath

theorem Holds.exec (h : Holds sources w₀ w) {o : Op} (ho : tame o) (io : Io) :
    Holds sources w₀ (w.exec o io).2 := by
  cases o with
  | config u op => exact h.execConfig ho io
  | file op =>
    cases op with
    | createDirectory path => exact h.createDirectory ho io
    | createConfig path =>
      obtain ⟨u, rfl⟩ := ho
      exact h.createConfig u io
    | copy fd path =>
      obtain ⟨u, hpath⟩ := ho
      exact h.copy hpath fd io
    | rename src dest => exact ho.elim
    | removeAll path => exact h.shrinks (Migration.removeAll_shrinks w path io)
    | _ => exact h
  | registry op => cases op <;> exact h.same rfl
  | _ => exact h.same rfl

end steps

section installs

variable {α β : Type} {sources : Entry → Prop} {w₀ w : World} {u : Int}

abbrev Safe (sources : Entry → Prop) (w₀ : World) (p : FontTask α) (Q : α → World → Prop) (w : World) :
    Prop := Upholds semantics (fun _ _ _ => True) (Holds sources w₀) p Q w

abbrev Tame (p : FontTask α) : Prop := always (P := sig) (fun _ _ => True) tame p

theorem safe_of_tame {p : FontTask α} (hp : Tame p) (hw : Holds sources w₀ w) :
    Safe sources w₀ p (fun _ _ => True) w :=
  .of_always (fun _ _ io ho h => h.exec ho io) hp hw

theorem safe_bind {p : FontTask α} {k : α → FontTask β} {Q : β → World → Prop} (hp : Tame p)
    (hw : Holds sources w₀ w) (h : ∀ a w, Holds sources w₀ w → Safe sources w₀ (k a) Q w) :
    Safe sources w₀ (p >>= k) Q w :=
  .bind ((safe_of_tame hp hw).mono (fun _ hw => hw) fun a w hw _ => h a w hw)

theorem tame_routine (u : Int) : RoutinePermits (fun _ _ => True) tame u where
  removal op hop := by cases op <;> trivial
  config op hop := by cases op <;> trivial
  limit := trivial
  publish _ := trivial

theorem tame_checkOrCreateDir {path : Str} (h : ¬ publicDir <+: locate path) :
    Tame (checkOrCreateDir path) := by
  refine always_bind ((tame_routine 0).removalTask _ rfl) fun b => ?_
  cases b with
  | true => exact always_pure _
  | false =>
    change Tame (createDirWithPermission path)
    unfold createDirWithPermission
    split
    · exact always_pure _
    · exact always_perform h

theorem tame_checkAndInitScopeFontPath {cs : Loc} (hcs : ∀ c ∈ cs, Plain c) (hu : userDir u <+: cs) :
    Tame (checkAndInitScopeFontPath (dirPath cs)) := by
  refine always_bind (tame_checkOrCreateDir ?_) fun b => ?_
  · rw [locate_dirPath hcs]
    exact Migration.not_shared_of_below hu
  · cases b with
    | false => exact always_pure _
    | true =>
      refine tame_checkOrCreateDir ?_
      rw [locate_dir_tempFile hcs]
      exact Migration.not_shared_of_below (hu.trans (List.prefix_append _ _))

theorem tame_checkAndInitInstallPath (u : Int) : Tame (checkAndInitInstallPath (installPath u)) := by
  have hscope := tame_checkAndInitScopeFontPath (userDir_plain u) List.prefix_rfl
  rw [← installPath_eq] at hscope
  refine always_bind hscope fun b => ?_
  cases b with
  | false => exact always_pure _
  | true =>
    refine always_bind ((tame_routine u).removalTask _ rfl) fun b => ?_
    cases b with
    | true => exact always_pure _
    | false =>
      change Tame (createFileWithPermission (configPath u))
      unfold createFileWithPermission
      split
      · exact always_pure _
      · exact always_perform ⟨u, rfl⟩

theorem safe_copyFile {fd : Fd} {path : Str} {k : Bool → FontTask β} {Q : β → World → Prop}
    (hpath : InTemp u (locate path)) (hw : Holds sources w₀ w)
    (h : ∀ b w, Holds sources w₀ w → (b = true → w.entry path = some (.bytes fd.content)) →
      Safe sources w₀ (k b) Q w) : Safe sources w₀ (copyFile fd path >>= k) Q w :=
  ⟨hw, fun io _ => h _ _ (hw.copy hpath fd io) Ensures.copy_content⟩

theorem Holds.rename (h : Holds sources w₀ w) {src dest : Str} {content : List UInt8}
    (hsrc : w.entry src = some (.bytes content)) (hdest : Inside u (locate dest))
    (hcontent : sources (.bytes content)) (ok : Bool) : Holds sources w₀ (w.rename src dest ok).2 := by
  unfold World.rename
  rw [hsrc]
  dsimp only
  split
  · have hpruned : Holds sources w₀ { w with tree := w.tree.prune (locate src) } := by
      refine h.shrinks fun l => ?_
      rw [FileTree.lookup_prune]
      split <;> simp
    exact hpruned.put (Migration.not_shared_of_below hdest.below) (fun _ _ _ => hcontent)
      fun _ _ _ he => by cases he
  · exact h

theorem safe_renameFile {src dest : Str} {content : List UInt8} {k : Bool → FontTask β}
    {Q : β → World → Prop} (hw : Holds sources w₀ w) (hsrc : w.entry src = some (.bytes content))
    (hdest : Inside u (locate dest)) (hcontent : sources (.bytes content))
    (h : ∀ b w, Holds sources w₀ w → Safe sources w₀ (k b) Q w) :
    Safe sources w₀ (renameFile src dest >>= k) Q w := by
  refine ⟨hw, fun io _ => ?_⟩
  change Safe sources w₀ ((if (w.execFile io (.exists src)).1 = true then
    FontManagerUtils.rename src dest else pure false) >>= k) Q w
  split
  · exact ⟨hw, fun io _ => h _ _ (hw.rename hsrc hdest hcontent io.ok)⟩
  · exact h _ _ hw

theorem safe_copyFileForInstall {s : Slot} (hs : s.Valid) {env : Env} {fd : Fd} {fileName : Str}
    (hname : s.name = FontManager.taggedName env fileName) (hfd : sources (.bytes fd.content))
    (hw : Holds sources w₀ w) :
    Safe sources w₀
      (FontManager.copyFileForInstall env (dirPath (userDir u ++ s.dir.toList)) fileName fd)
      (fun path _ => path = [] ∨ path = dirPath (userDir u ++ s.dir.toList) ++ s.name) w := by
  have hroot := root_plain hs u
  have htemp := locate_tempFile hroot hs.tagged.plain
  have hdest : locate (dirPath (userDir u ++ s.dir.toList) ++ s.name) = s.loc u := by
    rw [locate_name hroot hs.tagged.plain, Slot.loc, Slot.sub, List.append_assoc]
  unfold FontManager.copyFileForInstall
  rw [← hname]
  refine safe_copyFile (htemp ▸ temp_inTemp hs List.prefix_rfl) hw fun b w hw hcopied => ?_
  cases b with
  | false => exact .pure hw (Or.inl rfl)
  | true =>
    refine safe_renameFile hw (hcopied rfl) (hdest ▸ inside_loc hs) hfd fun b w hw => ?_
    cases b with
    | true => exact .pure hw (Or.inr rfl)
    | false =>
      exact safe_bind ((tame_routine u).removeFile _) hw fun _ w hw => .pure hw (Or.inl rfl)

theorem inside_sandbox {s : Slot} (hs : s.Valid) :
    Inside u (locate (realPath u (Text.cStr s.sandbox))) := by
  rw [Text.cStr_of_nulFree (sandbox_nulFree hs), locate_realPath hs]
  exact inside_loc hs

theorem safe_copyAndInsertFont {env : Env} {fd : Fd} (hfd : sources (.bytes fd.content))
    {names : List Str} {limit : Int} (hw : Holds sources w₀ w) :
    Safe sources w₀ (FontManager.copyAndInsertFont env fd u names limit) (fun _ _ => True) w := by
  have hs := userSlot_valid env fd
  have hcopy := @safe_copyFileForInstall sources w₀ w u _ hs env fd _ rfl hfd hw
  have hroot : userDir u ++ (userSlot env fd).dir.toList = userDir u := List.append_nil _
  rw [hroot, ← installPath_eq] at hcopy
  refine .bind (hcopy.mono (fun _ h => h) fun path w hw hpath => ?_)
  split
  · exact .pure hw trivial
  · rename_i hne
    obtain rfl := hpath.resolve_left hne
    have hsandbox : installPathApp ++ getFileName (installPath u ++ (userSlot env fd).name) =
        (userSlot env fd).sandbox := by
      rw [installPath_eq, getFileName_dirPath _ hs.tagged.plain.noSlash, userSlot, sandbox_none]
    rw [hsandbox]
    refine safe_of_tame (always_perform_bind (inside_sandbox hs) fun ret _ => ?_) hw
    split
    · exact always_bind ((tame_routine u).deleteDir _) fun _ => always_pure _
    · exact always_bind ((tame_routine u).publishFontUpdate _ _) fun _ => always_pure _

theorem safe_installFont {env : Env} {fd : Fd} (hfd : sources (.bytes fd.content))
    (hw : Holds sources w₀ w) :
    Safe sources w₀ (FontManager.installFont env fd u) (fun _ _ => True) w := by
  refine safe_bind (tame_checkAndInitInstallPath u) hw fun b w hw => ?_
  cases b with
  | false => exact .pure hw trivial
  | true =>
    simp only [if_true]
    split
    · exact .pure hw trivial
    · refine safe_bind ((tame_routine u).fixStaleRecords (fun _ => trivial) _ _) hw fun fixed w hw => ?_
      cases fixed with
      | some code => exact .pure hw trivial
      | none =>
        refine safe_bind (always_perform trivial) hw fun limit w hw => ?_
        refine safe_bind ((tame_routine u).configTask _ rfl) hw fun installed w hw => ?_
        split
        · exact .pure hw trivial
        · exact safe_copyAndInsertFont hfd hw

theorem safe_copyAndInsertScopeFont {env : Env} {info : ScopeFontInstallInfo}
    (hid : ∃ scope t, info.appIdentifier = makeAppIdentifier scope t)
    (hfd : sources (.bytes info.fd.content)) (hw : Holds sources w₀ w) :
    Safe sources w₀ (FontManager.copyAndInsertScopeFont env info) (fun _ _ => True) w := by
  obtain ⟨scope, t, hid⟩ := hid
  have hs : (appSlot env info.fd info.appIdentifier).Valid := hid ▸ appSlot_valid env info.fd scope t
  have hplain : ∀ c ∈ userDir info.userId ++ [info.appIdentifier], Plain c := root_plain hs info.userId
  unfold FontManager.copyAndInsertScopeFont
  rw [getAppInstallPath_eq]
  have hdirs := tame_checkAndInitScopeFontPath hplain (List.prefix_append (userDir info.userId) _)
  refine safe_bind hdirs hw fun b w hw => ?_
  cases b with
  | false => exact .pure hw trivial
  | true =>
    have hcopy := @safe_copyFileForInstall sources w₀ w info.userId _ hs env info.fd _ rfl hfd hw
    refine .bind (hcopy.mono (fun _ h => h) fun path w hw hpath => ?_)
    split
    · exact .pure hw trivial
    · rename_i hne
      obtain rfl := hpath.resolve_left hne
      have hrecord : (FontManager.scopeRecord info
          (dirPath (userDir info.userId ++ [info.appIdentifier]) ++
            (appSlot env info.fd info.appIdentifier).name)).fontPath =
          (appSlot env info.fd info.appIdentifier).sandbox := by
        rw [FontManager.scopeRecord, getFileName_dirPath _ hs.tagged.plain.noSlash, ← sandbox_some]
        rfl
      have hinsert : tame (.config info.userId (.insertScopeFontRecord (FontManager.scopeRecord info
          (dirPath (userDir info.userId ++ [info.appIdentifier]) ++
            (appSlot env info.fd info.appIdentifier).name)))) := by
        rw [tame, hrecord]
        exact inside_sandbox hs
      refine safe_of_tame (always_perform_bind hinsert fun inserted _ => ?_) hw
      split
      · exact always_pure _
      · exact always_bind ((tame_routine 0).deleteDir _) fun _ => always_pure _

theorem safe_installScopeFont {env : Env} {info : ScopeFontInstallInfo}
    (hid : ∃ scope t, info.appIdentifier = makeAppIdentifier scope t)
    (hfd : sources (.bytes info.fd.content)) (hw : Holds sources w₀ w) :
    Safe sources w₀ (FontManager.installScopeFont env info) (fun _ _ => True) w := by
  have hroutine := tame_routine info.userId
  unfold FontManager.installScopeFont
  split
  · exact .pure hw trivial
  · refine safe_bind (tame_checkAndInitInstallPath _) hw fun b w hw => ?_
    cases b with
    | false => exact .pure hw trivial
    | true =>
      refine safe_bind (hroutine.configTask _ rfl) hw fun updated w hw => ?_
      cases updated with
      | false => exact .pure hw trivial
      | true =>
        refine safe_bind (hroutine.toQuery.validateScopeFontForInstall _ _) hw fun ret w hw => ?_
        split
        · exact .pure hw trivial
        · refine .bind ((safe_copyAndInsertScopeFont hid hfd hw).mono (fun _ h => h)
            fun ret w hw _ => ?_)
          split
          · exact .pure hw trivial
          · exact safe_bind (hroutine.publishFontUpdate _ _) hw fun _ w hw => .pure hw trivial

theorem safe_call (u : Int) (c : FontCall) (hfd : ∀ fd ∈ c.source, sources (.bytes fd.content))
    (hw : Holds sources w₀ w) : Safe sources w₀ (c.program u) (fun _ _ => True) w := by
  have hroutine := tame_routine u
  cases c with
  | installFont env fd => exact safe_installFont (hfd fd rfl) hw
  | installScopeFont env fd scope srcPath bundleName t =>
    exact safe_installScopeFont ⟨scope, t, rfl⟩ (hfd fd rfl) hw
  | uninstallFont name => exact safe_of_tame (hroutine.uninstallFont (fun _ => trivial) name) hw
  | uninstallScopeFont srcPath bundleName t =>
    exact safe_of_tame (hroutine.uninstallScopeFont srcPath bundleName t) hw
  | cleanupAppScopeFonts scope t => exact safe_of_tame (hroutine.cleanupAppScopeFonts _) hw
  | cleanupScopeFontsByUser => exact safe_of_tame hroutine.cleanupScopeFontsByUser hw
  | cleanupAppScopeFontsByUser => exact safe_of_tame hroutine.cleanupAppScopeFontsByUser hw

end installs

section processes

variable {C α β : Type} {sources : Entry → Prop} {w₀ : World} {s : Process C}

abbrev Kept (sources : Entry → Prop) (w₀ : World) (p : ProcessTask C α) (Q : α → Process C → Prop)
    (s : Process C) : Prop :=
  Upholds (processSemantics C) (fun _ _ _ => True) (fun s => Holds sources w₀ s.world) p Q s

def gentle : ProcessOp C → Prop
  | .font o => tame o
  | .copyFile _ _ => False
  | .renameFile _ _ => False
  | _ => True

abbrev Gentle (p : ProcessTask C α) : Prop := always (P := processSig C) (fun _ _ => True) gentle p

theorem Holds.execProcess (h : Holds sources w₀ s.world) {o : ProcessOp C} (ho : gentle o) (io : Io) :
    Holds sources w₀ (s.exec o io).2.world := by
  cases o with
  | font o => exact h.exec ho io
  | copyFile source path => exact ho.elim
  | renameFile src dest => exact ho.elim
  | removeEmpty path =>
    change Holds sources w₀ (s.world.removeEmpty path io.ok).2
    unfold World.removeEmpty
    split
    · refine h.shrinks fun l => ?_
      rw [FileTree.lookup_prune]
      split <;> simp
    · exact h
  | postTask task =>
    simp only [Process.exec]
    split <;> exact h
  | _ => exact h

theorem kept_of_gentle {p : ProcessTask C α} (hp : Gentle p) (hs : Holds sources w₀ s.world) :
    Kept sources w₀ p (fun _ _ => True) s :=
  .of_always (fun _ _ io ho h => h.execProcess ho io) hp hs

theorem kept_bind {p : ProcessTask C α} {k : α → ProcessTask C β} {R : α → Process C → Prop}
    {Q : β → Process C → Prop} (hp : Kept sources w₀ p R s)
    (h : ∀ a s, Holds sources w₀ s.world → Kept sources w₀ (k a) Q s) :
    Kept sources w₀ (p >>= k) Q s :=
  .bind (hp.mono (fun _ hs => hs) fun a s hs _ => h a s hs)

theorem kept_then {p : ProcessTask C α} {k : α → ProcessTask C β} {Q : β → Process C → Prop}
    (hp : Gentle p) (hs : Holds sources w₀ s.world)
    (h : ∀ a s, Holds sources w₀ s.world → Kept sources w₀ (k a) Q s) :
    Kept sources w₀ (p >>= k) Q s := kept_bind (kept_of_gentle hp hs) h

theorem kept_font {p : FontTask α} {Q : α → World → Prop} (h : Safe sources w₀ p Q s.world) :
    Kept sources w₀ (font p) (fun a s => Q a s.world) s := by
  induction p generalizing s with
  | done a => exact h
  | call o k ih => exact ⟨h.1, fun io _ => ih _ (h.2 io trivial)⟩

theorem gentle_font {p : FontTask α} (h : Tame p) : Gentle (C := C) (font p) := by
  induction p with
  | done a => trivial
  | call o k ih => exact ⟨h.1, fun r _ => ih r (h.2 r trivial)⟩

theorem gentle_eventData (request : Nat) (event : EventData) :
    Gentle (C := C) (DataMigrationManager.refreshEventData request event) := by
  refine always_perform_bind trivial fun callback _ => ?_
  cases callback with
  | none => exact always_pure _
  | some callback => exact always_perform trivial

theorem gentle_checkAllUserDir (users : List Int) :
    Gentle (C := C) (DataMigrationManager.checkAllUserDir users) := by
  induction users with
  | nil => exact always_pure _
  | cons u users ih =>
    refine always_bind (gentle_font ((tame_routine u).removalTask _ rfl)) fun b => ?_
    cases b with
    | true => exact ih
    | false => exact always_pure _

theorem gentle_initDataMigrationTempDir (users : List Int) :
    Gentle (C := C) (DataMigrationManager.initDataMigrationTempDir users) := by
  induction users with
  | nil => exact always_pure _
  | cons u users ih =>
    refine always_bind (gentle_font (tame_checkOrCreateDir ?_)) fun b => ?_
    · rw [Migration.userPath_eq, locate_dir_tempFile (userDir_plain u)]
      exact Migration.not_shared_of_below (List.prefix_append _ _)
    · cases b with
      | true => exact ih
      | false => exact always_pure _

theorem gentle_initDataMigrationEnv : Gentle (C := C) DataMigrationManager.initDataMigrationEnv := by
  refine always_bind (gentle_font (always_perform trivial)) fun users => ?_
  split
  · exact always_pure _
  · refine always_bind ?_ fun ret => always_pure _
    refine always_bind (gentle_font ((tame_routine 0).deleteDir _)) fun _ => ?_
    refine always_perform_bind trivial fun empty _ => ?_
    split
    · exact always_pure _
    · refine always_bind (gentle_checkAllUserDir users) fun b => ?_
      cases b with
      | false => exact always_pure _
      | true =>
        refine always_bind (gentle_initDataMigrationTempDir users) fun b => ?_
        cases b <;> exact always_pure _

theorem gentle_checkAndUpdateAllFontRecord (users : List Int) :
    Gentle (C := C) (DataMigrationManager.checkAndUpdateAllFontRecord users) := by
  induction users with
  | nil => exact always_pure _
  | cons u users ih =>
    exact always_bind (gentle_font ((tame_routine u).configTask _ rfl)) fun _ => ih

theorem gentle_finish (request : Nat) (ret : DataMigrationResultCode) :
    Gentle (C := C) (DataMigrationManager.finish request ret) := by
  refine always_perform_bind trivial fun _ _ => always_bind (gentle_eventData _ _) fun _ => ?_
  refine always_perform_bind trivial fun joinable _ => ?_
  cases joinable with
  | true => exact always_perform_bind trivial fun _ _ => always_perform trivial
  | false => exact always_perform trivial

end processes

-- The shared directory from which the fonts of an older version are migrated.
structure Legacy (w : World) : Prop where
  plain : ∀ f, publicDir <+: f → (w.tree.lookup f).isSome = true → ∀ c ∈ f, Plain c
  fontlist : ∀ f json, publicDir <+: f → Migration.fileName f = fontConfigFile →
    w.tree.lookup f = some (.document json) → ∀ u, Designates u (some json)

def Shares (w : World) (e : Entry) : Prop :=
  e ≠ .dir ∧ ∃ f, publicDir <+: f ∧ w.tree.lookup f = some e

section migration

variable {C : Type} {sources : Entry → Prop} {w₀ w w' : World} {s : Process C}

theorem tempLoc_inTemp {u : Int} {f l : Loc} (h : Migration.tempLoc u f <+: l) : InTemp u l :=
  Or.inl (List.IsPrefix.trans (by simp [Migration.tempLoc]) h)

theorem Holds.listed (h : Holds sources w₀ w) (hw₀ : Legacy w₀) {f : Loc} (hf : f ∈ w.files publicDir) :
    Migration.Listed f := by
  simp only [World.files, List.mem_filterMap] at hf
  obtain ⟨x, hx, hxf⟩ := hf
  have hsome := FileTree.isSome_lookup_of_mem hx
  obtain ⟨hroot, rfl⟩ : publicDir <+: x.1 ∧ x.1 = f := by
    cases he : x.2 with
    | dir => simp [he] at hxf
    | _ => simpa [he] using hxf
  refine ⟨hw₀.plain _ hroot ?_, hroot⟩
  rcases h.shared x.1 hroot with hsame | hgone
  · rwa [← hsame]
  · rw [hgone] at hsome
    cases hsome

theorem Holds.copying (h : Holds sources w₀ w) (hw₀ : Legacy w₀)
    (hsources : ∀ e, Shares w₀ e → sources e) {t : Prop} {u : Int} {f : Loc}
    (hf : Migration.Listed f) (hc : Migration.Copying t u f w w') :
    Holds sources w₀ w' := by
  have hmoved : ∀ l, ¬ Migration.tempLoc u f <+: l →
      w'.tree.lookup l = w.tree.lookup l ∨
        l = Migration.dest u f ∧ ∃ e, w₀.tree.lookup f = some e ∧ w'.tree.lookup l = some e := by
    intro l ht
    by_cases hl : l = Migration.dest u f
    · subst hl
      rcases hc.kept with hsame | ⟨⟨e, hsource, hnew⟩, -⟩
      · exact Or.inl hsame
      · refine Or.inr ⟨rfl, e, ?_, hnew⟩
        rcases h.shared f hf.shared with hsame | hgone
        · rw [← hsame, hsource]
        · rw [hgone] at hsource
          cases hsource
    · exact Or.inl (hc.frame.tree l fun hl' => hl'.elim ht hl)
  refine ⟨fun v l e hl hlookup he => ?_, fun v => ?_, fun l hl => ?_⟩
  · rcases hmoved l (fun ht => hl.user_of_temp (tempLoc_inTemp ht)) with hsame | ⟨-, e', hsource, hnew⟩
    · exact h.whole v l e hl (hsame ▸ hlookup) he
    · obtain rfl : e' = e := Option.some.inj (hnew.symm.trans hlookup)
      exact hsources e' ⟨he, f, hf.shared, hsource⟩
  · have ht : ¬ Migration.tempLoc u f <+: configLoc v := fun ht =>
      temp_not_config (tempLoc_inTemp ht) rfl
    rcases hmoved _ ht with hsame | ⟨hdest, e, hsource, hnew⟩
    · rw [World.config_congr hsame]
      exact h.records v
    · rw [World.config_eq_match, hnew]
      cases e with
      | document json =>
        have hbelow : userDir u <+: configLoc v := by
          rw [hdest]
          exact List.prefix_append _ _
        obtain rfl := userDir_unique (configLoc_below v) hbelow
        have hname : Migration.fileName f = fontConfigFile := by
          simpa [Migration.dest, configLoc] using hdest.symm
        exact hw₀.fontlist f json hf.shared hname hsource v
      | _ => exact designates_nil rfl
  · rw [hc.frame.tree l (Migration.shared_not_copied hl _)]
    exact h.shared l hl

variable (hw₀ : Legacy w₀) (hsources : ∀ e, Shares w₀ e → sources e)

include hw₀ hsources

theorem kept_copyToUsers {f : Loc} (hf : Migration.Listed f) (users : List Int)
    (hs : Holds sources w₀ s.world) :
    Kept sources w₀ (DataMigrationManager.copyToUsers (joinPath f) users) (fun _ _ => True) s := by
  induction users generalizing s with
  | nil => exact .pure hs trivial
  | cons u users ih =>
    have hcopy := @Migration.copyFile_steady C (fun _ _ _ => True) u f False hf s (fun h => h.elim)
    have hkept := hcopy.mono (fun s' hc => hs.copying hw₀ hsources hf hc) fun code s' hc hcode => hcode
    refine kept_bind hkept fun code s hs => ?_
    split
    · exact .pure hs trivial
    · exact ih hs

theorem kept_startOneFileCopyTask {f : Loc} (hf : Migration.Listed f) (users : List Int)
    (hs : Holds sources w₀ s.world) :
    Kept sources w₀ (DataMigrationManager.startOneFileCopyTask users (joinPath f)) (fun _ _ => True)
      s := by
  refine kept_bind (kept_copyToUsers hw₀ hsources hf users hs) fun ret s hs => ?_
  split
  · exact .pure hs trivial
  · refine kept_then (gentle_font ((tame_routine 0).removeFile _)) hs fun b s hs => ?_
    cases b <;> exact .pure hs trivial

theorem kept_migrateFiles (request : Nat) (users : List Int) (size i : Nat) {files : List Loc}
    (hfiles : ∀ f ∈ files, Migration.Listed f) (hs : Holds sources w₀ s.world) :
    Kept sources w₀ (DataMigrationManager.migrateFiles request users size i (files.map joinPath))
      (fun _ _ => True) s := by
  induction files generalizing s i with
  | nil => exact .pure hs trivial
  | cons f rest ih =>
    obtain ⟨hf, hrest⟩ := List.forall_mem_cons.mp hfiles
    have hcopy : ∀ s : Process C, Holds sources w₀ s.world →
        Kept sources w₀ (DataMigrationManager.startOneFileCopyTask users (joinPath f) >>= fun ret =>
          if ret ≠ .ok then pure ret
          else DataMigrationManager.migrateFiles request users size (i + 1) (rest.map joinPath))
          (fun _ _ => True) s := by
      intro s hs
      refine kept_bind (kept_startOneFileCopyTask hw₀ hsources hf users hs) fun ret s hs => ?_
      split
      · exact .pure hs trivial
      · exact ih (i + 1) hrest hs
    rw [List.map_cons, DataMigrationManager.migrateFiles]
    split
    · refine kept_then ?_ hs fun _ s hs => hcopy s hs
      exact always_perform_bind trivial fun _ _ => gentle_eventData _ _
    · exact hcopy s hs

theorem kept_startDataMigration (request : Nat) (users : List Int) (hs : Holds sources w₀ s.world) :
    Kept sources w₀ (DataMigrationManager.startDataMigration request users) (fun _ _ => True) s := by
  refine ⟨hs, fun io _ => ?_⟩
  have hroot : locate installPathApp = publicDir := by
    rw [installPathApp_eq, locate_dirPath (by decide)]
  change Kept sources w₀ (DataMigrationManager.migrateFiles request users
    ((s.world.files (locate installPathApp)).map joinPath).length 0
    ((s.world.files (locate installPathApp)).map joinPath)) _ s
  rw [hroot]
  exact kept_migrateFiles hw₀ hsources request users _ 0 (fun f hf => hs.listed hw₀ hf) hs

theorem kept_migrate (request : Nat) (hs : Holds sources w₀ s.world) :
    Kept sources w₀ (DataMigrationManager.migrate request) (fun _ _ => True) s := by
  have hinner : Kept sources w₀ (DataMigrationManager.dataMigrationInner request) (fun _ _ => True)
      s := by
    refine kept_then gentle_initDataMigrationEnv hs fun env s hs => ?_
    split
    · exact .pure hs trivial
    · refine kept_then (always_perform trivial) hs fun _ s hs => ?_
      refine kept_bind (kept_startDataMigration hw₀ hsources request env.1 hs) fun ret s hs => ?_
      exact .pure hs trivial
  refine kept_bind hinner fun done s hs => ?_
  exact kept_then (gentle_checkAndUpdateAllFontRecord _) hs fun _ s hs => .pure hs trivial

theorem kept_dataMigration (callback : C) (request : Nat) (hs : Holds sources w₀ s.world) :
    Kept sources w₀ (DataMigrationManager.dataMigration callback request) (fun _ _ => True) s := by
  refine kept_then (always_perform trivial) hs fun expected s hs => ?_
  cases expected with
  | false => exact .pure hs trivial
  | true =>
    refine kept_then (always_perform trivial) hs fun _ s hs => ?_
    exact kept_bind (kept_migrate hw₀ hsources request hs) fun ret s hs =>
      kept_of_gentle (gentle_finish request ret) hs

end migration

section tasks

variable {C : Type} {sources : Entry → Prop} {w₀ : World} {s : Process C}

theorem gentle_clearTempAndCollect (paths : List Str) :
    Gentle (C := C) (FontManagerUtils.clearTempAndCollect paths) := by
  induction paths with
  | nil => exact always_pure _
  | cons path rest ih =>
    have hrest : Gentle (C := C) (DataMigrationManager.perform (.isEmpty path) >>= fun empty =>
        FontManagerUtils.clearTempAndCollect rest >>= fun dirs =>
          if empty = true then pure (path :: dirs) else pure dirs) := by
      refine always_perform_bind trivial fun empty _ => always_bind ih fun dirs => ?_
      split <;> exact always_pure _
    refine always_bind (gentle_font ((tame_routine 0).removalTask _ rfl)) fun b => ?_
    cases b with
    | true => exact always_bind (gentle_font ((tame_routine 0).deleteDir _)) fun _ => hrest
    | false => exact hrest

theorem gentle_removeDirs (paths : List Str) : Gentle (C := C) (FontManagerUtils.removeDirs paths) := by
  induction paths with
  | nil => exact always_pure _
  | cons path rest ih => exact always_perform_bind trivial fun _ _ => ih

theorem gentle_cleanupScopeFontDirs (users : List Int) :
    Gentle (C := C) (FontManagerUtils.cleanupScopeFontDirs users) := by
  induction users with
  | nil => exact always_pure _
  | cons u users ih =>
    refine always_bind (gentle_font ((tame_routine u).removalTask _ rfl)) fun b => ?_
    cases b with
    | false => exact ih
    | true =>
      refine always_bind (gentle_font ((tame_routine u).removalTask _ rfl)) fun names => ?_
      refine always_bind (gentle_clearTempAndCollect _) fun dirs => ?_
      exact always_bind (gentle_removeDirs dirs) fun _ => ih

theorem gentle_unloadTask : Gentle (C := C) FontManagerServer.unloadTask := by
  have hids : Tame FontManagerUtils.getAllCreatedUserIds := always_perform trivial
  refine always_perform_bind trivial fun count _ => ?_
  split
  · exact always_pure _
  · refine always_perform_bind trivial fun migrating _ => ?_
    split
    · exact always_pure _
    · refine always_bind (gentle_font (always_perform trivial)) fun clients => ?_
      split
      · exact always_pure _
      · refine always_bind (gentle_font hids) fun users => ?_
        refine always_bind (gentle_font (RoutinePermits.clearAllTempFileDir tame_routine users))
          fun _ => ?_
        refine always_bind (gentle_font hids) fun users => ?_
        exact always_bind (gentle_cleanupScopeFontDirs users) fun _ => always_perform trivial

theorem kept_task (task : HandlerTask C)
    (hmigration : ∀ callback request, task = .dataMigration callback request →
      Legacy w₀ ∧ ∀ e, Shares w₀ e → sources e) (hs : Holds sources w₀ s.world) :
    Kept sources w₀ (FontManagerServer.handle task).program (fun _ _ => True) s := by
  have hids : tame .getAllCreatedUserIds := trivial
  have silent : ∀ {p : FontTask FontErrorCode}, Tame p →
      Kept sources w₀ (FontManagerServer.silent (font p)) (fun _ _ => True) s := fun hp =>
    kept_then (gentle_font hp) hs fun _ s hs => .pure hs trivial
  cases task with
  | unload => exact kept_then gentle_unloadTask hs fun _ s hs => .pure hs trivial
  | dataMigration callback request =>
    obtain ⟨hw₀, hsources⟩ := hmigration callback request rfl
    refine kept_bind (R := fun _ _ => True) ?_ fun _ s hs => .pure hs trivial
    refine kept_then (always_perform trivial) hs fun _ s hs => ?_
    exact kept_dataMigration hw₀ hsources callback request hs
  | cleanupAllScopeFontsOnBoot =>
    exact silent (RoutinePermits.cleanupAllScopeFontsOnBoot tame_routine hids)
  | cleanupUserScopeFonts u => exact silent (RoutinePermits.cleanupUserScopeFonts tame_routine u)
  | cleanupAppScopeFontsOnStart =>
    exact silent (RoutinePermits.cleanupAppScopeFontsOnStart tame_routine hids)

end tasks

inductive Call (C : Type) where
  | manager (userId : Int) (c : FontCall)
  | handler (task : HandlerTask C)

namespace Call

variable {C : Type}

def program : Call C → ProcessTask C Int
  | manager userId c => FontManagerServer.silent (font (c.program userId))
  | handler task => (FontManagerServer.handle task).program

def source : Call C → Option Fd
  | manager _ c => c.source
  | handler _ => none

def migrates : Call C → Prop
  | handler (.dataMigration _ _) => True
  | _ => False

end Call

-- What the calls were given to install or to migrate.
inductive Source {C : Type} (w₀ : World) (calls : List (Call C)) (e : Entry) : Prop
  | installed {c : Call C} {fd : Fd} (hc : c ∈ calls) (hfd : fd ∈ c.source) (he : e = .bytes fd.content)
  | migrated {c : Call C} (hc : c ∈ calls) (hmigrates : c.migrates) (he : Shares w₀ e)

-- Every call may be cut off after any step; the next one finds what is left in the files.
inductive History {C : Type} (w₀ : World) : List (Call C) → World → Prop
  | start : History w₀ [] w₀
  | call {calls : List (Call C)} {w : World} {c : Call C} {s s' : Process C} {q : ProcessTask C Int}
      (h : History w₀ calls w) (hs : s.world.tree = w.tree)
      (hrun : Reaches (processSemantics C) (fun _ _ _ => True) c.program s q s') :
      History w₀ (calls ++ [c]) s'.world

structure Start (before : Entry → Prop) (w : World) : Prop extends Legacy w where
  whole : Whole before w
  records : ∀ u, Designates u (w.config u)

section history

variable {C : Type} {before sources sources' : Entry → Prop} {w₀ w : World} {calls : List (Call C)}

theorem Holds.mono (h : Holds sources w₀ w) (hsources : ∀ e, sources e → sources' e) :
    Holds sources' w₀ w :=
  ⟨fun u l e hl hlookup he => hsources e (h.whole u l e hl hlookup he), h.records, h.shared⟩

theorem Source.later {e : Entry} (h : Source w₀ calls e) (c : Call C) : Source w₀ (calls ++ [c]) e := by
  cases h with
  | installed hc hfd he => exact .installed (List.mem_append_left _ hc) hfd he
  | migrated hc hmigrates he => exact .migrated (List.mem_append_left _ hc) hmigrates he

theorem kept_call {c : Call C} {s : Process C} (hw₀ : Legacy w₀)
    (hfd : ∀ fd ∈ c.source, sources (.bytes fd.content))
    (hmigration : c.migrates → ∀ e, Shares w₀ e → sources e) (hs : Holds sources w₀ s.world) :
    Kept sources w₀ c.program (fun _ _ => True) s := by
  cases c with
  | manager u c =>
    exact kept_bind (kept_font (safe_call u c hfd hs)) fun _ s hs => .pure hs trivial
  | handler task =>
    refine kept_task task (fun callback request htask => ⟨hw₀, hmigration ?_⟩) hs
    rw [htask]
    trivial

theorem Start.holds (hw₀ : Start before w₀) (h : History w₀ calls w) :
    Holds (fun e => before e ∨ Source w₀ calls e) w₀ w := by
  induction h with
  | start =>
    exact ⟨fun u l e hl hlookup he => Or.inl (hw₀.whole u l e hl hlookup he), hw₀.records,
      fun _ _ => Or.inl rfl⟩
  | @call calls w c s s' q h hs hrun ih =>
    have hstart : Holds (fun e => before e ∨ Source w₀ (calls ++ [c]) e) w₀ s.world :=
      (ih.mono fun e he => he.imp_right fun he => he.later c).same hs
    have hkept := kept_call (c := c) hw₀.toLegacy
      (fun fd hfd => Or.inr (.installed (by simp) hfd rfl))
      (fun hmigrates e he => Or.inr (.migrated (by simp) hmigrates he)) hstart
    exact (hkept.reached hrun).here

theorem fonts_whole (hw₀ : Start before w₀) (h : History w₀ calls w) :
    Whole (fun e => before e ∨ Source w₀ calls e) w ∧
      ∀ u, ∀ k ∈ listedKeys (w.config u), ∀ path, k.fontPath = some path →
        ∀ e, w.entry (realPath u path) = some e → e ≠ .dir → before e ∨ Source w₀ calls e := by
  have hholds := hw₀.holds h
  refine ⟨hholds.whole, fun u k hk path hpath e hlookup he => ?_⟩
  exact hholds.whole u _ e (hholds.records u k hk path hpath) hlookup he

end history

section sample

open Migration

def legacy : World := (process namesApart).world

def sampleCalls : List (Call Unit) :=
  [.handler (.dataMigration () 0), .manager 100 (InstallContract.installAt 0 "A".toList 7).1]

def afterCall (w : World) (c : Call Unit) : World :=
  (c.program.run (processSemantics Unit) { process [] with world := w } []).2.world

def sampleWorld : World := sampleCalls.foldl afterCall legacy

theorem history_foldl {w₀ w : World} {calls : List (Call Unit)} (h : History w₀ calls w)
    (later : List (Call Unit)) : History w₀ (calls ++ later) (later.foldl afterCall w) := by
  induction later generalizing calls w with
  | nil => simpa using h
  | cons c later ih =>
    have hstep : History w₀ (calls ++ [c]) (afterCall w c) :=
      .call h rfl (Program.reaches_run (fun _ _ => trivial) [] (by simp) c.program _)
    simpa using ih hstep

def itemsOf : Entry → List Json
  | .document json => listed (some json)
  | _ => []

theorem legacy_start : Start (fun _ => False) legacy := by
  have hplain : ∀ x ∈ legacy.tree, publicDir <+: x.1 → ∀ c ∈ x.1, Plain c := by decide
  have hfiles : ∀ x ∈ legacy.tree, x.2.isFile = true → publicDir <+: x.1 ∨ x.1 = configLoc 100 := by
    decide
  have hdocuments : ∀ x ∈ legacy.tree, (itemsOf x.2).isEmpty = true := by decide
  have hdesignates : ∀ u l json, legacy.tree.lookup l = some (.document json) →
      Designates u (some json) := fun u l json h =>
    designates_nil (List.isEmpty_iff.mp (hdocuments _ (FileTree.mem_of_lookup h)))
  refine ⟨⟨fun f hf hsome => ?_, fun f json _ _ h u => hdesignates u f json h⟩, fun u l e hl h he => ?_,
    fun u => ?_⟩
  · obtain ⟨e, he⟩ := Option.isSome_iff_exists.mp hsome
    exact hplain _ (FileTree.mem_of_lookup he) hf
  · have hfile : e.isFile = true := by cases e <;> simp_all [Entry.isFile]
    rcases hfiles _ (FileTree.mem_of_lookup h) hfile with hshared | hconfig
    · exact Migration.not_shared_of_below hl.below hshared
    · exact hl.not_configLoc hconfig
  · rw [World.config_eq_match]
    split
    · rename_i json h
      exact hdesignates u _ json h
    · exact designates_nil rfl

theorem legacy_fonts_whole :
    Whole (fun e => False ∨ Source legacy sampleCalls e) sampleWorld ∧
      sampleWorld.tree.any (holds 2) = true ∧ sampleWorld.tree.any (holds 7) = true :=
  ⟨(fonts_whole legacy_start (history_foldl .start sampleCalls)).1, by decide +kernel,
    by decide +kernel⟩

end sample

end WholeFonts
