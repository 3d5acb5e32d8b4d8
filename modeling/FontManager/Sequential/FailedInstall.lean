import FontManager.Concurrent.Permits
import FontManager.Sequential.InstallContract
import FontManager.Sequential.UninstallExact

open FontDefine FontManagerUtils FontLocation FontConfig StoreInvariant Interaction KeyedList CJson
  Program

namespace FailedInstall

def settled (_ : World) : Op → Io → Prop
  | .file (.exists _), io => io.ok = true
  | .file (.removeAll _), io => io.ok = true
  | .file (.createConfig _), io => io.whole
  | .config _ _, io => io.whole
  | _, _ => True

def Intact (u : Int) (w w' : World) : Prop :=
  ∀ l, ¬ InTemp u l → l ≠ configLoc u → ∀ e, e ≠ .dir →
    (w'.tree.lookup l = some e ↔ w.tree.lookup l = some e)

def Missing (u : Int) (w : World) (path : Str) : Prop :=
  ∀ e, w.entry (realPath u path) = some e → e = .dir

structure Unchanged (u : Int) (w w' : World) : Prop where
  fontlist : Loses (fun item => ∃ path, stringItem item fontPath = some path ∧ Missing u w path)
    (listed (w.config u)) (listed (w'.config u))
  files : Intact u w w'

def Occupied (w : World) (root : Loc) : Prop :=
  ∃ l, root <+: l ∧ ∃ e, e ≠ .dir ∧ w.tree.lookup l = some e

def overwrites (w : World) : Op → Io → Prop
  | .file (.rename src dest), io => (w.rename src dest io.ok).1 = true ∧ Occupied w (locate dest)
  | _, _ => False

def installs : FontCall → Prop
  | .installFont _ _ => True
  | .installScopeFont _ _ _ _ _ _ => True
  | _ => False

section relations

variable {u : Int} {w w₁ w₂ : World}

theorem Intact.refl (u : Int) (w : World) : Intact u w w := fun _ _ _ _ _ => Iff.rfl

theorem Intact.trans (h : Intact u w w₁) (h' : Intact u w₁ w₂) : Intact u w w₂ :=
  fun l ht hc e he => (h' l ht hc e he).trans (h l ht hc e he)

theorem Intact.of_frame {S : Loc → Prop} (h : Frame S w w₁)
    (hS : ∀ l, S l → InTemp u l ∨ l = configLoc u) : Intact u w w₁ := fun l ht hc e _ => by
  rw [h.tree l fun hl => (hS l hl).elim ht hc]

theorem intact_createDirectory (path : Str) (io : Io) :
    Intact u w (w.createDirectory path io).2 := by
  intro l _ _ e he
  unfold World.createDirectory
  split
  · rfl
  · split
    · rfl
    · rfl
    · rename_i hnone
      split
      · by_cases hl : locate path = l
        · subst hl
          have hnone' : w.tree.lookup (locate path) = none := hnone
          simp [World.put, hnone', he.symm]
        · rw [World.put, FileTree.lookup_put_ne hl]
      · rfl

theorem Missing.of_intact {r : Record} (hr : r.Placed) (h : Intact u w w₁)
    (hm : Missing u w₁ r.fontPath) : Missing u w r.fontPath := by
  obtain ⟨s, hs⟩ := hr
  intro e he
  have hloc : locate (realPath u r.fontPath) = s.loc u := by rw [hs.path, locate_realPath hs.valid]
  by_contra hdir
  rw [World.entry, hloc] at he
  refine hdir (hm e ?_)
  rw [World.entry, hloc]
  exact (h _ (loc_not_temp hs.valid List.prefix_rfl) (loc_not_config hs.valid List.prefix_rfl) e
    hdir).mpr he

-- The records of the view before and after, those with a missing file apart.
def Fewer (u : Int) (w : World) (v v' : View) : Prop :=
  Loses (fun r : Record => Missing u w r.fontPath) v.records v'.records

theorem fontlist_of_fewer {v v' : View} (hv : v.Shows u w) (hv' : v'.Shows u w₁)
    (h : Fewer u w v v') :
    Loses (fun item => ∃ path, stringItem item fontPath = some path ∧ Missing u w path)
      (listed (w.config u)) (listed (w₁.config u)) := by
  rw [listed_shows hv, listed_shows hv']
  exact h.map fun r _ hr => ⟨r.fontPath, r.stringItem_fontPath, hr⟩

-- After a failed insertion everything at the destination is gone.
theorem unchanged_iff {s : Slot} {v v' : View} (hs : s.Valid) (hv : v.Shows u w) (hv' : v'.Shows u w₂)
    (hfewer : Fewer u w v v') (hintact : Intact u w w₁)
    (hbelow : ∀ l, s.loc u <+: l → w₂.tree.lookup l = none)
    (hframe : ∀ l, ¬ s.loc u <+: l → ¬ InTemp u l → l ≠ configLoc u →
      w₂.tree.lookup l = w₁.tree.lookup l) :
    Unchanged u w w₂ ↔ ¬ Occupied w₁ (s.loc u) := by
  constructor
  · rintro h ⟨l, hl, e, he, hlookup⟩
    have htemp := loc_not_temp hs hl
    have hconfig := loc_not_config hs hl
    have hsame := (h.files l htemp hconfig e he).mpr ((hintact l htemp hconfig e he).mp hlookup)
    rw [hbelow l hl] at hsame
    cases hsame
  · intro hfree
    refine ⟨fontlist_of_fewer hv hv' hfewer, fun l htemp hconfig e he => ?_⟩
    refine Iff.trans ?_ (hintact l htemp hconfig e he)
    by_cases hl : s.loc u <+: l
    · rw [hbelow l hl]
      exact iff_of_false (by simp) fun hlookup => hfree ⟨l, hl, e, he, hlookup⟩
    · rw [hframe l hl htemp hconfig]

end relations

section rules

variable {α β : Type} {u : Int} {w : World} {v : View}

theorem settled_truthful : Truthful settled := ⟨fun h => h, fun h => h⟩

theorem createDirWithPermission {path : Str} {Q : Bool → World → Prop}
    (h : ∀ b w', Intact u w w' → Frame (· = locate path) w w' → Q b w') :
    Obeys settled (createDirWithPermission path) Q w := by
  unfold FontManagerUtils.createDirWithPermission
  split
  · exact Obeys.pure (h _ _ (.refl u w) (.refl _ w))
  · exact Obeys.perform fun io _ =>
      h _ _ (intact_createDirectory path io) (World.execFile_frame w io (.createDirectory path))

theorem checkOrCreateDir {path : Str} (hp : path ≠ []) {Q : Bool → World → Prop}
    (h : ∀ b w', Intact u w w' → Frame (· = locate path) w w' → Q b w') :
    Obeys settled (checkOrCreateDir path) Q w := by
  refine Obeys.bind (Obeys.checkPathExist settled_truthful hp ?_)
  cases w.pathExists path with
  | true => exact Obeys.pure (h _ _ (.refl u w) (.refl _ w))
  | false => exact createDirWithPermission h

theorem checkAndInitScopeFontPath {path : Str} (hp : path ≠ []) {Q : Bool → World → Prop}
    (h : ∀ b w', Intact u w w' →
      Frame (fun l => l = locate path ∨ l = locate (path ++ tempFile)) w w' → Q b w') :
    Obeys settled (checkAndInitScopeFontPath path) Q w := by
  refine Obeys.bind (checkOrCreateDir (u := u) hp fun b w₁ h₁ hf₁ => ?_)
  cases b with
  | false => exact Obeys.pure (h _ _ h₁ (hf₁.mono fun _ => Or.inl))
  | true =>
    refine checkOrCreateDir (by simp [hp]) fun b w₂ h₂ hf₂ => h b w₂ (h₁.trans h₂) (hf₁.trans hf₂)

theorem records_of_missing (hv : v.Shows u w) (h : w.pathExists (configPath u) = false) :
    v.records = [] := by
  cases v with
  | none => rfl
  | some rs =>
    have hnone : w.entry (configPath u) = none := by simpa [World.pathExists] using h
    rw [View.Shows, World.config, hnone] at hv
    cases hv

theorem createConfig_empty (hv : v.Shows u w) (hnone : v.records = []) {io : Io} (hio : io.whole) :
    ∃ v' : View, v'.records = v.records ∧ v'.Shows u (w.createConfig (configPath u) io).2 := by
  unfold World.createConfig
  split
  · exact ⟨v, rfl, hv⟩
  · rcases hio with hwrite | hwrite <;> rw [hwrite]
    · exact ⟨some [], hnone.symm, View.shows_put w []⟩
    · exact ⟨v, rfl, hv⟩

theorem checkFontConfigPath (hv : v.Shows u w) {Q : Bool → World → Prop}
    (h : ∀ (b : Bool) (w' : World) (v' : View), v'.records = v.records → v'.Shows u w' →
      Frame (· = configLoc u) w w' → Q b w') :
    Obeys settled (checkFontConfigPath (installPath u)) Q w := by
  refine Obeys.bind (Obeys.checkPathExist settled_truthful (by simp [installPath_eq, dirPath]) ?_)
  cases hexists : w.pathExists (installPath u ++ fontConfigFile) with
  | true => exact Obeys.pure (h _ _ v rfl hv (.refl _ w))
  | false =>
    show Obeys settled (createFileWithPermission (configPath u)) Q w
    unfold FontManagerUtils.createFileWithPermission
    split
    · exact Obeys.pure (h _ _ v rfl hv (.refl _ w))
    · refine Obeys.perform fun io (hio : io.whole) => ?_
      obtain ⟨v', hrecords, hv'⟩ := createConfig_empty hv (records_of_missing hv hexists) hio
      have hf := World.createConfig_frame w (configPath u) io
      rw [locate_configPath] at hf
      exact h _ _ v' hrecords hv' hf

theorem checkAndInitInstallPath (hv : v.Shows u w) {Q : Bool → World → Prop}
    (h : ∀ (b : Bool) (w' : World) (v' : View), v'.records = v.records → v'.Shows u w' →
      Intact u w w' → Q b w') :
    Obeys settled (checkAndInitInstallPath (installPath u)) Q w := by
  refine Obeys.bind (checkAndInitScopeFontPath (u := u) (by simp [installPath_eq, dirPath])
    fun b w₁ h₁ hf₁ => ?_)
  rw [locate_installPath, installPath_eq, locate_dir_tempFile (userDir_plain u)] at hf₁
  have hv₁ := hv.frame hf₁ fun hl => hl.elim (configLoc_ne_userDir u)
    (configLoc_ne_append (by decide))
  cases b with
  | false => exact Obeys.pure (h _ _ v rfl hv₁ h₁)
  | true =>
    refine checkFontConfigPath hv₁ fun b w₂ v₂ hrecords hv₂ hf₂ => h b w₂ v₂ hrecords hv₂ ?_
    exact h₁.trans (.of_frame hf₂ fun _ hl => Or.inr hl)

theorem step_whole_delete {path : Str} {io : Io} (hio : io.whole) (w₀ : World)
    (hmissing : Missing u w₀ path) :
    Fewer u w₀ v (v.step (.deleteFontRecord path) io).2 := by
  have hstay : Fewer u w₀ v v := .refl _
  cases hread : io.ok with
  | false =>
    rw [View.step_unreadable hread]
    exact hstay
  | true => ?_
  rw [View.step_readable hread]
  cases v with
  | none => exact hstay
  | some rs =>
    simp only [View.edit, RecordStore.edit, RecordStore.deleteFirst]
    split
    · rcases hio with hwrite | hwrite <;> rw [hwrite]
      · refine Loses.eraseP fun r _ hr => ?_
        have hpath : path = r.fontPath := by simpa [Record.paths] using hr
        exact hpath ▸ hmissing
      · exact hstay
    · exact hstay

theorem fixStaleRecords {names : List Str} {w₀ : World} {v₀ : View} (hp : v.Placed) (hv : v.Shows u w)
    (hfewer : Fewer u w₀ v₀ v) (hintact : Intact u w₀ w)
    {Q : Option FontErrorCode → World → Prop}
    (h : ∀ (code : Option FontErrorCode) (w' : World) (v' : View), code ≠ some .ok → v'.Placed →
      v'.Shows u w' → Fewer u w₀ v₀ v' → Intact u w₀ w' → Q code w') :
    Obeys settled (FontManager.fixStaleRecords u (installPath u) names) Q w := by
  induction names generalizing w v with
  | nil => exact Obeys.pure (h _ _ v (by simp) hp hv hfewer hintact)
  | cons n rest ih =>
    refine Obeys.bind (Obeys.query hv (v.edit_getFontFileByName n)
      (fun _ _ _ => ih hp hv hfewer hintact) ?_)
    cases hf : v.records.find? (has Record.fullNames n) with
    | none =>
      simp only [Option.map_none, Option.getD_none, if_true]
      exact ih hp hv hfewer hintact
    | some r =>
      simp only [Option.map_some, Option.getD_some]
      have hr := List.mem_of_find?_eq_some hf
      obtain ⟨s, hs⟩ := hp r hr
      rw [if_neg (hs.path ▸ sandbox_ne_nil s)]
      have hne : realPath u r.fontPath ≠ [] := by
        rw [hs.path, realPath_sandbox]
        exact ScopeCleanup.joinPath_loc_ne u s
      refine Obeys.bind (Obeys.checkPathExist settled_truthful hne ?_)
      cases hexists : w.pathExists (realPath u r.fontPath) with
      | true => exact Obeys.pure (h _ _ v (by simp) hp hv hfewer hintact)
      | false =>
        have hgone : Missing u w r.fontPath := fun e he => by
          simp [World.pathExists, he] at hexists
        have hmissing := hgone.of_intact (hp r hr) hintact
        refine Obeys.bind (Obeys.config hv fun io w₁ hio hf₁ hv₁ => ?_)
        have hfewer₁ := hfewer.trans (step_whole_delete (v := v) hio w₀ hmissing)
        have hp₁ := hp.shrinks (v.step_deleteFontRecord_shrinks r.fontPath io)
        have hintact₁ := hintact.trans (.of_frame hf₁ fun _ hl => Or.inr hl)
        cases (v.step (.deleteFontRecord r.fontPath) io).1 with
        | false => exact Obeys.pure (h _ _ _ (by simp) hp₁ hv₁ hfewer₁ hintact₁)
        | true => exact ih hp₁ hv₁ hfewer₁ hintact₁

theorem findInstalledName_same (hv : v.Shows u w) (names : List Str) :
    Obeys settled (FontManager.findInstalledName u names) (fun _ w' => w' = w) w := by
  induction names with
  | nil => exact Obeys.pure rfl
  | cons n rest ih =>
    refine Obeys.bind (Obeys.answered hv (v.edit_getFontRecordByName n) fun r => ?_)
    split
    · exact Obeys.pure rfl
    · exact ih

theorem validateScopeFontForInstall_same (hv : v.Shows u w) (srcPath : Str) (fd : Fd) :
    Obeys settled (FontManager.validateScopeFontForInstall u srcPath fd) (fun _ w' => w' = w) w := by
  refine Obeys.bind (Obeys.answered hv (v.edit_getFontRecordByUrl srcPath) fun r => ?_)
  split
  · exact Obeys.pure rfl
  · refine Obeys.bind (Obeys.perform fun _ _ => ?_)
    refine Obeys.bind (Obeys.answered (w := w) hv (v.edit_getTotalInstalledFontsNum) fun n => ?_)
    split
    · exact Obeys.pure rfl
    · split
      · exact Obeys.pure rfl
      · refine Obeys.bind ((findInstalledName_same hv _).mono fun b w' hw' => ?_)
        cases b <;> exact Obeys.pure hw'

theorem deleteDir_gone {path : Str} (hp : path ≠ []) (hexists : w.pathExists path = true)
    {Q : Unit → World → Prop} (h : Q () { w with tree := w.tree.prune (locate path) }) :
    Obeys settled (deleteDir path) Q w := by
  refine Obeys.bind (Obeys.checkPathExist settled_truthful hp ?_)
  rw [hexists]
  refine Obeys.bind (Obeys.perform fun io (hio : io.ok = true) => Obeys.pure ?_)
  show Q () (w.removeAll path io).2
  rwa [World.removeAll, if_pos hio]

end rules

section log

variable {α β : Type} {u : Int} {w : World} {b : Prop}

-- The runs of an install, with a ghost for a rename over an existing file.
abbrev Logs (p : FontTask α) (Q : α → World → Prop → Prop) (w : World) (b : Prop) : Prop :=
  Upholds (logged semantics overwrites) (fun s => settled s.1) (fun _ => True) p
    (fun a s => Q a s.1 s.2) (w, b)

def quiet (o : Op) : Prop := ∀ w io, ¬ overwrites w o io

theorem quiet_still : StillPermits (fun _ _ => True) quiet where
  still op hop _ _ h := by cases op <;> first | exact h | cases hop

theorem quiet_config (userId : Int) (op : ConfigOp) : quiet (.config userId op) := fun _ _ h => h

theorem quiet_query (u : Int) : QueryPermits (fun _ _ => True) quiet u where
  config op _ := quiet_config u op
  limit _ _ h := h

namespace Logs

theorem pure {Q : α → World → Prop → Prop} {a : α} (h : Q a w b) : Logs (Pure.pure a) Q w b :=
  ⟨trivial, h⟩

theorem bind {p : FontTask α} {f : α → FontTask β} {Q : β → World → Prop → Prop}
    (h : Logs p (fun a w' b' => Logs (f a) Q w' b') w b) : Logs (p >>= f) Q w b :=
  Upholds.bind h

theorem quietly {p : FontTask α} {Q : α → World → Prop → Prop}
    (hp : always (P := sig) (fun _ _ => True) quiet p) (h : Obeys settled p (fun a w' => Q a w' b) w) :
    Logs p Q w b := by
  refine Upholds.mono (Upholds.logged (b := b) hp h) (fun _ h => h) fun a s _ hs => ?_
  rw [hs.2]
  exact hs.1

theorem mono {Q R : α → World → Prop → Prop} {p : FontTask α} (h : Logs p Q w b)
    (hQ : ∀ a w' b', Q a w' b' → R a w' b') : Logs p R w b :=
  Upholds.mono h (fun _ h => h) fun a s _ hs => hQ a s.1 s.2 hs

theorem rename {src dest : Str} {Q : Bool → World → Prop → Prop}
    (h : ∀ ok, Q (w.rename src dest ok).1 (w.rename src dest ok).2
      (b ∨ (w.rename src dest ok).1 = true ∧ Occupied w (locate dest))) :
    Logs (rename src dest) Q w b := ⟨trivial, fun io _ => ⟨trivial, h io.ok⟩⟩

end Logs

theorem rename_failed {src dest : Str} {ok : Bool} (h : (w.rename src dest ok).1 = false) :
    (w.rename src dest ok).2 = w := by
  revert h
  unfold World.rename
  split
  · split
    · simp
    · simp
  · simp

theorem renameFile {src dest : Str} {content : List UInt8} (hne : src ≠ [])
    (hsrc : w.entry src = some (.bytes content)) {Q : Bool → World → Prop → Prop}
    (hfail : Q false w b)
    (hdone : ∀ w', Frame (FileOp.rename src dest).touches w w' →
      w'.entry dest = some (.bytes content) → Q true w' (b ∨ Occupied w (locate dest))) :
    Logs (renameFile src dest) Q w b := by
  have hexists : w.pathExists src = true := by rw [World.pathExists, hsrc, Option.isSome_some]
  refine Logs.bind (Logs.quietly (quiet_still.stillTask _ rfl)
    (Obeys.checkPathExist settled_truthful hne ?_))
  rw [hexists]
  refine Logs.rename fun ok => ?_
  cases hmoved : (w.rename src dest ok).1 with
  | false =>
    rw [rename_failed hmoved]
    simpa using hfail
  | true =>
    have hdone' := hdone _ (World.rename_frame w src dest ok) (Ensures.rename_content hsrc hmoved)
    simpa using hdone'

theorem not_below_temp {cs : Loc} {name : Str} (h : name ≠ tempDir) {l : Loc}
    (hl : cs ++ [name] <+: l) : ¬ cs ++ [tempDir, name] <+: l := by
  obtain ⟨back, rfl⟩ := hl
  rw [List.append_assoc, List.prefix_append_right_inj]
  exact fun hp => h (List.cons_prefix_cons.mp hp).1.symm

theorem Occupied.congr {w' : World} {root : Loc}
    (h : ∀ l, root <+: l → w'.tree.lookup l = w.tree.lookup l) : Occupied w' root ↔ Occupied w root :=
  exists_congr fun l => and_congr_right fun hl => by rw [h l hl]

theorem copyFileForInstall {cs : Loc} (hcs : ∀ c ∈ cs, Plain c) {env : Env} {fileName : Str} {fd : Fd}
    (hn : Plain (FontManager.taggedName env fileName))
    (htemp : FontManager.taggedName env fileName ≠ tempDir) {Q : Str → World → Prop → Prop}
    (hfail : ∀ w', Frame (cs ++ [tempDir, FontManager.taggedName env fileName] <+: ·) w w' → Q [] w' b)
    (hdone : ∀ w', Frame (CopyTouches cs (FontManager.taggedName env fileName)) w w' →
      w'.tree.lookup (cs ++ [FontManager.taggedName env fileName]) = some (.bytes fd.content) →
      Q (dirPath cs ++ FontManager.taggedName env fileName) w'
        (b ∨ Occupied w (cs ++ [FontManager.taggedName env fileName]))) :
    Logs (FontManager.copyFileForInstall env (dirPath cs) fileName fd) Q w b := by
  have hsrc := locate_tempFile hcs hn
  have hdest := locate_name hcs hn
  have hne : dirPath cs ++ tempFile ++ FontManager.taggedName env fileName ≠ [] := by simp [dirPath]
  unfold FontManager.copyFileForInstall
  refine Logs.bind (Logs.quietly (quiet_still.stillTask _ rfl) (Obeys.perform fun io _ => ?_))
  have hf₁ := World.execFile_frame w io
    (.copy fd (dirPath cs ++ tempFile ++ FontManager.taggedName env fileName))
  have hcopied := @Ensures.copy_content w (dirPath cs ++ tempFile ++ FontManager.taggedName env fileName)
    fd io
  change Logs (if (w.copy fd _ io).1 = true then _ else _) Q (w.copy fd _ io).2 b
  change Frame _ w (w.copy fd _ io).2 at hf₁
  generalize w.copy fd (dirPath cs ++ tempFile ++ FontManager.taggedName env fileName) io = r at *
  obtain ⟨copied, w₁⟩ := r
  have hf₁' : Frame (cs ++ [tempDir, FontManager.taggedName env fileName] <+: ·) w w₁ :=
    hf₁.mono fun l hl => FileTree.prefix_of_eq ((hl.trans hsrc).symm)
  cases copied with
  | false => exact Logs.pure (hfail _ hf₁')
  | true =>
    have hoccupied : Occupied w₁ (cs ++ [FontManager.taggedName env fileName]) ↔
        Occupied w (cs ++ [FontManager.taggedName env fileName]) :=
      Occupied.congr fun l hl => hf₁'.tree l (not_below_temp htemp hl)
    refine Logs.bind (renameFile hne (hcopied rfl) ?_ fun w₂ hf₂ hentry => ?_)
    · have hremoved : ∀ w₂ : World, Frame (locate (dirPath cs ++ tempFile ++
          FontManager.taggedName env fileName) <+: ·) w₁ w₂ → Q [] w₂ b :=
        fun w₂ hf₂ => hfail w₂ (hf₁'.step (hsrc ▸ hf₂))
      refine Logs.bind (Logs.quietly (quiet_still.removeFile _) ?_)
      exact Obeys.removeFile settled_truthful hne
        (fun _ => Logs.pure (hremoved w₁ (.refl _ w₁))) fun _ _ w₂ hf₂ _ => Logs.pure (hremoved w₂ hf₂)
    · rw [World.entry, hdest] at hentry
      rw [hdest, hoccupied]
      refine Logs.pure (hdone w₂ (Frame.step (hf₁'.mono fun l => Or.inl) (hf₂.mono fun l hl => ?_))
        hentry)
      rwa [FileOp.touches, hsrc, hdest] at hl

end log

section verdict

variable {u : Int} {w₀ w : World} {v₀ v : View} {s : Slot}

def Verdict (u : Int) (w₀ : World) (code : FontErrorCode) (w : World) (b : Prop) : Prop :=
  code ≠ .ok → (Unchanged u w₀ w ↔ ¬ b)

structure Untouched (u : Int) (v₀ : View) (w₀ : World) (v : View) (w : World) : Prop where
  start : v₀.Shows u w₀
  view : v.Shows u w
  fewer : Fewer u w₀ v₀ v
  intact : Intact u w₀ w

theorem Untouched.frame {S : Loc → Prop} {w' : World} (h : Untouched u v₀ w₀ v w) (hf : Frame S w w')
    (hS : ∀ l, S l → InTemp u l) (hconfig : ¬ S (configLoc u)) : Untouched u v₀ w₀ v w' :=
  ⟨h.start, h.view.frame hf hconfig, h.fewer, h.intact.trans (.of_frame hf fun l hl => Or.inl (hS l hl))⟩

theorem verdict_early {code : FontErrorCode} (h : Untouched u v₀ w₀ v w) :
    Verdict u w₀ code w False := fun _ =>
  iff_of_true ⟨fontlist_of_fewer h.start h.view h.fewer, h.intact⟩ fun hf => hf

theorem verdict_ok {b : Prop} : Verdict u w₀ .ok w b := fun h => absurd rfl h

-- What both installs do once the destination holds the font: insert, and roll back if that fails.
structure Stored (u : Int) (s : Slot) (v : View) (w : World) (content : List UInt8) (w₁ : World) :
    Prop where
  view : v.Shows u w₁
  frame : Frame (CopyTouches (userDir u ++ s.dir.toList) s.name) w w₁
  file : w₁.tree.lookup (s.loc u) = some (.bytes content)

theorem Stored.rollback (hs : s.Valid) {dest : Str} (hne : dest ≠ []) (hloc : locate dest = s.loc u)
    (h : Untouched u v₀ w₀ v w) {content : List UInt8} {w₁ w₂ : World} {code : FontErrorCode}
    (hstored : Stored u s v w content w₁) (hv₂ : v.Shows u w₂) (hf₂ : Frame (· = configLoc u) w₁ w₂) :
    Logs (deleteDir dest >>= fun _ => Pure.pure code) (Verdict u w₀) w₂
      (False ∨ Occupied w (s.loc u)) := by
  have hfile : w₂.tree.lookup (s.loc u) = some (.bytes content) := by
    rw [hf₂.tree _ (loc_not_config hs List.prefix_rfl)]
    exact hstored.file
  have hexists : w₂.pathExists dest = true := by
    rw [World.pathExists, World.entry, hloc, hfile]
    rfl
  refine Logs.bind (Logs.quietly (quiet_still.deleteDir _) (deleteDir_gone hne hexists ?_))
  rw [hloc, false_or]
  refine Logs.pure fun _ => unchanged_iff hs h.start
    (hv₂.frame (World.frame_prune w₂ (s.loc u)) (configLoc_not_loc hs)) h.fewer h.intact
    (fun l hl => ?_) fun l hl htemp hconfig => ?_
  · rw [FileTree.lookup_prune, if_pos hl]
  · refine (FileTree.lookup_prune_of_not_under hl).trans ((hf₂.tree l hconfig).trans ?_)
    refine hstored.frame.tree l fun ht => ht.elim (fun ht => htemp (temp_inTemp hs ht)) fun he => ?_
    refine hl (FileTree.prefix_of_eq ?_)
    rw [he, Slot.loc, Slot.sub, List.append_assoc]

theorem step_insert_failed {path : Str} {names : List Str} {limit : Int} {io : Io} (hio : io.whole)
    (h : (v.step (.insertFontRecordIfUnderLimit path names limit) io).1 ≠ FontErrorCode.ok) :
    (v.step (.insertFontRecordIfUnderLimit path names limit) io).2 = v := by
  cases hread : io.ok with
  | false => rw [View.step_unreadable hread]
  | true => ?_
  rw [View.step_readable hread] at h ⊢
  cases v with
  | none => rfl
  | some rs =>
    simp only [View.edit, RecordStore.edit] at h ⊢
    split at h
    · exact absurd rfl h
    · split at h
      · rw [if_neg ‹_›, if_pos ‹_›]
        rfl
      · rw [if_neg ‹_›, if_neg ‹_›]
        rcases hio with hwrite | hwrite <;> rw [hwrite] at h ⊢
        · exact absurd rfl h
        · rfl

theorem step_insertScope_failed {record : FontRecordInfo} {io : Io} (hio : io.whole)
    (h : (v.step (.insertScopeFontRecord record) io).1 = false) :
    (v.step (.insertScopeFontRecord record) io).2 = v := by
  cases hread : io.ok with
  | false => rw [View.step_unreadable hread]
  | true => ?_
  rw [View.step_readable hread] at h ⊢
  cases v with
  | none => rfl
  | some rs =>
    rcases hio with hwrite | hwrite <;> rw [hwrite] at h ⊢
    · cases h
    · rfl

theorem quiet_publish (type : FontEventType) (name : Str) :
    always (P := sig) (fun _ _ => True) quiet (FontManager.publishFontUpdate type name u) :=
  always_perform fun _ _ h => h

theorem copied (hs : s.Valid) (h : Untouched u v₀ w₀ v w) {env : Env} {fd : Fd}
    (hname : s.name = FontManager.taggedName env (getFileName (getFilePathByFd fd)))
    {Q : Str → World → Prop → Prop} (hfail : ∀ w', Untouched u v₀ w₀ v w' → Q [] w' False)
    (hdone : ∀ w', Stored u s v w fd.content w' →
      Q (dirPath (userDir u ++ s.dir.toList) ++ s.name) w' (False ∨ Occupied w (s.loc u))) :
    Logs (FontManager.copyFileForInstall env (dirPath (userDir u ++ s.dir.toList))
      (getFileName (getFilePathByFd fd)) fd) Q w False := by
  have hplain := root_plain hs u
  have hconfig := configLoc_not_copied (u := u) hs
  have hloc : userDir u ++ s.dir.toList ++ [s.name] = s.loc u := by
    rw [Slot.loc, Slot.sub, List.append_assoc]
  refine copyFileForInstall hplain (hname ▸ hs.tagged.plain) (hname ▸ tempDir_ne_name hs.tagged)
    (fun w' hf => ?_) fun w' hf hfile => ?_
  · rw [← hname] at hf
    exact hfail w' (h.frame hf (fun l hl => temp_inTemp hs hl) fun hl => hconfig (Or.inl hl))
  · rw [← hname] at hf hfile ⊢
    rw [hloc] at hfile ⊢
    exact hdone w' ⟨h.view.frame hf hconfig, hf, hfile⟩

theorem copyAndInsertFont {env : Env} {fd : Fd} {limit : Int} (h : Untouched u v₀ w₀ v w) :
    Logs (FontManager.copyAndInsertFont env fd u (getFullNamesByFd fd) limit) (Verdict u w₀) w
      False := by
  have hs := userSlot_valid env fd
  have hroot : dirPath (userDir u ++ (userSlot env fd).dir.toList) = installPath u := by
    rw [installPath_eq]
    exact congrArg dirPath (List.append_nil _)
  have hloc : locate (installPath u ++ (userSlot env fd).name) = (userSlot env fd).loc u := by
    rw [installPath_eq, locate_name (userDir_plain u) hs.tagged.plain]
    rfl
  have hne : installPath u ++ (userSlot env fd).name ≠ [] := by simp [installPath_eq, dirPath]
  have hcopied := @copied u w₀ w v₀ v (userSlot env fd) hs h env fd rfl
  rw [hroot] at hcopied
  unfold FontManager.copyAndInsertFont
  refine Logs.bind (hcopied (fun w₁ h₁ => Logs.pure (verdict_early h₁)) fun w₁ h₁ => ?_)
  rw [if_neg hne]
  refine Logs.bind (Logs.quietly (always_perform (quiet_config u _))
    (Obeys.config h₁.view fun io w₂ hio hf₂ hv₂ => ?_))
  split
  · rename_i hcode
    rw [step_insert_failed hio hcode] at hv₂
    exact Stored.rollback hs hne hloc h h₁ hv₂ hf₂
  · exact Logs.bind (Logs.quietly (quiet_publish _ _) (Obeys.publishFontUpdate fun _ =>
      Logs.pure verdict_ok))

theorem checkAndInit (hp : v₀.Placed) (hv₀ : v₀.Shows u w₀) {f : Bool → FontTask FontErrorCode}
    (h : ∀ (b : Bool) (w : World) (v : View), v.Placed → Untouched u v₀ w₀ v w →
      Logs (f b) (Verdict u w₀) w False) :
    Logs (FontManagerUtils.checkAndInitInstallPath (installPath u) >>= f) (Verdict u w₀) w₀ False := by
  refine Logs.bind (Logs.quietly (quiet_still.toSetup.checkAndInitInstallPath _)
    (checkAndInitInstallPath hv₀ fun b w v hrecords hv hintact => ?_))
  have hplaced : v.Placed := fun r hr => hp r (hrecords ▸ hr)
  have hfewer : Fewer u w₀ v₀ v := by
    rw [Fewer, hrecords]
    exact .refl _
  exact h b w v hplaced ⟨hv₀, hv, hfewer, hintact⟩

theorem quiet_fixStaleRecords (names : List Str) :
    always (P := sig) (fun _ _ => True) quiet
      (FontManager.fixStaleRecords u (installPath u) names) := by
  induction names with
  | nil => exact always_pure _
  | cons n rest ih =>
    refine always_bind (always_perform (quiet_config u _)) fun findPath => ?_
    split
    · exact ih
    · refine always_bind (quiet_still.stillTask _ rfl) fun b => ?_
      cases b with
      | true => exact always_pure _
      | false =>
        refine always_bind (always_perform (quiet_config u _)) fun deleted => ?_
        cases deleted with
        | true => exact ih
        | false => exact always_pure _

theorem installFont (hp : v₀.Placed) (hv₀ : v₀.Shows u w₀) (env : Env) (fd : Fd) :
    Logs (FontManager.installFont env fd u) (Verdict u w₀) w₀ False := by
  refine checkAndInit hp hv₀ fun b w v hplaced h => ?_
  cases b with
  | false => exact Logs.pure (verdict_early h)
  | true =>
    simp only [if_true]
    split
    · exact Logs.pure (verdict_early h)
    · refine Logs.bind (Logs.quietly (quiet_fixStaleRecords _) (fixStaleRecords hplaced h.view h.fewer
        h.intact fun code w₁ v₁ hcode _ hv₁ hfewer₁ hintact₁ => ?_))
      have h₁ : Untouched u v₀ w₀ v₁ w₁ := ⟨h.start, hv₁, hfewer₁, hintact₁⟩
      cases code with
      | some code => exact Logs.pure (verdict_early h₁)
      | none =>
        refine Logs.bind (Logs.quietly (always_perform fun _ _ h => h) (Obeys.perform fun _ _ => ?_))
        refine Logs.bind (Logs.quietly (always_perform (quiet_config u _))
          (Obeys.answered (w := w₁) hv₁ v₁.edit_getInstalledFontsNum fun n => ?_))
        split
        · exact Logs.pure (verdict_early h₁)
        · exact copyAndInsertFont h₁

theorem copyAndInsertScopeFont {env : Env} {info : ScopeFontInstallInfo} (hu : info.userId = u)
    (hid : ∃ t, info.appIdentifier = makeAppIdentifier info.scope t) (h : Untouched u v₀ w₀ v w) :
    Logs (FontManager.copyAndInsertScopeFont env info) (Verdict u w₀) w False := by
  obtain rfl := hu
  obtain ⟨t, hid⟩ := hid
  have hs : (appSlot env info.fd info.appIdentifier).Valid :=
    hid ▸ appSlot_valid env info.fd info.scope t
  have hplain : ∀ c ∈ userDir info.userId ++ [info.appIdentifier], Plain c := root_plain hs info.userId
  have hroot : dirPath (userDir info.userId ++ (appSlot env info.fd info.appIdentifier).dir.toList) =
      FontManager.getAppInstallPath info.userId info.appIdentifier := by
    rw [getAppInstallPath_eq]
    rfl
  have happ : FontManager.getAppInstallPath info.userId info.appIdentifier =
      dirPath (userDir info.userId ++ [info.appIdentifier]) := hroot.symm
  have hloc : locate (FontManager.getAppInstallPath info.userId info.appIdentifier ++
      (appSlot env info.fd info.appIdentifier).name) =
        (appSlot env info.fd info.appIdentifier).loc info.userId := by
    rw [happ, locate_name hplain hs.tagged.plain, List.append_assoc]
    rfl
  have hne : FontManager.getAppInstallPath info.userId info.appIdentifier ++
      (appSlot env info.fd info.appIdentifier).name ≠ [] := by simp [happ, dirPath]
  unfold FontManager.copyAndInsertScopeFont
  refine Logs.bind (Logs.quietly (quiet_still.toSetup.checkAndInitScopeFontPath _)
    (checkAndInitScopeFontPath (u := info.userId) (by simp [happ, dirPath]) fun b w₁ h₁ hf₁ => ?_))
  rw [happ, locate_dirPath hplain, locate_dir_tempFile hplain] at hf₁
  have hnot : ∀ l, configLoc info.userId ≠ userDir info.userId ++ info.appIdentifier :: l :=
    fun l he => userDir_noPrefix_configLoc (hid ▸ fontConfigFile_ne_app info.scope t)
      (FileTree.prefix_of_eq he.symm)
  have hv₁ := h.view.frame hf₁ (by simpa using ⟨hnot [], hnot [tempDir]⟩)
  have hu₁ : Untouched info.userId v₀ w₀ v w₁ := ⟨h.start, hv₁, h.fewer, h.intact.trans h₁⟩
  cases b with
  | false => exact Logs.pure (verdict_early hu₁)
  | true =>
    have hcopied := @copied info.userId w₀ w₁ v₀ v (appSlot env info.fd info.appIdentifier) hs hu₁ env
      info.fd rfl
    rw [hroot] at hcopied
    refine Logs.bind (hcopied (fun w₂ h₂ => Logs.pure (verdict_early h₂)) fun w₂ h₂ => ?_)
    rw [if_neg hne]
    refine Logs.bind (Logs.quietly (always_perform (quiet_config info.userId _))
      (Obeys.config h₂.view fun io w₃ hio hf₃ hv₃ => ?_))
    split
    · exact Logs.pure verdict_ok
    · rename_i hreply
      rw [step_insertScope_failed hio (by simpa using hreply)] at hv₃
      exact Stored.rollback hs hne hloc hu₁ h₂ hv₃ hf₃

theorem installScopeFont {info : ScopeFontInstallInfo} (hu : info.userId = u) (hp : v₀.Placed)
    (hv₀ : v₀.Shows u w₀) (hid : ∃ t, info.appIdentifier = makeAppIdentifier info.scope t)
    (env : Env) : Logs (FontManager.installScopeFont env info) (Verdict u w₀) w₀ False := by
  have hstart : Untouched u v₀ w₀ v₀ w₀ := ⟨hv₀, hv₀, .refl _, .refl u w₀⟩
  obtain rfl := hu
  unfold FontManager.installScopeFont
  split
  · exact Logs.pure (verdict_early hstart)
  · refine checkAndInit hp hv₀ fun b w v hplaced h => ?_
    cases b with
    | false => exact Logs.pure (verdict_early h)
    | true =>
      refine Logs.bind (Logs.quietly (always_perform (quiet_config _ _))
        (Obeys.answered h.view v.edit_checkAndUpdateFontRecord fun b => ?_))
      split
      · refine Logs.bind (Logs.quietly ((quiet_query _).validateScopeFontForInstall _ _)
          ((validateScopeFontForInstall_same h.view _ _).mono fun ret w' hw' => ?_))
        subst hw'
        split
        · exact Logs.pure (verdict_early h)
        · refine Logs.bind ((copyAndInsertScopeFont rfl hid h).mono fun code w₁ b hcode => ?_)
          split
          · exact Logs.pure hcode
          · exact Logs.bind (Logs.quietly (quiet_publish _ _) (Obeys.publishFontUpdate fun _ =>
              Logs.pure verdict_ok))
      · exact Logs.pure (verdict_early h)

theorem call_verdict {c : FontCall} (hc : installs c) (hp : v₀.Placed) (hv₀ : v₀.Shows u w₀) :
    Logs (c.program u) (Verdict u w₀) w₀ False := by
  cases c with
  | installFont env fd => exact installFont hp hv₀ env fd
  | installScopeFont env fd scope srcPath bundleName t =>
    exact @installScopeFont u w₀ v₀ (FontCall.info u fd scope srcPath bundleName t) rfl hp hv₀
      ⟨t, rfl⟩ env
  | _ => exact hc.elim

end verdict

theorem failed_install_unchanged_iff {u : Int} {w w' : World} {code : FontErrorCode}
    (es : List (FontCall × List Io)) (c : FontCall) (ios : List Io) (hc : installs c)
    (h : w.config u = some emptyConfig)
    (hios : Along semantics settled (c.program u) ((FontCall.service u).after w es) ios)
    (hrun : (FontCall.service u).complete ((FontCall.service u).after w es) (c, ios) = (code, w'))
    (hcode : code ≠ .ok) :
    Unchanged u ((FontCall.service u).after w es) w' ↔
      Along semantics (fun w o io => ¬ overwrites w o io) (c.program u)
        ((FontCall.service u).after w es) ios := by
  obtain ⟨v, hp, -, hv⟩ := UninstallInverse.reachable_userPaths h es
  have hverdict := ((call_verdict hc hp hv).run (along_logged.mpr hios)).2
  obtain ⟨hreply, hworld, hlog⟩ := @run_logged _ _ _ _ semantics _ overwrites (c.program u)
    ((FontCall.service u).after w es) False ios
  change Verdict u _ _ _ _ at hverdict
  rw [hreply, hworld] at hverdict
  change (c.program u).run semantics ((FontCall.service u).after w es) ios = (code, w') at hrun
  rw [hrun] at hverdict
  rw [hverdict hcode, hlog, false_or, not_not]

section sameSecond

theorem settled_of_done {io : Io} (hok : io.ok = true) (hwhole : io.whole) (w : World) (o : Op) :
    settled w o io := by
  cases o with
  | config u op => exact hwhole
  | file op => cases op <;> first | exact hok | exact hwhole | trivial
  | _ => trivial

-- The insertion is the fourteenth operation of an install into an existing directory.
def insertFails : List Io := List.replicate 13 default ++ [{ write := .openFails }]

theorem insertFails_settled {c : FontCall} {w : World} :
    Along semantics settled (c.program 100) w insertFails := by
  refine Along.of_forall (fun io hio w o => settled_of_done ?_ ?_ w o) _ _
  all_goals
    simp only [insertFails, List.mem_cons, List.mem_append, List.mem_replicate, List.not_mem_nil,
      or_false] at hio
    rcases hio with rfl | ⟨-, rfl⟩ | rfl
  · rfl
  · rfl
  · rfl
  · exact Or.inl rfl
  · exact Or.inl rfl
  · exact Or.inr rfl

def scopeInstall (second : Nat) (name srcPath : String) : FontCall :=
  .installScopeFont (Sample.noon second)
    (Sample.sourceFont name.toList 1) fontScopeApp srcPath.toList "bundle".toList 5

def first : FontCall × List Io := (scopeInstall 0 "A" "/src/a.ttf", [])

def before : World := (FontCall.service 100).after (.provisioned [100]) [first]

def failed (second : Nat) : FontErrorCode × World :=
  (FontCall.service 100).complete before (scopeInstall second "B" "/src/b.ttf", insertFails)

def firstSlot : Slot :=
  appSlot (Sample.noon 0) (Sample.sourceFont "A".toList 1)
    (makeAppIdentifier fontScopeApp 5)

set_option maxRecDepth 8000 in
theorem older_font_deleted :
    ¬ ∀ (u : Int) (w w' : World) (code : FontErrorCode) (es : List (FontCall × List Io)) (c : FontCall)
      (ios : List Io), installs c → w.config u = some emptyConfig →
      Along semantics settled (c.program u) ((FontCall.service u).after w es) ios →
      (FontCall.service u).complete ((FontCall.service u).after w es) (c, ios) = (code, w') →
      code ≠ .ok → Unchanged u ((FontCall.service u).after w es) w' := by
  intro h
  have hunchanged := h 100 (.provisioned [100]) (failed 0).2 .systemError [first]
    (scopeInstall 0 "B" "/src/b.ttf") insertFails trivial rfl insertFails_settled
    (Prod.ext (by decide +kernel) rfl) (by decide)
  have hslot : firstSlot.Valid := appSlot_valid _ _ _ _
  have hlookup : before.tree.lookup (firstSlot.loc 100) = some (.bytes [1]) := by rfl
  have hkept := (hunchanged.files _ (loc_not_temp hslot List.prefix_rfl)
    (loc_not_config hslot List.prefix_rfl) (.bytes [1]) (by simp)).mpr hlookup
  have hgone : ((failed 0).2.tree.lookup (firstSlot.loc 100)).isSome = false := by decide +kernel
  rw [hkept] at hgone
  cases hgone

def free (w : World) : Op → Bool
  | .file (.rename _ dest) => w.tree.all fun x => !FileTree.under (locate dest) x.1 ||
    match x.2 with
    | .dir => true
    | _ => false
  | _ => true

theorem not_overwrites {w : World} {o : Op} {io : Io} (h : free w o = true) :
    ¬ overwrites w o io := by
  cases o with
  | file op =>
    cases op with
    | rename src dest =>
      rintro ⟨-, l, hl, e, he, hlookup⟩
      have hx := List.all_eq_true.mp h _ (FileTree.mem_of_lookup hlookup)
      rw [FileTree.under_iff.mpr hl] at hx
      cases e with
      | dir => exact he rfl
      | _ => cases hx
    | _ => exact fun h => h
  | _ => exact fun h => h

set_option maxRecDepth 8000 in
theorem next_second_unchanged : Unchanged 100 before (failed 1).2 :=
  (failed_install_unchanged_iff [first] (scopeInstall 1 "B" "/src/b.ttf") insertFails trivial rfl
    insertFails_settled (Prod.ext (by decide +kernel : (failed 1).1 = .systemError) rfl)
    (by decide)).mpr
    (Along.mono (fun _ _ _ => not_overwrites)
      (by decide +kernel : Along semantics (fun w o _ => free w o = true)
        ((scopeInstall 1 "B" "/src/b.ttf").program 100) before insertFails))

end sameSecond

end FailedInstall
