import FontManager.Sequential.MigrationRecords
import FontManager.Sequential.SourcePrivacy

open FontDefine FontManagerUtils FontLocation FontConfig CJson Interaction DataMigrationManager

namespace World

open FileTree

variable {w : World}

theorem unique_copy (h : Unique w.tree) (fd : Fd) (path : Str) (io : Io) :
    Unique (w.copy fd path io).2.tree := by
  unfold copy
  split
  · exact h
  · split <;> exact h.put _ _

theorem unique_applyEdit {α : Type} (h : Unique w.tree) (path : Str) (outcome : WriteOutcome)
    (e : Edit Json α) : Unique (w.applyEdit path outcome e).2.tree := by
  cases e with
  | keep reply => exact h
  | write json done failed =>
    cases outcome with
    | openFails => exact h
    | _ => exact h.put _ _

theorem unique_execFile (h : Unique w.tree) (io : Io) (op : FileOp) :
    Unique (w.execFile io op).2.tree := by
  cases op with
  | createDirectory path =>
    change Unique (w.createDirectory path io).2.tree
    unfold createDirectory
    split
    · exact h
    · split
      · exact h
      · exact h
      · split
        · exact h.put _ _
        · exact h
  | createConfig path =>
    change Unique (w.createConfig path io).2.tree
    unfold createConfig
    split
    · exact h
    · split
      · exact h.put _ _
      · exact h
      · exact h.put _ _
      · exact h.put _ _
  | copy fd path => exact unique_copy h fd path io
  | rename src dest =>
    change Unique (w.rename src dest io.ok).2.tree
    unfold rename
    split
    · split
      · exact (h.keep _).put _ _
      · exact h
    · exact h
  | removeAll path =>
    change Unique (w.removeAll path io).2.tree
    unfold removeAll
    split
    · exact h.prune _
    · exact h.keep fun loc => !under (locate path) loc || io.remains loc
  | _ => exact h

theorem createDirectory_provides (w : World) (path : Str) (io : Io) :
    (∀ l, (w.createDirectory path io).2.tree.lookup l = w.tree.lookup l ∨
      l = locate path ∧ w.tree.lookup l = none ∧
        (w.createDirectory path io).2.tree.lookup l = some .dir) ∧
    ((w.createDirectory path io).1 = true →
      ((w.createDirectory path io).2.tree.lookup (locate path)).isSome = true) := by
  have same : (∀ l, w.tree.lookup l = w.tree.lookup l ∨
      l = locate path ∧ w.tree.lookup l = none ∧ w.tree.lookup l = some .dir) := fun _ => .inl rfl
  unfold createDirectory
  split
  · exact ⟨same, by simp⟩
  · split
    · rename_i hdir
      exact ⟨same, fun _ => by rw [entry] at hdir; simp [hdir]⟩
    · exact ⟨same, by simp⟩
    · rename_i hnone
      split
      · refine ⟨fun l => ?_, fun _ => by simp [put]⟩
        by_cases hl : l = locate path
        · subst hl
          exact .inr ⟨rfl, hnone, FileTree.lookup_put_self⟩
        · exact .inl (FileTree.lookup_put_ne (Ne.symm hl))
      · exact ⟨same, by simp⟩

end World

namespace Process

open FileTree

variable {C : Type}

structure Settled (users : List Int) (s : Process C) : Prop where
  unique : Unique s.world.tree
  users : s.world.createdUserIds = users

theorem Settled.exec {users : List Int} {s : Process C} (h : s.Settled users) (o : ProcessOp C)
    (io : Io) : (s.exec o io).2.Settled users := by
  obtain ⟨hu, hc⟩ := h
  cases o with
  | font o =>
    refine ⟨?_, (World.exec_createdUserIds s.world o io).trans hc⟩
    cases o with
    | config u op => exact World.unique_applyEdit hu _ _ _
    | file op => exact World.unique_execFile hu io op
    | registry op => cases op <;> exact hu
    | _ => exact hu
  | copyFile source path =>
    refine ⟨?_, (World.copyEntry_frame s.world source path io).createdUserIds.trans hc⟩
    change Unique (s.world.copyEntry source path io).2.tree
    cases source with
    | dir => exact hu
    | bytes content => exact World.unique_copy hu _ _ _
    | document json =>
      unfold World.copyEntry
      dsimp only
      split
      · exact hu
      · split <;> exact hu.put _ _
  | renameFile src dest =>
    refine ⟨?_, (World.renameEntry_frame s.world src dest io.ok).createdUserIds.trans hc⟩
    change Unique (s.world.renameEntry src dest io.ok).2.tree
    unfold World.renameEntry
    split
    · exact hu
    · exact (hu.keep _).put _ _
  | removeEmpty path =>
    have hempty : Unique (s.world.removeEmpty path io.ok).2.tree ∧
        (s.world.removeEmpty path io.ok).2.createdUserIds = users := by
      unfold World.removeEmpty
      split
      · exact ⟨hu.prune _, hc⟩
      · exact ⟨hu, hc⟩
    exact ⟨hempty.1, hempty.2⟩
  | postTask task =>
    change Settled users (if io.ok then _ else s)
    split <;> exact ⟨hu, hc⟩
  | _ => exact ⟨hu, hc⟩

end Process

namespace Migration

variable {C : Type} {users : List Int} {w w' w'' : World}

def sharedTemp : Loc := publicDir ++ [tempDir]

def userTemp (u : Int) : Loc := userDir u ++ [tempDir]

theorem locate_sharedTemp : locate (installPathApp ++ tempFile) = sharedTemp := by
  rw [installPathApp_eq, locate_dir_tempFile (by decide)]
  rfl

theorem locate_userTemp (u : Int) : locate (userPath u ++ tempFile) = userTemp u := by
  rw [userPath_eq, locate_dir_tempFile (userDir_plain u)]
  rfl

theorem userTemp_not_shared (u : Int) : ¬ publicDir <+: userTemp u :=
  not_shared_of_below (List.prefix_append _ _)

theorem shared_of_temp {l : Loc} (h : sharedTemp <+: l) : publicDir <+: l :=
  (List.prefix_append publicDir [tempDir]).trans h

-- Temp directories of users are made where nothing was.
def Provided (users : List Int) (w w' : World) : Prop :=
  ∀ l, w'.tree.lookup l = w.tree.lookup l ∨
    (∃ u ∈ users, l = userTemp u) ∧ w.tree.lookup l = none ∧ w'.tree.lookup l = some .dir

theorem Provided.trans (h : Provided users w w') (h' : Provided users w' w'') :
    Provided users w w'' := by
  intro l
  rcases h' l with hsame | ⟨htemp, hnone, hdir⟩
  · rw [hsame]
    exact h l
  · rcases h l with hsame | ⟨-, -, hdir'⟩
    · exact .inr ⟨htemp, hsame ▸ hnone, hdir⟩
    · rw [hdir'] at hnone
      cases hnone

theorem Provided.mono {users' : List Int} (h : Provided users w w') (hsub : users ⊆ users') :
    Provided users' w w' := fun l =>
  (h l).imp_right fun ⟨⟨u, hu, hl⟩, hrest⟩ => ⟨⟨u, hsub hu, hl⟩, hrest⟩

theorem Provided.occupied (h : Provided users w w') {l : Loc}
    (hl : (w.tree.lookup l).isSome = true) : w'.tree.lookup l = w.tree.lookup l := by
  rcases h l with hsame | ⟨-, hnone, -⟩
  · exact hsame
  · rw [hnone] at hl
    cases hl

theorem Provided.away (h : Provided users w w') {l : Loc} (hl : ∀ u ∈ users, l ≠ userTemp u) :
    w'.tree.lookup l = w.tree.lookup l := by
  rcases h l with hsame | ⟨⟨u, hu, he⟩, -⟩
  · exact hsame
  · exact absurd he (hl u hu)

-- What InitDataMigrationEnv leaves of the shared directory: its temp directory holds no file.
structure Entered (users : List Int) (w w' : World) : Prop where
  outside : ∀ l, ¬ sharedTemp <+: l → w'.tree.lookup l = w.tree.lookup l ∨
    (∃ u ∈ users, l = userTemp u) ∧ w.tree.lookup l = none ∧ w'.tree.lookup l = some .dir
  shared : ∀ l, publicDir <+: l → w'.tree.lookup l = w.tree.lookup l ∨ w'.tree.lookup l = none
  cleared : ∀ l e, sharedTemp <+: l → w'.tree.lookup l = some e → e.isFile = false

theorem Entered.occupied (h : Entered users w w') {l : Loc} (hl : ¬ sharedTemp <+: l)
    (hsome : (w.tree.lookup l).isSome = true) : w'.tree.lookup l = w.tree.lookup l := by
  rcases h.outside l hl with hsame | ⟨-, hnone, -⟩
  · exact hsame
  · rw [hnone] at hsome
    cases hsome

theorem Entered.userDir (h : Entered users w w') {u : Int}
    (hu : (w.tree.lookup (userDir u)).isSome = true) : (w'.tree.lookup (userDir u)).isSome = true := by
  rwa [h.occupied (fun hl => not_shared_of_below List.prefix_rfl (shared_of_temp hl)) hu]

theorem Entered.provide (h : Entered users w w') (h' : Provided users w' w'') :
    Entered users w w'' := by
  have away : ∀ l, publicDir <+: l → w''.tree.lookup l = w'.tree.lookup l := fun l hl =>
    h'.away fun u _ he => userTemp_not_shared u (he ▸ hl)
  refine ⟨fun l hl => ?_, fun l hl => ?_, fun l e hl he => ?_⟩
  · rcases h' l with hsame | ⟨htemp, hnone, hdir⟩
    · rw [hsame]
      exact h.outside l hl
    · rcases h.outside l hl with hsame' | ⟨-, -, hdir'⟩
      · exact .inr ⟨htemp, hsame' ▸ hnone, hdir⟩
      · rw [hdir'] at hnone
        cases hnone
  · rw [away l hl]
    exact h.shared l hl
  · rw [away l (shared_of_temp hl)] at he
    exact h.cleared l e hl he

theorem mem_files_of_lookup {root l : Loc} {e : Entry} (hroot : root <+: l)
    (he : w.tree.lookup l = some e) (hfile : e.isFile = true) : l ∈ w.files root := by
  refine List.mem_filterMap.mpr ⟨(l, e), FileTree.mem_of_lookup he, ?_⟩
  cases e with
  | dir => cases hfile
  | _ => simpa using hroot

end Migration

namespace Migration

variable {C α : Type} {ok : Process C → ProcessOp C → Io → Prop} {users : List Int} {w w' : World}
  {fontNames : Entry → List Str}

-- What GetFullNamesByPath finds: a directory holds no font.
def ofFile (fontNames : Entry → List Str) : Entry → List Str
  | .dir => []
  | e => fontNames e

def Faulty (fontNames : Entry → List Str) (s : Process C) (o : ProcessOp C) (io : Io) : Prop :=
  Truthful s o io ∧ Reading (ofFile fontNames) s o io

def succeeds (s : Process C) : ProcessOp C → Io → Bool
  | .font (.file (.createDirectory path)), io => (s.world.createDirectory path io).1
  | .font (.file (.removeAll _)), io => io.ok
  | .openFile path, io => (s.world.openFile path io.ok).isSome
  | .copyFile source path, io => (s.world.copyEntry source path io).1
  | .renameFile src dest, io => (s.world.renameEntry src dest io.ok).1
  | _, _ => true

structure Grants (fontNames : Entry → List Str) (ready : Int → World → Prop) (smooth : Prop)
    (ok : Process C → ProcessOp C → Io → Prop) : Prop where
  faulty : ∀ {s o io}, ok s o io → Faulty fontNames s o io
  clears : ∀ {s io}, ok s (.font (.file (.removeAll (installPathApp ++ tempFile)))) io →
    s.world.files sharedTemp = [] ∨ io.ok = true
  ready : ∀ {s u io}, ok s (.font (.config u .checkAndUpdateFontRecord)) io → ready u s.world
  succeeds : smooth → ∀ {s o io}, ok s o io → succeeds s o io = true

abbrev atFont (ok : Process C → ProcessOp C → Io → Prop) (w : World) (o : Op) (io : Io) : Prop :=
  ∃ s : Process C, s.world = w ∧ ok s (.font o) io

end Migration

namespace Obeys

open Migration

variable {okay : World → Op → Io → Prop} {users : List Int} {w : World}

theorem deleteDir_entered (hok : Truthful okay)
    (hclear : ∀ w io, okay w (.file (.removeAll (installPathApp ++ tempFile))) io →
      w.files sharedTemp = [] ∨ io.ok = true)
    (hrooted : ∀ l ∈ w.files sharedTemp, (w.tree.lookup sharedTemp).isSome = true) :
    Obeys okay (deleteDir (installPathApp ++ tempFile)) (fun _ w' => Entered users w w') w := by
  have hexists : w.pathExists (installPathApp ++ tempFile) = (w.tree.lookup sharedTemp).isSome := by
    rw [World.pathExists, World.entry, locate_sharedTemp]
  have hbelow : ∀ l, sharedTemp <+: l → ∀ e, w.tree.lookup l = some e → e.isFile = true →
      l ∈ w.files sharedTemp := fun l hl e he hfile => mem_files_of_lookup hl he hfile
  refine bind (checkPathExist hok (by decide) ?_)
  cases hfound : w.pathExists (installPathApp ++ tempFile) with
  | false =>
    refine pure ⟨fun _ _ => .inl rfl, fun _ _ => .inl rfl, fun l e hl he => ?_⟩
    by_contra hfile
    have hsome := hrooted l (hbelow l hl e he (by simpa using hfile))
    rw [← hexists, hfound] at hsome
    cases hsome
  | true =>
    refine bind (perform fun io hio => pure ?_)
    have hframe := World.removeAll_frame w (installPathApp ++ tempFile) io
    rw [locate_sharedTemp] at hframe
    have hshrinks := removeAll_shrinks w (installPathApp ++ tempFile) io
    refine ⟨fun l hl => .inl (hframe.tree l hl), fun l _ => hshrinks l, fun l e hl he => ?_⟩
    rcases hclear w io hio with hempty | hdone
    · by_contra hfile
      rcases hshrinks l with hsame | hgone
      · have hmem := hbelow l hl e (hsame.symm.trans he) (by simpa using hfile)
        rw [hempty] at hmem
        cases hmem
      · cases hgone.symm.trans he
    · have hpruned : (w.exec (.file (.removeAll (installPathApp ++ tempFile))) io).2.tree =
          w.tree.prune sharedTemp := by
        change (w.removeAll (installPathApp ++ tempFile) io).2.tree = _
        rw [World.removeAll, if_pos hdone, locate_sharedTemp]
      rw [hpruned, FileTree.lookup_prune, if_pos hl] at he
      cases he

theorem checkOrCreateDir_provides (hok : Truthful okay) {path : Str} (hp : path ≠ [])
    (hdot : '.' ∉ path) {smooth : Prop}
    (hmade : smooth → ∀ w io, okay w (.file (.createDirectory path)) io →
      (w.createDirectory path io).1 = true) :
    Obeys okay (checkOrCreateDir path)
      (fun b w' => (∀ l, w'.tree.lookup l = w.tree.lookup l ∨
          l = locate path ∧ w.tree.lookup l = none ∧ w'.tree.lookup l = some .dir) ∧
        (b = true → (w'.tree.lookup (locate path)).isSome = true) ∧ (smooth → b = true)) w := by
  refine bind (checkPathExist hok hp ?_)
  cases hfound : w.pathExists path with
  | true => exact pure ⟨fun _ => .inl rfl, fun _ => hfound, fun _ => rfl⟩
  | false =>
    change Obeys okay (createDirWithPermission path) _ w
    rw [createDirWithPermission, if_neg (by simp [hp, SourcePrivacy.hasDotComponent_of_noDot hdot])]
    refine perform fun io hio => ?_
    obtain ⟨hprovides, hsome⟩ := World.createDirectory_provides w path io
    exact ⟨hprovides, hsome, fun hs => hmade hs w io hio⟩

theorem granted {C : Type} {ok : Process C → ProcessOp C → Io → Prop} {fontNames : Entry → List Str}
    {ready : Int → World → Prop} {smooth : Prop} (h : Grants fontNames ready smooth ok) :
    Truthful (atFont ok) where
  sees := fun ⟨_, _, hio⟩ => (h.faulty hio).1 _ rfl
  whole := fun ⟨_, _, hio⟩ => Or.inl (h.faulty hio).2.2.1

end Obeys

namespace Migration

variable {C α : Type} {ok : Process C → ProcessOp C → Io → Prop} {users : List Int} {w w' : World}
  {fontNames : Entry → List Str}

theorem userPath_ne_nil (u : Int) : userPath u ≠ [] := by
  rw [userPath_eq]
  simp [dirPath]

theorem steady_font {p : FontTask α} {Q : α → World → Prop} {s : Process C}
    (h : Obeys (atFont ok) p Q s.world) :
    Steady ok (fun _ => True) (font p) (fun a s' => Q a s'.world ∧ s' = s.withWorld s'.world) s := by
  induction p generalizing s with
  | done a => exact ⟨trivial, h.2, rfl⟩
  | call o k ih =>
    refine ⟨trivial, fun io hio => ?_⟩
    exact @ih _ (s.withWorld (s.world.exec o io).2) (h.2 io ⟨s, rfl, hio⟩)

section entering

variable {ready : Int → World → Prop} {smooth : Prop} {s : Process C}

theorem pathExists_userPath (w : World) (u : Int) :
    w.pathExists (userPath u) = (w.tree.lookup (userDir u)).isSome := by
  rw [World.pathExists, World.entry, userPath_eq, locate_dirPath (userDir_plain u)]

theorem checkAllUserDir_steady (h : Grants fontNames ready smooth ok) :
    Steady ok (fun _ => True) (checkAllUserDir users)
      (fun b s' => s' = s ∧
        ((∀ u ∈ users, (s.world.tree.lookup (userDir u)).isSome = true) → b = true)) s := by
  induction users with
  | nil => exact .pure trivial ⟨rfl, fun _ => rfl⟩
  | cons u users ih =>
    refine steady_exists trivial (fun _ => ?_) fun io hio hmissing =>
      .pure trivial ⟨rfl, fun hdirs => ?_⟩
    · refine ih.mono (fun _ h => h) fun b s' _ ⟨hs', hb⟩ => ⟨hs', fun hdirs => hb fun v hv => ?_⟩
      exact hdirs v (List.mem_cons_of_mem _ hv)
    · have hthere := hdirs u (by simp)
      have habsent := hmissing ((h.faulty hio).1 _ rfl) (userPath_ne_nil u)
      rw [pathExists_userPath, hthere] at habsent
      cases habsent

theorem initDataMigrationTempDir_steady (h : Grants fontNames ready smooth ok) :
    Steady ok (fun _ => True) (initDataMigrationTempDir users)
      (fun b s' => Provided users s.world s'.world ∧
        (b = true → ∀ u ∈ users, (s'.world.tree.lookup (userTemp u)).isSome = true) ∧
        (smooth → b = true)) s := by
  induction users generalizing s with
  | nil => exact .pure trivial ⟨fun _ => .inl rfl, by simp, fun _ => rfl⟩
  | cons u users ih =>
    have hpath : userPath u ++ tempFile ≠ [] := by simp [userPath_ne_nil]
    have hdot : '.' ∉ userPath u ++ tempFile :=
      SourcePrivacy.tempFile_noDot (SourcePrivacy.installPath_noDot u)
    have hmake : smooth → ∀ w io, atFont ok w (.file (.createDirectory (userPath u ++ tempFile))) io →
        (w.createDirectory (userPath u ++ tempFile) io).1 = true := by
      rintro hs w io ⟨s, rfl, hio⟩
      exact h.succeeds hs hio
    have hcreate := @Obeys.checkOrCreateDir_provides _ s.world (Obeys.granted h) _ hpath hdot _ hmake
    refine .bind ((steady_font hcreate).mono (fun _ h => h) fun b s' _ hb => ?_)
    obtain ⟨⟨hnew, hmade, hsmooth⟩, -⟩ := hb
    rw [locate_userTemp] at hnew hmade
    have hprovided : Provided (u :: users) s.world s'.world := by
      intro l
      rcases hnew l with hsame | ⟨hl, hrest⟩
      · exact .inl hsame
      · exact .inr ⟨⟨u, by simp, hl⟩, hrest⟩
    cases b with
    | false => exact .pure trivial ⟨hprovided, by simp, fun hm => absurd (hsmooth hm) (by simp)⟩
    | true =>
      refine ih.mono (fun _ h => h) fun b s'' _ hrest => ⟨?_, fun hb v hv => ?_, hrest.2.2⟩
      · exact hprovided.trans (hrest.1.mono (List.subset_cons_self u users))
      · rcases List.mem_cons.mp hv with rfl | hv
        · rw [hrest.1.occupied (hmade rfl)]
          exact hmade rfl
        · exact hrest.2.1 hb v hv

structure Prepared (users : List Int) (smooth : Prop) (w w' : World)
    (code : DataMigrationResultCode) : Prop where
  entered : Entered users w w'
  temps : code = .ok → ∀ u ∈ users, (w'.tree.lookup (userTemp u)).isSome = true
  idle : code = .notNeedDataMigration → w'.files publicDir = []
  smooth : smooth → code = .ok ∨ code = .notNeedDataMigration

theorem checkUsers_steady (h : Grants fontNames ready smooth ok)
    (hrooted : ∀ l ∈ s.world.files sharedTemp, (s.world.tree.lookup sharedTemp).isSome = true)
    (hdirs : ∀ u ∈ users, (s.world.tree.lookup (userDir u)).isSome = true) :
    Steady ok (fun _ => True) (checkUsers users)
      (fun code s' => Prepared users smooth s.world s'.world code) s := by
  have hclean := @Obeys.deleteDir_entered _ users s.world (Obeys.granted h)
    (fun w io ⟨s, hw, hio⟩ => hw ▸ h.clears hio) hrooted
  refine .bind ((steady_font hclean).mono (fun _ h => h) fun _ s₁ _ hs₁ => ?_)
  obtain ⟨hentered, -⟩ := hs₁
  refine ⟨trivial, fun io _ => ?_⟩
  change Steady ok _ (if (s₁.world.files (locate installPathApp)).isEmpty = true then _ else _) _ s₁
  have hroot : locate installPathApp = publicDir := by
    rw [installPathApp_eq, locate_dirPath (by decide)]
  rw [hroot]
  split
  · rename_i hempty
    exact .pure trivial ⟨hentered, by simp, fun _ => List.isEmpty_iff.mp hempty, fun _ => .inr rfl⟩
  · refine .bind ((checkAllUserDir_steady h).mono (fun _ h => h) fun b s₂ _ hb => ?_)
    obtain ⟨rfl, hall⟩ := hb
    cases b with
    | false =>
      exact absurd (hall fun u hu => hentered.userDir (hdirs u hu)) (by simp)
    | true =>
      refine .bind ((initDataMigrationTempDir_steady h).mono (fun _ h => h) fun b s₃ _ hb => ?_)
      obtain ⟨hprovided, hmade, hsmooth⟩ := hb
      have hentered' := hentered.provide hprovided
      cases b with
      | true => exact .pure trivial ⟨hentered', fun _ => hmade rfl, by simp, fun _ => .inl rfl⟩
      | false =>
        exact .pure trivial ⟨hentered', by simp, by simp, fun hs => absurd (hsmooth hs) (by simp)⟩

theorem initDataMigrationEnv_steady (h : Grants fontNames ready smooth ok)
    (husers : s.world.createdUserIds = users) (hne : users ≠ [])
    (hrooted : ∀ l ∈ s.world.files sharedTemp, (s.world.tree.lookup sharedTemp).isSome = true)
    (hdirs : ∀ u ∈ users, (s.world.tree.lookup (userDir u)).isSome = true) :
    Steady ok (fun _ => True) initDataMigrationEnv
      (fun env s' => env.1 = users ∧ Prepared users smooth s.world s'.world env.2) s := by
  subst husers
  refine ⟨trivial, fun io _ => ?_⟩
  change Steady ok _ (if s.world.createdUserIds = [] then _ else
    checkUsers s.world.createdUserIds >>= fun ret => pure (s.world.createdUserIds, ret)) _ s
  rw [if_neg hne]
  exact .bind ((checkUsers_steady h hrooted hdirs).mono (fun _ h => h) fun code s' _ hcode =>
    .pure trivial ⟨rfl, hcode⟩)

end entering

section succeeding

variable {ready : Int → World → Prop} {smooth : Prop} {s : Process C} {Q : α → Process C → Prop}
  {path src : Str} {e : Entry}

theorem steady_there (h : Grants fontNames ready smooth ok) {k : Bool → ProcessTask C α}
    (hpath : path ≠ []) (hthere : s.world.pathExists path = true)
    (hk : Steady ok (fun _ => True) (k true) Q s) :
    Steady ok (fun _ => True) (font (checkPathExist path) >>= k) Q s := by
  refine steady_exists trivial (fun _ => hk) fun io hio hmissing => ?_
  have habsent := hmissing ((h.faulty hio).1 _ rfl) hpath
  rw [hthere] at habsent
  cases habsent

variable (h : Grants fontNames ready smooth ok) (hs : smooth)

include h hs

theorem steady_opened {k : Option Entry → ProcessTask C α}
    (hk : ∀ e, Steady ok (fun _ => True) (k (some e)) Q s) :
    Steady ok (fun _ => True) (perform (.openFile path) >>= k) Q s := by
  refine ⟨trivial, fun io hio => ?_⟩
  obtain ⟨e, he⟩ := Option.isSome_iff_exists.mp (h.succeeds hs hio)
  change Steady ok _ (k (s.world.openFile path io.ok)) Q s
  rw [he]
  exact hk e

theorem steady_copied {k : Bool → ProcessTask C α}
    (hk : ∀ w, w.entry path = some e → Steady ok (fun _ => True) (k true) Q (s.withWorld w)) :
    Steady ok (fun _ => True) (perform (.copyFile e path) >>= k) Q s := by
  refine ⟨trivial, fun io hio => ?_⟩
  have hcopied : (s.world.copyEntry e path io).1 = true := h.succeeds hs hio
  change Steady ok _ (k (s.world.copyEntry e path io).1) Q (s.withWorld (s.world.copyEntry e path io).2)
  rw [hcopied]
  exact hk _ (World.copyEntry_content hcopied)

theorem steady_renamed {k : Bool → ProcessTask C α}
    (hk : ∀ w, Steady ok (fun _ => True) (k true) Q (s.withWorld w)) :
    Steady ok (fun _ => True) (perform (.renameFile src path) >>= k) Q s := by
  refine ⟨trivial, fun io hio => ?_⟩
  have hrenamed : (s.world.renameEntry src path io.ok).1 = true := h.succeeds hs hio
  change Steady ok _ (k (s.world.renameEntry src path io.ok).1) Q
    (s.withWorld (s.world.renameEntry src path io.ok).2)
  rw [hrenamed]
  exact hk _

theorem steady_removed {k : Bool → ProcessTask C α}
    (hk : ∀ w, Steady ok (fun _ => True) (k true) Q (s.withWorld w)) :
    Steady ok (fun _ => True) (font (removeFile path) >>= k) Q s := by
  change Steady ok _ (font (checkPathExist path) >>= fun b =>
    font (if b = true then removeAll path else pure true) >>= k) Q s
  refine steady_exists trivial (fun _ => ?_) fun _ _ _ => hk s.world
  refine ⟨trivial, fun io hio => ?_⟩
  have hremoved : io.ok = true := h.succeeds hs hio
  change Steady ok _ (k (s.world.removeAll path io).1) Q (s.withWorld (s.world.removeAll path io).2)
  rw [World.removeAll, if_pos hremoved]
  exact hk _

theorem copyFile_succeeds (u : Int) : Steady ok (fun _ => True) (copyFileForDataMigration path u)
    (fun code _ => code = .ok) s := by
  refine steady_exists trivial (fun _ => .pure trivial rfl) fun _ _ _ => ?_
  refine steady_opened h hs fun e => steady_copied h hs fun w hcopied => ?_
  have hthere : w.pathExists (userPath u ++ tempFile ++ getFileName path) = true := by
    rw [World.pathExists, hcopied, Option.isSome_some]
  refine steady_there h (by simp [userPath_ne_nil]) hthere ?_
  exact steady_renamed h hs fun _ => .pure trivial rfl

theorem copyToUsers_succeeds (users : List Int) : Steady ok (fun _ => True) (copyToUsers path users)
    (fun code _ => code = .ok) s := by
  induction users generalizing s with
  | nil => exact .pure trivial rfl
  | cons u users ih =>
    refine .bind ((copyFile_succeeds h hs u).mono (fun _ h => h) fun code s' _ hcode => ?_)
    rw [if_neg (not_not_intro hcode)]
    exact ih

theorem startOneFileCopyTask_succeeds (users : List Int) :
    Steady ok (fun _ => True) (startOneFileCopyTask users path) (fun code _ => code = .ok) s := by
  refine .bind ((copyToUsers_succeeds h hs users).mono (fun _ h => h) fun code s' _ hcode => ?_)
  rw [if_neg (not_not_intro hcode)]
  exact steady_removed h hs fun _ => .pure trivial rfl

theorem migrateFiles_succeeds (users : List Int) (request size i : Nat) (paths : List Str) :
    Steady ok (fun _ => True) (migrateFiles request users size i paths) (fun code _ => code = .ok)
      s := by
  induction paths generalizing s i with
  | nil => exact .pure trivial rfl
  | cons path paths ih =>
    have copying : ∀ s, Steady ok (fun _ => True)
        (startOneFileCopyTask users path >>= fun ret =>
          if ret ≠ .ok then pure ret else migrateFiles request users size (i + 1) paths)
        (fun code _ => code = .ok) s := by
      intro s
      have hcopy := @startOneFileCopyTask_succeeds _ _ _ _ _ s path h hs users
      refine .bind (hcopy.mono (fun _ h => h) fun code s' _ hcode => ?_)
      rw [if_neg (not_not_intro hcode)]
      exact ih (i + 1)
    rw [migrateFiles]
    split
    · have hprogress := @eventDataProgress_steady C ok (fun _ => True) s trivial
      exact .bind ((hprogress _ _ _ _).mono (fun _ h => h) fun _ s' _ _ => copying s')
    · exact copying s

theorem startDataMigration_succeeds (users : List Int) (request : Nat) :
    Steady ok (fun _ => True) (startDataMigration request users) (fun code _ => code = .ok) s :=
  ⟨trivial, fun _ _ => migrateFiles_succeeds h hs users request _ 0 _⟩

end succeeding

section phases

variable {ready : Int → World → Prop} {smooth : Prop} {s : Process C} {w₁ w₂ : World}

-- The first part of a run of DataMigration: its environment, then its copies.
structure Copies (smooth : Prop) (users : List Int) (w w₁ w₂ : World) : Prop where
  entered : Entered users w w₁
  orderly : Orderly w₁
  temps : w₂ = w₁ ∨ ∀ u ∈ users, (w₁.tree.lookup (userTemp u)).isSome = true
  copied : ∃ finished, finished <+: w₁.files publicDir ∧
    Progress (fun _ => True) users w₁ (w₁.files publicDir) finished w₂ ∧
    (smooth → finished = w₁.files publicDir)

structure Phases (fontNames : Entry → List Str) (ready : Int → World → Prop) (smooth : Prop)
    (users : List Int) (w w₁ w₂ w' : World) : Prop extends Copies smooth users w w₁ w₂ where
  upgraded : Upgraded (ofFile fontNames) users w₂ w'
  ready : ∀ u ∈ users, ready u w₂

theorem Orderly.shrunk (h : Orderly w) (hu : FileTree.Unique w'.tree)
    (hs : ∀ l, publicDir <+: l → w'.tree.lookup l = w.tree.lookup l ∨ w'.tree.lookup l = none) :
    Orderly w' := by
  have before : ∀ x ∈ w'.tree, publicDir <+: x.1 → x ∈ w.tree := by
    intro x hx hl
    have hlook : w'.tree.lookup x.1 = some x.2 := FileTree.lookup_of_mem hu hx
    rcases hs x.1 hl with hsame | hgone
    · exact FileTree.mem_of_lookup (hsame.symm.trans hlook)
    · cases hgone.symm.trans hlook
  refine ⟨hu, fun x hx hl => h.plain x (before x hx hl) hl, fun x hx hl hfile y hy hxy => ?_⟩
  exact h.leaf x (before x hx hl) hl hfile y (before y hy (hl.trans hxy)) hxy

-- What a world provides for a migration of its shared fonts.
structure Migratable (users : List Int) (w : World) : Prop where
  orderly : Orderly w
  nonempty : users ≠ []
  nodup : users.Nodup
  created : w.createdUserIds = users
  fontDirs : ∀ u ∈ users, (w.tree.lookup (userDir u)).isSome = true
  rooted : ∀ l ∈ w.files sharedTemp, (w.tree.lookup sharedTemp).isSome = true
  distinct : ∀ f ∈ w.files publicDir, ∀ g ∈ w.files publicDir, ¬ sharedTemp <+: f →
    ¬ sharedTemp <+: g → fileName f = fileName g → f = g

theorem startDataMigration_copies (h : Grants fontNames ready smooth ok) (hw : Orderly s.world)
    (request : Nat) :
    Steady ok (fun s' => ∃ finished, finished <+: s.world.files publicDir ∧
        Progress (fun _ => True) users s.world (s.world.files publicDir) finished s'.world)
      (startDataMigration request users)
      (fun code s' => (code = .ok → Progress (fun _ => True) users s.world (s.world.files publicDir)
        (s.world.files publicDir) s'.world) ∧ (smooth → code = .ok)) s := by
  have hcopies := @startDataMigration_steady C ok (fun _ => True) s hw
    (fun path s io _ hio => (h.faulty hio).1 path rfl) request users
  have hok : Steady ok (fun _ => True) (startDataMigration request users)
      (fun code _ => smooth → code = .ok) s := by
    by_cases hs : smooth
    · exact (startDataMigration_succeeds h hs users request).mono (fun _ h => h) fun _ _ _ h _ => h
    · have hany : Steady ok (fun _ => True) (startDataMigration request users) (fun _ _ => True) s :=
        .of_stable (fun _ _ _ _ => trivial) _ trivial
      exact hany.mono (fun _ h => h) fun _ _ _ _ h => absurd h hs
  exact (hcopies.and hok).mono (fun _ h => h.1) fun _ _ _ h => h

theorem dataMigrationInner_steady (h : Grants fontNames ready smooth ok)
    (hw : Migratable users s.world) (request : Nat) :
    Steady ok (fun _ => True) (dataMigrationInner request)
      (fun done s' => done.1 = users ∧ ∃ w₁, Copies smooth users s.world w₁ s'.world) s := by
  have hsettled : s.Settled users := ⟨hw.orderly.unique, hw.created⟩
  have henv := initDataMigrationEnv_steady h hw.created hw.nonempty hw.rooted hw.fontDirs
  have hkept : Steady ok (fun s => s.Settled users) initDataMigrationEnv (fun _ _ => True) s :=
    .of_stable (fun _ o io hs => hs.exec o io) _ hsettled
  refine .bind ((henv.and hkept).mono (fun _ _ => trivial) fun env s₁ hinv ⟨⟨henv, hprep⟩, _⟩ => ?_)
  obtain ⟨ids, code⟩ := env
  obtain rfl : ids = users := henv
  have horderly := hw.orderly.shrunk hinv.2.unique hprep.entered.shared
  by_cases hcode : code = .ok
  · rw [if_neg (not_not_intro hcode)]
    refine ⟨trivial, fun io _ => ?_⟩
    have hcopies := @startDataMigration_copies _ _ ids _ _ _
      ((processSemantics C).exec s₁ (.startHeartBeat request) io).2 h horderly request
    refine .bind ⟨trivial, .bind (hcopies.mono (fun _ _ => trivial) fun code s₂ hinv hdone =>
      .pure trivial ⟨rfl, s₁.world, hprep.entered, horderly, .inr (hprep.temps hcode), ?_⟩)⟩
    by_cases hs : smooth
    · exact ⟨_, List.prefix_rfl, hdone.1 (hdone.2 hs), fun _ => rfl⟩
    · obtain ⟨finished, hfinished, hprogress⟩ := hinv
      exact ⟨finished, hfinished, hprogress, fun h => absurd h hs⟩
  · rw [if_pos hcode]
    refine .pure trivial ⟨rfl, s₁.world, hprep.entered, horderly, .inl rfl, [], List.nil_prefix,
      .start _ _ _ _, fun hs => ?_⟩
    rw [hprep.idle ((hprep.smooth hs).resolve_left hcode)]

theorem migrate_steady (h : Grants fontNames ready smooth ok) (hw : Migratable users s.world)
    (hready : ∀ u w w', Frame (fun l => ∃ v, v ≠ u ∧ l = configLoc v) w w' → ready u w' → ready u w)
    (request : Nat) :
    Steady ok (fun _ => True) (migrate request)
      (fun _ s' => ∃ w₁ w₂, Phases fontNames ready smooth users s.world w₁ w₂ s'.world) s := by
  refine .bind ((dataMigrationInner_steady h hw request).mono (fun _ h => h) fun done s₂ _ hdone => ?_)
  obtain ⟨hids, w₁, hcopies⟩ := hdone
  have hupdate := @checkAndUpdateAllFontRecord_steady C done.1 ok ready (ofFile fontNames)
    (hids ▸ hw.nodup) (fun s io u hio => ⟨(h.faulty hio).2.1 _ _ rfl, (h.faulty hio).2.2.1, (h.faulty hio).2.2.2, h.ready hio⟩)
    hready s₂
  refine .bind (hupdate.mono (fun _ h => h) fun _ s₃ _ ⟨hupgraded, hr⟩ => .pure trivial ?_)
  rw [hids] at hupgraded hr
  exact ⟨w₁, s₂.world, hcopies, hupgraded, hr⟩

theorem refreshEventData_idle (request : Nat) (event : EventData) :
    Steady ok (fun _ => True) (refreshEventData request event)
      (fun _ s' => s'.world = s.world ∧ s'.migrating = s.migrating) s := by
  obtain ⟨w, n, flag, pending, migrating, callback, thread, beats, delivered⟩ := s
  cases callback with
  | none => exact ⟨trivial, fun _ _ => ⟨trivial, rfl, rfl⟩⟩
  | some callback => exact ⟨trivial, fun _ _ => ⟨trivial, fun _ _ => ⟨trivial, rfl, rfl⟩⟩⟩

theorem finish_steady (request : Nat) (code : DataMigrationResultCode) :
    Steady ok (fun _ => True) (finish request code)
      (fun _ s' => s'.world = s.world ∧ s'.migrating = false) s := by
  refine ⟨trivial, fun _ _ => .bind ⟨trivial, .bind ?_⟩⟩
  refine (refreshEventData_idle request _).mono (fun _ h => h) fun _ s₁ _ ⟨hworld, hidle⟩ => ?_
  obtain ⟨w, n, flag, pending, migrating, callback, thread, beats, delivered⟩ := s₁
  cases thread with
  | none => exact ⟨trivial, fun _ _ => ⟨trivial, fun _ _ => ⟨trivial, hworld, hidle⟩⟩⟩
  | some thread =>
    exact ⟨trivial, fun _ _ => ⟨trivial, fun _ _ => ⟨trivial, fun _ _ => ⟨trivial, hworld, hidle⟩⟩⟩⟩

theorem dataMigration_steady (h : Grants fontNames ready smooth ok) (hw : Migratable users s.world)
    (hready : ∀ u w w', Frame (fun l => ∃ v, v ≠ u ∧ l = configLoc v) w w' → ready u w' → ready u w)
    (hidle : s.migrating = false) (callback : C) (request : Nat) :
    Steady ok (fun _ => True) (dataMigration callback request)
      (fun _ s' => s'.migrating = false ∧
        ∃ w₁ w₂, Phases fontNames ready smooth users s.world w₁ w₂ s'.world) s := by
  refine ⟨trivial, fun io _ => ?_⟩
  change Steady ok _ (if (!s.migrating) = true then _ else _) _ { s with migrating := true }
  rw [if_pos (by simp [hidle])]
  have hmigrate := migrate_steady (s := { s with migrating := true, callback := some callback }) h hw
    hready request
  refine ⟨trivial, fun _ _ => .bind ⟨trivial, .bind ?_⟩⟩
  refine hmigrate.mono (fun _ h => h) fun code s₁ _ ⟨w₁, w₂, hphases⟩ => ?_
  refine (finish_steady request code).mono (fun _ h => h) fun _ s₂ _ ⟨hworld, hdone⟩ => ?_
  exact ⟨hdone, w₁, w₂, hworld ▸ hphases⟩

end phases

end Migration
