import FontManager.Sequential.BookShelf

open FontDefine FontManagerUtils FontLocation KeyedList Interaction ScopeCleanup

namespace FontBook

variable {u limit : Int} {rs : List Record} {files : List (Slot × List UInt8)}
  {events : List FontEvent} {w : World} {s : Slot}

def answered (rs : List Record) (op : ConfigOp) : op.Reply × List Record :=
  match RecordStore.edit rs op with
  | .keep reply => (reply, rs)
  | .write rs' done _ => (done, rs')

namespace Shelf

section setup

variable (h : Shelf u limit rs files events w)

include h

theorem ensureDir {path : Str} {l : Loc} (hloc : locate path = l) (hl : Folder u l)
    (hp : path ≠ []) (hdot : '.' ∉ path)
    (hparent : w.isDir l = true ∨ w.isDir l.dropLast = true) {Q : Bool → World → Prop}
    (hQ : ∀ w', Shelf u limit rs files events w' → w'.isDir l = true →
      (∀ m, w.isDir m = true → w'.isDir m = true) → Q true w') :
    Ensures (each Faultless) (FontManagerUtils.checkOrCreateDir path) Q w := by
  apply Ensures.bind
  apply checkPathExist_exact undisturbed_of_faultless hp
  have hexists : w.pathExists path = (w.tree.lookup l).isSome := by
    rw [World.pathExists, World.entry, hloc]
  cases hlook : w.tree.lookup l with
  | some e =>
    rw [hexists, hlook, Option.isSome_some, if_pos rfl]
    apply Ensures.pure
    exact hQ w h (h.dir_of_folder hl (by simp [hlook])) fun _ hm => hm
  | none =>
    have hdir : ¬ w.isDir l = true := by
      rw [isDir_iff, hlook]
      simp
    have hmade : ∀ io : Io, io.ok = true → w.createDirectory path io = (true, w.put path .dir) := by
      intro io hio
      have hentry : w.entry path = none := by rw [World.entry, hloc, hlook]
      simp [World.createDirectory, hio, hentry, hloc, hparent.resolve_left hdir]
    have hput : ∀ m, w.isDir m = true → (w.put path .dir).isDir m = true := by
      intro m hm
      rw [isDir_iff] at hm ⊢
      have hne : locate path ≠ m := fun heq => by
        rw [← heq, hloc, hlook] at hm
        cases hm
      rw [World.put, FileTree.lookup_put_ne hne, hm]
    rw [hexists, hlook, Option.isSome_none, if_neg (by simp)]
    unfold createDirWithPermission
    rw [if_neg (by simp [hp, SourcePrivacy.hasDotComponent_of_noDot hdot])]
    intro io hio
    change Q (w.createDirectory path io).1 (w.createDirectory path io).2
    rw [hmade io hio.1]
    apply hQ _ (h.addDir hloc hl hlook) _ hput
    rw [isDir_iff, World.put, hloc, FileTree.lookup_put_self]

theorem initRoom (hs : ∀ d ∈ s.dir, ∃ scope t, d = makeAppIdentifier scope t)
    {Q : Bool → World → Prop}
    (hQ : ∀ w', Shelf u limit rs files events w' → w'.isDir (room u s) = true →
      w'.isDir (room u s ++ [tempDir]) = true → Q true w') :
    Ensures (each Faultless) (checkAndInitScopeFontPath (dirPath (room u s))) Q w := by
  have hplain : ∀ c ∈ room u s, Plain c := by
    intro c hc
    rcases List.mem_append.mp hc with hc | hc
    · exact userDir_plain u c hc
    · obtain ⟨scope, t, rfl⟩ := hs c (by simpa using hc)
      exact makeAppIdentifier_plain scope t
  have hdot : '.' ∉ dirPath (room u s) := by
    unfold room
    cases hd : s.dir with
    | none =>
      rw [Option.toList_none, List.append_nil, ← installPath_eq]
      exact SourcePrivacy.installPath_noDot u
    | some d =>
      obtain ⟨scope, t, rfl⟩ := hs d hd
      rw [Option.toList_some, ← getAppInstallPath_eq]
      exact SourcePrivacy.appInstallPath_noDot u scope t
  have hparent : w.isDir (room u s) = true ∨ w.isDir (room u s).dropLast = true := by
    unfold room
    cases s.dir with
    | none =>
      rw [Option.toList_none, List.append_nil]
      exact Or.inl h.root
    | some d =>
      rw [Option.toList_some, List.dropLast_concat]
      exact Or.inr h.root
  apply Ensures.bind
  apply h.ensureDir (locate_dirPath hplain) (room_folder hs) (by simp [dirPath]) hdot hparent
  intro w₁ h₁ hroom hkept
  apply h₁.ensureDir (locate_dir_tempFile hplain) (temp_folder hs) (by simp [dirPath])
    (SourcePrivacy.tempFile_noDot hdot)
  · rw [List.dropLast_concat]
    exact Or.inr hroom
  · intro w₂ h₂ htemp hkept'
    exact hQ w₂ h₂ (hkept' _ hroom) htemp

theorem initInstall {Q : Bool → World → Prop}
    (hQ : ∀ w', Shelf u limit rs files events w' → w'.isDir (userDir u ++ [tempDir]) = true →
      Q true w') :
    Ensures (each Faultless) (checkAndInitInstallPath (installPath u)) Q w := by
  have hroom : room u ⟨none, []⟩ = userDir u := by simp [room]
  apply Ensures.bind
  rw [installPath_eq, ← hroom]
  apply h.initRoom (by simp)
  intro w₁ h₁ hdir htemp
  rw [hroom] at htemp ⊢
  apply Ensures.bind
  rw [← installPath_eq]
  apply checkPathExist_exact undisturbed_of_faultless (by simp [installPath_eq, dirPath])
  rw [show w₁.pathExists (installPath u ++ fontConfigFile) = true from
    SourcePrivacy.pathExists_of_shows h₁.view]
  exact Ensures.pure (hQ w₁ h₁ htemp)

theorem query (op : ConfigOp) {reply : op.Reply} (hop : RecordStore.edit rs op = .keep reply)
    {Q : op.Reply → World → Prop} (hQ : Q reply w) :
    Ensures (each Faultless) (FontManager.config u op) Q w :=
  Ensures.read (show View.Shows u (some rs) w from h.view) (fun _ hio => hio.1) hop hQ

theorem config (op : ConfigOp) {Q : op.Reply → World → Prop}
    (hQ : ∀ w', Shelf u limit (answered rs op).2 files events w' → Q (answered rs op).1 w') :
    Ensures (each Faultless) (FontManager.config u op) Q w := by
  intro io hio
  change Q (w.execConfig u op io).1 (w.execConfig u op io).2
  unfold answered at hQ
  rw [World.execConfig_readable hio.1, View.edit_shows h.view, View.edit]
  cases hedit : RecordStore.edit rs op with
  | keep reply =>
    rw [hedit] at hQ
    exact hQ w h
  | write rs' done failed =>
    rw [hedit] at hQ
    simp only [Edit.map, World.applyEdit, hio.2.2, World.writeFile, if_true]
    exact hQ _ (h.write rs')

theorem publishFontUpdate {type : FontEventType} {name : Str} {Q : Unit → World → Prop}
    (hQ : ∀ w', Shelf u limit rs files (events ++ [⟨type, name, u⟩]) w' → Q () w') :
    Ensures (each Faultless) (FontManager.publishFontUpdate type name u) Q w :=
  fun _ _ => hQ _ (h.publish ⟨type, name, u⟩)

theorem getMaxInstallNum {Q : Int → World → Prop} (hQ : Q limit w) :
    Ensures (each Faultless) FontManager.getMaxInstallNum Q w := by
  apply Ensures.getMaxInstallNum
  rw [h.limit]
  exact hQ

end setup

section copying

theorem copyFile_whole {fd : Fd} {path : Str} (hsize : fd.content.length ≤ maxFontFileSize)
    (hhold : w.canHold (locate path) = true) {Q : Bool → World → Prop}
    (hQ : Q true (w.put path (.bytes fd.content))) :
    Ensures (each Faultless) (FontManagerUtils.copyFile fd path) Q w := by
  intro io hio
  have hlarge : ¬ maxFontFileSize < fd.content.length := by omega
  have hcopy : w.copy fd path io = (true, w.put path (.bytes fd.content)) := by
    simp [World.copy, hio.1, hio.2.1, hhold, hlarge]
  change Q (w.copy fd path io).1 (w.copy fd path io).2
  rw [hcopy]
  exact hQ

theorem renameFile_whole {src dest : Str} {content : List UInt8} (hp : src ≠ [])
    (hsrc : w.entry src = some (.bytes content)) (hhold : w.canHold (locate dest) = true)
    {Q : Bool → World → Prop}
    (hQ : Q true { w with
      tree := (w.tree.prune (locate src)).put (locate dest) (.bytes content) }) :
    Ensures (each Faultless) (FontManagerUtils.renameFile src dest) Q w := by
  apply Ensures.bind
  apply checkPathExist_exact undisturbed_of_faultless hp
  rw [World.pathExists, hsrc, Option.isSome_some, if_pos rfl]
  intro io hio
  have hrename : w.rename src dest io.ok = (true, { w with
      tree := (w.tree.prune (locate src)).put (locate dest) (.bytes content) }) := by
    simp [World.rename, hsrc, hhold, hio.1]
  change Q (w.rename src dest io.ok).1 (w.rename src dest io.ok).2
  rw [hrename]
  exact hQ

variable (h : Shelf u limit rs files events w) (hs : s.Valid)

include h hs

theorem staged_vacant {l : Loc} (hl : room u s ++ [tempDir, s.name] <+: l) :
    w.tree.lookup l = none := by
  apply h.vacant ((staged_below u s).trans hl)
  · intro hf
    exact staged_not_folder hs hf hl
  · intro heq
    exact staged_not_config hs (heq ▸ hl)
  · intro x hx heq
    exact staged_not_loc hs (h.valid x hx) (heq ▸ hl)

theorem canHold_staged (htemp : w.isDir (room u s ++ [tempDir]) = true) :
    w.canHold (room u s ++ [tempDir, s.name]) = true := by
  have hdrop : (room u s ++ [tempDir, s.name]).dropLast = room u s ++ [tempDir] := by
    rw [List.dropLast_append_of_ne_nil (by simp)]
    rfl
  rw [World.canHold, hdrop, htemp, World.isDir, h.staged_vacant hs List.prefix_rfl]
  rfl

theorem lookup_moved (content : List UInt8) {l : Loc} :
    (((w.tree.put (room u s ++ [tempDir, s.name]) (.bytes content)).prune
        (room u s ++ [tempDir, s.name])).put (s.loc u) (.bytes content)).lookup l =
      if l = s.loc u then some (.bytes content) else w.tree.lookup l := by
  by_cases hl : l = s.loc u
  · rw [if_pos hl, hl, FileTree.lookup_put_self]
  · rw [if_neg hl, FileTree.lookup_put_ne (Ne.symm hl), FileTree.lookup_prune]
    split
    · next hbelow => exact (h.staged_vacant hs hbelow).symm
    · next hbelow =>
      apply FileTree.lookup_put_ne
      intro heq
      exact hbelow (FileTree.prefix_of_eq heq)

theorem canHold_loc (hroom : w.isDir (room u s) = true) (hfresh : ∀ x ∈ files, x.1 ≠ s)
    (content : List UInt8) {path : Str} (hpath : locate path = room u s ++ [tempDir, s.name]) :
    (w.put path (.bytes content)).canHold (s.loc u) = true := by
  have hfree : w.tree.lookup (s.loc u) = none := by
    apply h.vacant (List.prefix_append _ _)
    · intro hf
      exact hf.ne_loc hs rfl
    · intro heq
      exact configLoc_not_loc hs (FileTree.prefix_of_eq heq)
    · intro x hx heq
      exact hfresh x hx (loc_injective (h.valid x hx) hs heq)
  have hdrop : (s.loc u).dropLast = room u s := by rw [loc_room, List.dropLast_concat]
  have hne : room u s ++ [tempDir, s.name] ≠ s.loc u := fun heq =>
    staged_not_loc hs hs (FileTree.prefix_of_eq heq)
  have hne' : room u s ++ [tempDir, s.name] ≠ room u s := by simp
  have hdir : (w.put path (.bytes content)).isDir (room u s) = true := by
    rw [isDir_iff, World.put, hpath, FileTree.lookup_put_ne hne', isDir_iff.mp hroom]
  have hslot : (w.put path (.bytes content)).isDir (s.loc u) = false := by
    rw [World.isDir, World.put, hpath, FileTree.lookup_put_ne hne, hfree]
  rw [World.canHold, hdrop, hdir, hslot]
  rfl

theorem copyFileForInstall {env : Env} {fd : Fd}
    (hname : s.name = FontManager.taggedName env (getFileName (getFilePathByFd fd)))
    (hsize : fd.content.length ≤ maxFontFileSize) (hfresh : ∀ x ∈ files, x.1 ≠ s)
    (hroom : w.isDir (room u s) = true) (htemp : w.isDir (room u s ++ [tempDir]) = true)
    {Q : Str → World → Prop}
    (hQ : ∀ w', Shelf u limit rs (files ++ [(s, fd.content)]) events w' →
      Q (dirPath (room u s) ++ s.name) w') :
    Ensures (each Faultless) (FontManager.copyFileForInstall env (dirPath (room u s))
      (getFileName (getFilePathByFd fd)) fd) Q w := by
  have hplain := room_plain (u := u) hs
  have hstaged : locate (dirPath (room u s) ++ tempFile ++ s.name) = room u s ++ [tempDir, s.name] :=
    locate_tempFile hplain hs.tagged.plain
  have hdest : locate (dirPath (room u s) ++ s.name) = s.loc u := by
    rw [locate_name hplain hs.tagged.plain, loc_room]
  have hne : dirPath (room u s) ++ tempFile ++ s.name ≠ [] := by simp [dirPath]
  unfold FontManager.copyFileForInstall
  rw [← hname]
  generalize dirPath (room u s) ++ tempFile ++ s.name = tempPath at hstaged hne ⊢
  have hcopied : (w.put tempPath (.bytes fd.content)).entry tempPath =
      some (.bytes fd.content) := by
    rw [World.entry, World.put, FileTree.lookup_put_self]
  have hhold : (w.put tempPath (.bytes fd.content)).canHold
      (locate (dirPath (room u s) ++ s.name)) = true := by
    rw [hdest]
    exact h.canHold_loc hs hroom hfresh fd.content hstaged
  apply Ensures.bind
  apply copyFile_whole hsize (hstaged ▸ h.canHold_staged hs htemp)
  rw [if_pos rfl]
  apply Ensures.bind
  apply renameFile_whole hne hcopied hhold
  rw [if_pos rfl]
  apply Ensures.pure
  apply hQ
  apply h.addFile hs hfresh
  intro l _
  simp only [World.put, hstaged, hdest]
  exact h.lookup_moved hs fd.content

end copying

section removing

variable (h : Shelf u limit rs files events w)

include h

theorem removeIfExists (hs : s.Valid) {Q : Bool → World → Prop}
    (hQ : ∀ w', Shelf u limit rs (files.filter fun x => x.1 ≠ s) events w' → Q true w') :
    Ensures (each Faultless) (FontManager.removeIfExists (joinPath (s.loc u))) Q w := by
  apply removeIfExists_exact undisturbed_of_faultless hs
  · intro hmissing
    apply hQ
    have hsame : (files.filter fun x => x.1 ≠ s) = files := by
      apply List.filter_eq_self.mpr
      intro x hx
      apply decide_eq_true
      intro heq
      have hstored := h.stored x hx
      rw [heq, hmissing] at hstored
      cases hstored
    rw [hsame]
    exact h
  · intro _
    apply hQ
    apply h.prune (configLoc_not_loc hs)
    · intro hp
      have hlen := hp.length_le
      simp only [Slot.loc, Slot.sub, List.length_append, List.length_cons, List.length_nil] at hlen
      omega
    · intro x
      rw [List.mem_filter, decide_eq_true_iff]
      apply and_congr_right
      intro hx
      apply not_congr
      constructor
      · rintro rfl
        exact List.prefix_rfl
      · intro hp
        exact (loc_leads hs (h.valid x hx) hp).2.symm

theorem deleteAppDir (scope tokenId : Int)
    (hnone : ∀ x ∈ files, x.1.dir ≠ some (makeAppIdentifier scope tokenId)) {Q : Unit → World → Prop}
    (hQ : ∀ w', Shelf u limit rs files events w' → Q () w') :
    Ensures (each Faultless)
      (deleteDir (FontManager.getAppInstallPath u (makeAppIdentifier scope tokenId))) Q w := by
  have hplain := appDir_plain u (makeAppIdentifier_plain scope tokenId)
  rw [getAppInstallPath_eq]
  apply deleteDir_exact undisturbed_of_faultless (by simp [dirPath])
  · intro _
    exact hQ w h
  · intro _
    apply hQ
    rw [locate_dirPath hplain]
    apply h.prune (userDir_noPrefix_configLoc (fontConfigFile_ne_app scope tokenId))
    · intro hp
      have hlen := hp.length_le
      simp only [List.length_append, List.length_cons, List.length_nil] at hlen
      omega
    · intro x
      apply Iff.symm
      apply and_iff_left_of_imp
      intro hx hp
      exact hnone x hx ((appDir_leads (h.valid x hx)).mp hp)

end removing

end Shelf

section books

variable {book : List Font}

def Realizes (u limit : Int) (events : List FontEvent) (o : Outcome) (code : FontErrorCode)
    (w : World) : Prop :=
  code = o.code ∧ Shelf u limit (records o.book) (contents o.book) (events ++ o.events) w

abbrev Displays (u limit : Int) (book : List Font) (events : List FontEvent) (w : World) : Prop :=
  Shelf u limit (records book) (contents book) events w

theorem realizes_refuse (h : Displays u limit book events w) (code : FontErrorCode) :
    Realizes u limit events (refuse book code) code w :=
  ⟨rfl, by rw [refuse, List.append_nil]; exact h⟩

theorem find_records (k : Record → Bool) (book : List Font) :
    (records book).find? k = (book.find? fun f => k f.record).map Font.record := List.find?_map ..

theorem slots_fresh {env : Env} {fd : Fd} (hfit : Fits book (.installFont env fd)) :
    ∀ x ∈ contents book, x.1 ≠ userSlot env fd := by
  intro x hx heq
  obtain ⟨f, hf, rfl⟩ := List.mem_map.mp hx
  apply hfit.fresh _ (StoreInvariant.target_user env fd) f hf
  rw [show f.slot = userSlot env fd from heq]

theorem size_of_names {fd : Fd} (h : getFullNamesByFd fd ≠ []) :
    fd.content.length ≤ maxFontFileSize := by
  unfold getFullNamesByFd at h
  split at h
  · exact absurd rfl h
  · omega

theorem any_named_cons (book : List Font) (n : Str) (rest : List Str) :
    book.any (named (n :: rest)) =
      ((book.find? (named [n])).isSome || book.any (named rest)) := by
  rw [Bool.eq_iff_iff]
  simp only [Bool.or_eq_true, List.any_eq_true, List.find?_isSome, named, List.any_cons,
    List.any_nil, Bool.or_false]
  constructor
  · rintro ⟨f, hf, h | h⟩
    · exact Or.inl ⟨f, hf, h⟩
    · exact Or.inr ⟨f, hf, h⟩
  · rintro (⟨f, hf, h⟩ | ⟨f, hf, h⟩)
    · exact ⟨f, hf, Or.inl h⟩
    · exact ⟨f, hf, Or.inr h⟩

theorem named_singleton (n : Str) : named [n] = fun f => has Record.fullNames n f.record := by
  funext f
  simp [named]

theorem pathExists_font (h : Displays u limit book events w) (htidy : Tidy book) {f : Font}
    (hf : f ∈ book) : w.pathExists (realPath u f.record.fontPath) = true := by
  have hplaced := htidy.placed f hf
  have hstored := h.stored (f.slot, f.content) (List.mem_map_of_mem hf)
  rw [World.pathExists, hplaced.path, World.entry, locate_realPath hplaced.valid, hstored]
  rfl

theorem realPath_ne_nil (u : Int) (s : Slot) : realPath u s.sandbox ≠ [] := by
  rw [realPath_sandbox]
  exact joinPath_loc_ne u s

theorem fixStaleRecords_whole (h : Displays u limit book events w) (htidy : Tidy book)
    (names : List Str) {Q : Option FontErrorCode → World → Prop}
    (hQ : Q (if book.any (named names) then some .installedAlrady else none) w) :
    Ensures (each Faultless) (FontManager.fixStaleRecords u (installPath u) names) Q w := by
  induction names with
  | nil =>
    apply Ensures.pure
    simpa [named] using hQ
  | cons n rest ih =>
    rw [any_named_cons] at hQ
    apply Ensures.bind
    apply h.query (.getFontFileByName n) rfl
    rw [find_records, ← named_singleton]
    cases hfind : book.find? (named [n]) with
    | none =>
      rw [hfind, Option.isSome_none, Bool.false_or] at hQ
      rw [Option.map_none, Option.map_none, Option.getD_none, if_pos rfl]
      exact ih hQ
    | some f =>
      have hf := List.mem_of_find?_eq_some hfind
      have hpath := (htidy.placed f hf).path
      rw [hfind, Option.isSome_some, Bool.true_or, if_pos rfl] at hQ
      rw [Option.map_some, Option.map_some, Option.getD_some,
        if_neg (hpath ▸ sandbox_ne_nil f.slot)]
      apply Ensures.bind
      apply checkPathExist_exact undisturbed_of_faultless
      · rw [hpath]
        exact realPath_ne_nil u f.slot
      · rw [show w.pathExists (FontManager.sandBoxPathToRealPath (installPath u)
          f.record.fontPath) = true from pathExists_font h htidy hf, if_pos rfl]
        exact Ensures.pure hQ

end books

end FontBook
