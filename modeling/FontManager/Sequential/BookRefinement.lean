import FontManager.Sequential.BookCalls
import FontManager.Sequential.UninstallInverse

open FontDefine FontManagerUtils FontLocation KeyedList Interaction ScopeCleanup

namespace FontBook

variable {u limit : Int} {book : List Font} {events : List FontEvent} {w : World}

section installs

theorem records_append (book : List Font) (f : Font) :
    records (book ++ [f]) = records book ++ [f.record] := List.map_append

theorem contents_append (book : List Font) (f : Font) :
    contents (book ++ [f]) = contents book ++ [(f.slot, f.content)] := List.map_append

theorem length_records (book : List Font) : (records book).length = book.length := List.length_map ..

theorem unclaimed_path {s : Slot} (htidy : Tidy book) (hfresh : ∀ f ∈ book, f.slot.sandbox ≠ s.sandbox) :
    ¬ (records book).any (has Record.paths s.sandbox) = true := by
  intro hany
  obtain ⟨r, hr, hpath⟩ := List.any_eq_true.mp hany
  obtain ⟨f, hf, rfl⟩ := List.mem_map.mp hr
  have heq := List.mem_singleton.mp (has_iff.mp hpath)
  exact hfresh f hf ((htidy.placed f hf).path ▸ heq.symm)

theorem copyAndInsertFont_whole {env : Env} {fd : Fd} (hfit : Fits book (.installFont env fd))
    (htidy : Tidy book) (h : Displays u limit book events w)
    (hnames : getFullNamesByFd fd ≠ []) (hlimit : ¬ (book.length : Int) ≥ limit)
    (htemp : w.isDir (userDir u ++ [tempDir]) = true) :
    Ensures (each Faultless) (FontManager.copyAndInsertFont env fd u (getFullNamesByFd fd) limit)
      (Realizes u limit events (accept u book (userFont env fd) (getFullNamesByFd fd))) w := by
  have hslot := userSlot_valid env fd
  have hroom : room u (userSlot env fd) = userDir u := List.append_nil _
  have hname : (userSlot env fd).name =
    FontManager.taggedName env (getFileName (getFilePathByFd fd)) := rfl
  have hpath : installPathApp ++ getFileName (dirPath (userDir u) ++ (userSlot env fd).name) =
      (userSlot env fd).sandbox := by
    rw [getFileName_dirPath _ hslot.tagged.plain.noSlash, userSlot, sandbox_none]
  have hanswer : answered (records book) (.insertFontRecordIfUnderLimit (userSlot env fd).sandbox
      (getFullNamesByFd fd) limit) = (.ok, records (book ++ [userFont env fd])) := by
    have hfresh := hfit.fresh _ (StoreInvariant.target_user env fd)
    rw [answered, RecordStore.edit, if_neg (unclaimed_path htidy hfresh), length_records,
      if_neg hlimit, records_append]
    rfl
  unfold FontManager.copyAndInsertFont
  rw [installPath_eq]
  apply Ensures.bind
  rw [← hroom]
  apply h.copyFileForInstall hslot hname (size_of_names hnames) (slots_fresh hfit)
    (hroom ▸ h.root) (hroom ▸ htemp)
  intro w₁ h₁
  rw [hroom, if_neg (by simp [dirPath]), hpath]
  apply Ensures.bind
  apply h₁.config _
  rw [hanswer]
  intro w₂ h₂
  rw [if_neg (by simp)]
  apply Ensures.bind
  apply h₂.publishFontUpdate
  intro w₃ h₃
  apply Ensures.pure
  refine ⟨rfl, ?_⟩
  rw [accept, contents_append]
  exact h₃

theorem installFont_whole {env : Env} {fd : Fd} (hfit : Fits book (.installFont env fd))
    (htidy : Tidy book) (h : Displays u limit book events w) :
    Ensures (each Faultless) (FontManager.installFont env fd u)
      (Realizes u limit events (install u limit book env fd)) w := by
  unfold FontManager.installFont install
  apply Ensures.bind
  apply h.initInstall
  intro w₁ h₁ htemp
  rw [if_pos rfl]
  by_cases hnames : getFullNamesByFd fd = []
  · rw [if_pos hnames, if_pos hnames]
    exact Ensures.pure (realizes_refuse h₁ _)
  · rw [if_neg hnames, if_neg hnames]
    apply Ensures.bind
    apply fixStaleRecords_whole h₁ htidy
    by_cases hany : book.any (named (getFullNamesByFd fd)) = true
    · rw [if_pos hany, if_pos hany]
      exact Ensures.pure (realizes_refuse h₁ _)
    · rw [if_neg hany, if_neg hany]
      apply Ensures.bind
      apply h₁.getMaxInstallNum
      apply Ensures.bind
      apply h₁.query .getInstalledFontsNum rfl
      rw [length_records]
      by_cases hlimit : (book.length : Int) ≥ limit
      · rw [if_pos hlimit, if_pos hlimit]
        exact Ensures.pure (realizes_refuse h₁ _)
      · rw [if_neg hlimit, if_neg hlimit]
        exact copyAndInsertFont_whole hfit htidy h₁ hnames hlimit htemp

theorem findInstalledName_whole (h : Displays u limit book events w) (names : List Str)
    {Q : Bool → World → Prop} (hQ : Q (book.any (named names)) w) :
    Ensures (each Faultless) (FontManager.findInstalledName u names) Q w := by
  induction names with
  | nil =>
    have hnone : book.any (named []) = false := List.any_eq_false.mpr fun _ _ => by simp [named]
    rw [hnone] at hQ
    exact Ensures.pure hQ
  | cons n rest ih =>
    rw [any_named_cons] at hQ
    apply Ensures.bind
    apply h.query (.getFontRecordByName n) rfl
    rw [RecordStore.findInfo, find_records, ← named_singleton, Option.map_map, Option.isSome_map]
    cases hfind : (book.find? (named [n])).isSome with
    | false =>
      rw [hfind, Bool.false_or] at hQ
      exact ih hQ
    | true =>
      rw [hfind, Bool.true_or] at hQ
      exact Ensures.pure hQ

theorem find_located (srcPath : Str) (book : List Font) :
    (records book).find? (has Record.urls srcPath) =
      (book.find? (located srcPath)).map Font.record := find_records _ book

theorem any_located (srcPath : Str) (book : List Font) :
    (book.find? (located srcPath)).isSome = book.any (located srcPath) := by
  rw [Bool.eq_iff_iff, List.find?_isSome, List.any_eq_true]

def validated (limit : Int) (book : List Font) (srcPath : Str) (fd : Fd) : FontErrorCode :=
  if book.any (located srcPath) then .installedAlrady
  else if (book.length : Int) ≥ limit then .maxFileCount
  else if getFullNamesByFd fd = [] then .fileVerifyFail
  else if book.any (named (getFullNamesByFd fd)) then .installedAlrady
  else .ok

theorem validateScopeFont_whole (h : Displays u limit book events w) (srcPath : Str) (fd : Fd)
    {Q : FontErrorCode → World → Prop} (hQ : Q (validated limit book srcPath fd) w) :
    Ensures (each Faultless) (FontManager.validateScopeFontForInstall u srcPath fd) Q w := by
  unfold validated at hQ
  unfold FontManager.validateScopeFontForInstall
  apply Ensures.bind
  apply h.query (.getFontRecordByUrl srcPath) rfl
  rw [RecordStore.findInfo, find_located, Option.map_map, Option.isSome_map, any_located]
  by_cases hurl : book.any (located srcPath) = true
  · rw [if_pos hurl] at hQ ⊢
    exact Ensures.pure hQ
  · rw [if_neg hurl] at hQ ⊢
    apply Ensures.bind
    apply h.getMaxInstallNum
    apply Ensures.bind
    apply h.query .getTotalInstalledFontsNum rfl
    rw [length_records]
    by_cases hlimit : (book.length : Int) ≥ limit
    · rw [if_pos hlimit] at hQ ⊢
      exact Ensures.pure hQ
    · rw [if_neg hlimit] at hQ ⊢
      by_cases hnames : getFullNamesByFd fd = []
      · rw [if_pos hnames] at hQ ⊢
        exact Ensures.pure hQ
      · rw [if_neg hnames] at hQ ⊢
        apply Ensures.bind
        apply findInstalledName_whole h
        by_cases hany : book.any (named (getFullNamesByFd fd)) = true
        · rw [if_pos hany] at hQ ⊢
          exact Ensures.pure hQ
        · rw [if_neg hany] at hQ ⊢
          exact Ensures.pure hQ

section scopes

variable {env : Env} {fd : Fd} {scope : Int} {srcPath bundleName : Str} {tokenId : Int}

theorem app_slots_fresh
    (hfit : Fits book (.installScopeFont env fd scope srcPath bundleName tokenId)) :
    ∀ x ∈ contents book, x.1 ≠ appSlot env fd (makeAppIdentifier scope tokenId) := by
  intro x hx heq
  obtain ⟨f, hf, rfl⟩ := List.mem_map.mp hx
  apply hfit.fresh _ (StoreInvariant.target_app env fd scope srcPath bundleName tokenId) f hf
  rw [show f.slot = appSlot env fd (makeAppIdentifier scope tokenId) from heq]

theorem copyAndInsertScopeFont_whole
    (hfit : Fits book (.installScopeFont env fd scope srcPath bundleName tokenId))
    (h : Displays u limit book events w) (hnames : getFullNamesByFd fd ≠ []) :
    Ensures (each Faultless)
      (FontManager.copyAndInsertScopeFont env (FontCall.info u fd scope srcPath bundleName tokenId))
      (fun code w' => code = .ok ∧ Displays u limit
        (book ++ [scopeFont u env fd scope srcPath bundleName tokenId]) events w') w := by
  have hslot := appSlot_valid env fd scope tokenId
  have hname : (appSlot env fd (makeAppIdentifier scope tokenId)).name =
    FontManager.taggedName env (getFileName (getFilePathByFd fd)) := rfl
  have hroom : dirPath (room u (appSlot env fd (makeAppIdentifier scope tokenId))) =
      FontManager.getAppInstallPath u (makeAppIdentifier scope tokenId) := by
    rw [getAppInstallPath_eq]
    rfl
  have hrecord : FontManager.scopeRecord (FontCall.info u fd scope srcPath bundleName tokenId)
      (FontManager.getAppInstallPath u (makeAppIdentifier scope tokenId) ++
        (appSlot env fd (makeAppIdentifier scope tokenId)).name) =
      installedInfo env (FontCall.info u fd scope srcPath bundleName tokenId) := by
    rw [FontManager.scopeRecord, getAppInstallPath_eq,
      getFileName_dirPath _ hslot.tagged.plain.noSlash, ← sandbox_some]
    rfl
  unfold FontManager.copyAndInsertScopeFont
  apply Ensures.bind
  change Ensures (each Faultless) (checkAndInitScopeFontPath
    (FontManager.getAppInstallPath u (makeAppIdentifier scope tokenId))) _ w
  rw [← hroom]
  apply h.initRoom hslot.owned
  intro w₁ h₁ hdir htemp
  rw [if_pos rfl]
  apply Ensures.bind
  change Ensures (each Faultless) (FontManager.copyFileForInstall env
    (FontManager.getAppInstallPath u (makeAppIdentifier scope tokenId)) _ _) _ w₁
  rw [← hroom]
  apply h₁.copyFileForInstall hslot hname (size_of_names hnames) (app_slots_fresh hfit) hdir htemp
  intro w₂ h₂
  rw [hroom, if_neg (by simp [FontManager.getAppInstallPath]), hrecord]
  apply Ensures.bind
  apply h₂.config (.insertScopeFontRecord _)
  intro w₃ h₃
  apply Ensures.pure
  refine ⟨rfl, ?_⟩
  rw [Displays, records_append, contents_append]
  exact h₃

theorem installScope_eq (u limit : Int) (book : List Font) (env : Env) (fd : Fd) (scope : Int)
    (srcPath bundleName : Str) (tokenId : Int) :
    installScope u limit book env fd scope srcPath bundleName tokenId =
      if scope ≠ fontScopeApp ∧ scope ≠ fontScopeSession then refuse book .invalidParam
      else if validated limit book srcPath fd ≠ .ok then
        refuse book (validated limit book srcPath fd)
      else accept u book (scopeFont u env fd scope srcPath bundleName tokenId)
        (getFullNamesByFd fd) := by
  unfold installScope validated
  split_ifs <;> simp_all

theorem names_of_validated (h : ¬ validated limit book srcPath fd ≠ .ok) :
    getFullNamesByFd fd ≠ [] := by
  intro hnames
  apply h
  unfold validated
  split_ifs <;> simp_all

theorem installScopeFont_whole
    (hfit : Fits book (.installScopeFont env fd scope srcPath bundleName tokenId))
    (h : Displays u limit book events w) :
    Ensures (each Faultless)
      (FontManager.installScopeFont env (FontCall.info u fd scope srcPath bundleName tokenId))
      (Realizes u limit events
        (installScope u limit book env fd scope srcPath bundleName tokenId)) w := by
  rw [installScope_eq]
  have hscope : (FontCall.info u fd scope srcPath bundleName tokenId).scope = scope := rfl
  have hsrc : (FontCall.info u fd scope srcPath bundleName tokenId).srcPath = srcPath := rfl
  have hfd : (FontCall.info u fd scope srcPath bundleName tokenId).fd = fd := rfl
  unfold FontManager.installScopeFont
  simp only [hscope, hsrc, hfd]
  by_cases hscope : scope ≠ fontScopeApp ∧ scope ≠ fontScopeSession
  · rw [if_pos hscope, if_pos hscope]
    exact Ensures.pure (realizes_refuse h _)
  · rw [if_neg hscope, if_neg hscope]
    apply Ensures.bind
    apply h.initInstall
    intro w₁ h₁ _
    rw [if_pos rfl]
    apply Ensures.bind
    apply h₁.query .checkAndUpdateFontRecord rfl
    rw [if_pos rfl]
    apply Ensures.bind
    apply validateScopeFont_whole h₁
    by_cases hvalid : validated limit book srcPath fd ≠ .ok
    · rw [if_pos hvalid, if_pos hvalid]
      exact Ensures.pure (realizes_refuse h₁ _)
    · rw [if_neg hvalid, if_neg hvalid]
      apply Ensures.bind
      apply (copyAndInsertScopeFont_whole hfit h₁ (names_of_validated hvalid)).mono
      rintro _ w₂ ⟨rfl, h₂⟩
      rw [if_neg (by simp)]
      apply Ensures.bind
      apply h₂.publishFontUpdate
      intro w₃ h₃
      exact Ensures.pure ⟨rfl, h₃⟩

end scopes

end installs

section removals

theorem tidy_paths (htidy : Tidy book) : Apart (fun f : Font => f.record.paths) book := by
  apply htidy.slots.imp_of_mem
  intro f g hf hg hslots path hpath hpath'
  have hf' := htidy.placed f hf
  have hg' := htidy.placed g hg
  have hsame : f.slot.sandbox = g.slot.sandbox := by
    rw [← hf'.path, ← hg'.path, ← List.mem_singleton.mp hpath, ← List.mem_singleton.mp hpath']
  apply hslots f.slot List.mem_cons_self
  rw [sandbox_injective hf'.valid hg'.valid hsame]
  exact List.mem_cons_self

section keyed

variable {κ : Type} {keys : Record → List κ} {k : κ} {f : Font}

theorem keyed_iff (htidy : Tidy book) (ha : Apart (fun f : Font => keys f.record) book)
    (hf : f ∈ book) (hk : k ∈ keys f.record) {g : Font} (hg : g ∈ book) :
    k ∈ keys g.record ↔ g.slot = f.slot := by
  constructor
  · intro hkg
    rw [ha.eq_of_mem hf hg hk hkg]
  · intro hslot
    have heq : f = g := htidy.slots.eq_of_mem hf hg List.mem_cons_self (by simp [hslot])
    exact heq ▸ hk

variable [DecidableEq κ]

theorem erase_record (htidy : Tidy book) (ha : Apart (fun f : Font => keys f.record) book)
    (hf : f ∈ book) (hk : k ∈ keys f.record) :
    (records book).eraseP (has keys k) = records (book.filter fun g => g.slot ≠ f.slot) := by
  have hapart : Apart keys (records book) := apart_map.mpr ha
  rw [hapart.eraseP_eq_filter, records, List.filter_map, records]
  congr 1
  apply List.filter_congr
  intro g hg
  simp only [Function.comp_apply, has, keyed_iff htidy ha hf hk hg, decide_not]

theorem deleteFirst_record (htidy : Tidy book) (ha : Apart (fun f : Font => keys f.record) book)
    (hf : f ∈ book) (hk : k ∈ keys f.record) :
    RecordStore.deleteFirst (has keys k) (records book) =
      .write (records (book.filter fun g => g.slot ≠ f.slot)) true false := by
  have hany : (records book).any (has keys k) = true :=
    List.any_eq_true.mpr ⟨f.record, List.mem_map_of_mem hf, has_iff.mpr hk⟩
  rw [RecordStore.deleteFirst, if_pos hany, erase_record htidy ha hf hk]

end keyed

theorem contents_filter (book : List Font) (s : Slot) :
    ((contents book).filter fun x => x.1 ≠ s) = contents (book.filter fun g => g.slot ≠ s) :=
  List.filter_map ..

theorem remove_font {f : Font} (htidy : Tidy book) (hf : f ∈ book)
    (h : Displays u limit book events w) {Q : Bool → World → Prop}
    (hQ : ∀ w', Shelf u limit (records book) (contents (book.filter fun g => g.slot ≠ f.slot))
      events w' → Q true w') :
    Ensures (each Faultless) (FontManager.removeIfExists (joinPath (f.slot.loc u))) Q w := by
  apply h.removeIfExists (htidy.placed f hf).valid
  rw [contents_filter]
  exact hQ

theorem resolve_font {f : Font} (htidy : Tidy book) (hf : f ∈ book) {Q : Str → World → Prop}
    (hQ : Q (joinPath (f.slot.loc u)) w) :
    Ensures (each Faultless)
      (FontManager.validateAndResolveRealPath (installPath u) f.record.fontPath) Q w := by
  have hplaced := htidy.placed f hf
  rw [hplaced.path]
  apply resolve_exact undisturbed_of_faultless hplaced.valid
  rw [if_neg (htidy.bare f hf)]
  exact hQ

theorem uninstallFont_whole (htidy : Tidy book) (h : Displays u limit book events w) (name : Str) :
    Ensures (each Faultless) (FontManager.uninstallFont name u)
      (Realizes u limit events (uninstall u book name)) w := by
  unfold FontManager.uninstallFont uninstall
  by_cases hname : name = []
  · rw [if_pos hname, if_pos hname]
    exact Ensures.pure (realizes_refuse h _)
  · rw [if_neg hname, if_neg hname]
    apply Ensures.bind
    apply h.query (.getFontRecordByName name) rfl
    rw [RecordStore.findInfo, find_records, ← named_singleton, Option.map_map]
    cases hfind : book.find? (named [name]) with
    | none => exact Ensures.pure (realizes_refuse h _)
    | some f =>
      have hf := List.mem_of_find?_eq_some hfind
      have hplaced := htidy.placed f hf
      have hpath : f.record.info.fontPath = f.record.fontPath := rfl
      have hrefused : (f.record.info.fontPath = [] ∨ f.record.info.scope ≥ 0) ↔ f.slot.dir ≠ none := by
        rw [hpath, hplaced.path, ← UninstallInverse.scope_of_dir hplaced]
        exact or_iff_right (sandbox_ne_nil f.slot)
      dsimp only [Option.map_some, Function.comp_apply]
      by_cases hdir : f.slot.dir = none
      · rw [if_neg (by rw [hrefused]; exact not_not.mpr hdir), if_pos hdir]
        apply Ensures.bind
        apply resolve_font htidy hf
        rw [if_neg (joinPath_loc_ne u f.slot)]
        apply Ensures.bind
        apply remove_font htidy hf h
        intro w₁ h₁
        rw [if_pos rfl]
        apply Ensures.bind
        apply h₁.config _
        have hanswer : answered (records book) (.deleteFontRecord f.record.info.fontPath) =
            (true, records (book.filter fun g => g.slot ≠ f.slot)) := by
          rw [hpath, answered, RecordStore.edit,
            deleteFirst_record htidy (tidy_paths htidy) hf (List.mem_singleton.mpr rfl)]
        rw [hanswer]
        intro w₂ h₂
        rw [if_pos rfl]
        apply Ensures.bind
        apply h₂.publishFontUpdate
        intro w₃ h₃
        exact Ensures.pure ⟨rfl, h₃⟩
      · rw [if_pos (hrefused.mpr hdir), if_neg hdir]
        exact Ensures.pure (realizes_refuse h _)

theorem uninstallScopeFont_whole (htidy : Tidy book) (h : Displays u limit book events w)
    (srcPath bundleName : Str) (tokenId : Int) :
    Ensures (each Faultless) (FontManager.uninstallScopeFont srcPath bundleName tokenId u)
      (Realizes u limit events (uninstallScope u book srcPath bundleName tokenId)) w := by
  unfold FontManager.uninstallScopeFont uninstallScope
  by_cases hsrc : srcPath = []
  · rw [if_pos hsrc, if_pos hsrc]
    exact Ensures.pure (realizes_refuse h _)
  · rw [if_neg hsrc, if_neg hsrc]
    apply Ensures.bind
    apply h.query (.getFontRecordByUrl srcPath) rfl
    rw [RecordStore.findInfo, find_located, Option.map_map]
    cases hfind : book.find? (located srcPath) with
    | none => exact Ensures.pure (realizes_refuse h _)
    | some f =>
      have hf := List.mem_of_find?_eq_some hfind
      have hfound : located srcPath f = true := List.find?_some hfind
      have hurl : srcPath ∈ f.record.urls := has_iff.mp hfound
      dsimp only [Option.map_some, Function.comp_apply]
      by_cases howns : FontManager.owns f.record.info bundleName tokenId = true
      · rw [if_pos howns, if_pos howns]
        apply Ensures.bind
        apply resolve_font htidy hf
        apply Ensures.bind
        apply remove_font htidy hf h
        intro w₁ h₁
        rw [if_pos rfl]
        apply Ensures.bind
        apply h₁.config _
        have hanswer : answered (records book) (.deleteScopeFontRecordByUrl srcPath) =
            (true, records (book.filter fun g => g.slot ≠ f.slot)) := by
          rw [answered, RecordStore.edit, deleteFirst_record htidy htidy.urls hf hurl]
        rw [hanswer]
        intro w₂ h₂
        rw [if_pos rfl]
        apply Ensures.bind
        apply h₂.publishFontUpdate
        intro w₃ h₃
        exact Ensures.pure ⟨rfl, h₃⟩
      · rw [if_neg howns, if_neg howns]
        exact Ensures.pure (realizes_refuse h _)

theorem sweepRecords_whole {sel : List Font} (htidy : Tidy book)
    (hmem : ∀ f ∈ sel, f ∈ book) (hsel : Apart (fun f : Font => [f.slot]) sel)
    (hurls : ∀ f ∈ sel, f.record.srcPath.isSome = true) (h : Displays u limit book events w)
    {Q : Unit → World → Prop}
    (hQ : ∀ w', Displays u limit (book.filter fun g => sel.all fun f => g.slot ≠ f.slot) events w' →
      Q () w') :
    Ensures (each Faultless) (FontManager.sweepRecords u (sel.map fun f => f.record.info)) Q w := by
  induction sel generalizing book w with
  | nil =>
    have hall : (book.filter fun g : Font => ([] : List Font).all fun f => g.slot ≠ f.slot) = book :=
      List.filter_eq_self.mpr fun _ _ => rfl
    exact Ensures.pure (hQ w (by rw [hall]; exact h))
  | cons f rest ih =>
    obtain ⟨hhead, htail⟩ := List.pairwise_cons.mp hsel
    obtain ⟨hf, hrest⟩ := List.forall_mem_cons.mp hmem
    obtain ⟨url, hurl⟩ := Option.isSome_iff_exists.mp (hurls f List.mem_cons_self)
    have hkey : url ∈ f.record.urls := by simp [Record.urls, hurl]
    have hinfo : f.record.info.srcPath = url := by simp [Record.info, hurl]
    have hkept : ∀ g ∈ rest, g ∈ book.filter fun g => g.slot ≠ f.slot := by
      intro g hg
      apply List.mem_filter.mpr
      refine ⟨hrest g hg, decide_eq_true ?_⟩
      intro hslot
      exact hhead g hg f.slot List.mem_cons_self (by simp [hslot])
    rw [List.map_cons, FontManager.sweepRecords]
    apply Ensures.bind
    apply resolve_font htidy hf
    apply Ensures.bind
    apply remove_font htidy hf h
    intro w₁ h₁
    apply Ensures.bind
    apply h₁.config _
    have hanswer : answered (records book) (.deleteScopeFontRecordByUrl f.record.info.srcPath) =
        (true, records (book.filter fun g => g.slot ≠ f.slot)) := by
      rw [hinfo, answered, RecordStore.edit, deleteFirst_record htidy htidy.urls hf hkey]
    rw [hanswer]
    intro w₂ h₂
    apply ih (htidy.sublist List.filter_sublist) hkept htail
      (fun g hg => hurls g (List.mem_cons_of_mem f hg)) h₂
    intro w₃ h₃
    apply hQ
    rw [List.filter_filter] at h₃
    simpa only [List.all_cons, Bool.and_comm] using h₃

theorem collect_book (p : Record → Bool) (book : List Font) :
    RecordStore.collect p (records book) =
      (book.filter fun f => p f.record).map fun f => f.record.info := by
  rw [RecordStore.collect, records, List.filter_map, List.map_map]
  rfl

section cleanups

variable {p : Record → Bool} (htidy : Tidy book)
  (hp : ∀ f ∈ book, p f.record = true → f.slot.dir ≠ none)

include htidy

theorem filter_chosen : (book.filter fun g =>
    (book.filter fun f => p f.record).all fun f => g.slot ≠ f.slot) =
      book.filter fun g => !p g.record := by
  apply List.filter_congr
  intro g hg
  rw [Bool.eq_iff_iff, List.all_eq_true, Bool.not_eq_true']
  constructor
  · intro hall
    by_contra hchosen
    have hmem : g ∈ book.filter fun f => p f.record :=
      List.mem_filter.mpr ⟨hg, (Bool.not_eq_false _).mp hchosen⟩
    exact of_decide_eq_true (hall g hmem) rfl
  · intro hkept f hf
    obtain ⟨hmem, hchosen⟩ := List.mem_filter.mp hf
    apply decide_eq_true
    intro hslot
    have heq : g = f := htidy.slots.eq_of_mem hg hmem List.mem_cons_self (by simp [hslot])
    rw [heq, hchosen] at hkept
    cases hkept

include hp

theorem sweepChosen_whole (h : Displays u limit book events w) {Q : Unit → World → Prop}
    (hQ : ∀ w', Displays u limit (book.filter fun g => !p g.record) events w' → Q () w') :
    Ensures (each Faultless) (FontManager.sweepRecords u (RecordStore.collect p (records book))) Q w := by
  rw [collect_book]
  apply sweepRecords_whole htidy _ _ _ h
  · rw [filter_chosen htidy]
    exact hQ
  · intro f hf
    exact (List.mem_filter.mp hf).1
  · exact htidy.slots.sublist List.filter_sublist
  · intro f hf
    obtain ⟨hmem, hchosen⟩ := List.mem_filter.mp hf
    exact htidy.located f hmem (hp f hmem hchosen)

end cleanups

theorem reportRemoved_whole {book' : List Font} (p : Record → Bool)
    (h : Displays u limit book' events w) {Q : Unit → World → Prop}
    (hQ : ∀ w', Displays u limit book' (events ++ (clean u book p).events) w' → Q () w') :
    Ensures (each Faultless)
      (FontManager.reportRemoved u (RecordStore.collect p (records book))) Q w := by
  have hempty : RecordStore.collect p (records book) = [] ↔
      ¬ (book.any fun f => p f.record) = true := by
    rw [collect_book, List.map_eq_nil_iff, List.filter_eq_nil_iff, List.any_eq_true]
    simp
  unfold FontManager.reportRemoved
  unfold clean at hQ
  by_cases hany : (book.any fun f => p f.record) = true
  · rw [if_pos hany] at hQ
    rw [if_neg (fun hnil => hempty.mp hnil hany)]
    exact h.publishFontUpdate hQ
  · rw [if_neg hany, List.append_nil] at hQ
    rw [if_pos (hempty.mpr hany)]
    exact Ensures.pure (hQ w h)

theorem dir_of_scope {f : Font} (htidy : Tidy book) (hf : f ∈ book) {p : Int → Bool}
    (hchosen : Record.inScope p f.record = true) : f.slot.dir ≠ none := by
  rcases (htidy.placed f hf).owner with ⟨hscope, -, -⟩ | ⟨scope, t, -, -, -, hdir⟩
  · rw [Record.inScope, hscope] at hchosen
    cases hchosen
  · rw [hdir]
    simp

theorem dir_of_app {f : Font} (htidy : Tidy book) (hf : f ∈ book) {id : Str} :
    has Record.apps id f.record = true ↔ f.slot.dir = some id := by
  rw [has_iff, Record.apps, (htidy.placed f hf).dir_eq, Option.mem_toList]

theorem cleanupScopeFontsByUser_whole (htidy : Tidy book) (h : Displays u limit book events w) :
    Ensures (each Faultless) (FontManager.cleanupScopeFontsByUser u)
      (Realizes u limit events (clean u book (Record.inScope (· ≥ 0)))) w := by
  apply Ensures.bind
  apply h.query .getScopeFontRecords rfl
  apply Ensures.bind
  apply sweepChosen_whole htidy (fun f hf => dir_of_scope htidy hf) h
  intro w₁ h₁
  apply Ensures.bind
  apply reportRemoved_whole _ h₁
  intro w₂ h₂
  exact Ensures.pure ⟨rfl, h₂⟩

theorem cleanupAppScopeFontsByUser_whole (htidy : Tidy book) (h : Displays u limit book events w) :
    Ensures (each Faultless) (FontManager.cleanupAppScopeFontsByUser u)
      (Realizes u limit events (clean u book (Record.inScope (· = fontScopeApp)))) w := by
  apply Ensures.bind
  apply h.query .getAppScopeFontRecords rfl
  apply Ensures.bind
  apply sweepChosen_whole htidy (fun f hf => dir_of_scope htidy hf) h
  intro w₁ h₁
  apply Ensures.bind
  apply reportRemoved_whole _ h₁
  intro w₂ h₂
  exact Ensures.pure ⟨rfl, h₂⟩

theorem cleanupAppScopeFonts_whole (htidy : Tidy book) (h : Displays u limit book events w)
    (scope tokenId : Int) :
    Ensures (each Faultless) (FontManager.cleanupAppScopeFonts (makeAppIdentifier scope tokenId) u)
      (Realizes u limit events
        (clean u book (has Record.apps (makeAppIdentifier scope tokenId)))) w := by
  have hchosen : ∀ f ∈ book, has Record.apps (makeAppIdentifier scope tokenId) f.record = true →
      f.slot.dir ≠ none := by
    intro f hf happ
    rw [(dir_of_app htidy hf).mp happ]
    simp
  apply Ensures.bind
  apply h.query (.getFontRecordsByAppId _) rfl
  apply Ensures.bind
  apply sweepChosen_whole htidy hchosen h
  intro w₁ h₁
  apply Ensures.bind
  apply reportRemoved_whole _ h₁
  intro w₂ h₂
  apply Ensures.bind
  apply h₂.deleteAppDir
  · intro x hx hdir
    obtain ⟨f, hf, rfl⟩ := List.mem_map.mp hx
    obtain ⟨hmem, hkept⟩ := List.mem_filter.mp hf
    rw [(dir_of_app htidy hmem).mpr hdir] at hkept
    cases hkept
  · intro w₃ h₃
    exact Ensures.pure ⟨rfl, h₃⟩

end removals

theorem call_whole (htidy : Tidy book) (h : Displays u limit book events w) {c : FontCall}
    (hfit : Fits book c) :
    Ensures (each Faultless) (c.program u) (Realizes u limit events (step u limit book c)) w := by
  cases c with
  | installFont env fd => exact installFont_whole hfit htidy h
  | uninstallFont name => exact uninstallFont_whole htidy h name
  | installScopeFont env fd scope srcPath bundleName tokenId => exact installScopeFont_whole hfit h
  | uninstallScopeFont srcPath bundleName tokenId =>
    exact uninstallScopeFont_whole htidy h srcPath bundleName tokenId
  | cleanupAppScopeFonts scope tokenId => exact cleanupAppScopeFonts_whole htidy h scope tokenId
  | cleanupScopeFontsByUser => exact cleanupScopeFontsByUser_whole htidy h
  | cleanupAppScopeFontsByUser => exact cleanupAppScopeFontsByUser_whole htidy h

end FontBook
