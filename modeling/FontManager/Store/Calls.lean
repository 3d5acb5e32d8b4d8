import FontManager.Store.Contracts
import FontManager.Store.Soundness

open FontDefine FontManagerUtils FontLocation Interaction KeyedList

theorem userDir_noPrefix_configLoc {u : Int} {c : Str} {l : Loc} (h : c ≠ fontConfigFile) :
    ¬ userDir u ++ c :: l <+: configLoc u := by
  rw [configLoc, List.prefix_append_right_inj, List.cons_prefix_cons]
  exact fun hp => h hp.1

def Scaffold (u : Int) (l : Loc) : Prop :=
  l = userDir u ∨ l = userDir u ++ [tempDir] ∨ l = configLoc u

theorem locate_installPath (u : Int) : locate (installPath u) = userDir u := by
  rw [installPath_eq, locate_dirPath (userDir_plain u)]

theorem locate_dir_tempFile {cs : Loc} (hcs : ∀ c ∈ cs, Plain c) :
    locate (dirPath cs ++ tempFile) = cs ++ [tempDir] := by
  have htemp : tempFile = tempDir ++ ['/'] := by decide
  rw [htemp, ← List.append_assoc, dirPath_append_dir, locate_dirPath]
  intro c hc
  rcases List.mem_append.mp hc with hc | hc
  · exact hcs c hc
  · exact List.mem_singleton.mp hc ▸ (by decide : Plain tempDir)

def InstallTouches (u : Int) (s : Slot) (l : Loc) : Prop :=
  Scaffold u l ∨ (∃ d ∈ s.dir, l = userDir u ++ [d] ∨ l = userDir u ++ [d, tempDir]) ∨
    CopyTouches (userDir u ++ s.dir.toList) s.name l ∨ s.loc u <+: l

theorem tempDir_ne_name {name : Str} (h : Tagged name) : name ≠ tempDir :=
  h.head_ne (c := 't') rfl (by decide) (by decide)

theorem makeAppIdentifier_ne_of_head {other : Str} (h : other.head? ≠ some 'a')
    (h' : other.head? ≠ some 's') (scope t : Int) : makeAppIdentifier scope t ≠ other := by
  rintro rfl
  obtain ⟨c, hc, rfl | rfl⟩ := makeAppIdentifier_head scope t
  · exact h hc
  · exact h' hc

theorem tempDir_ne_app (scope t : Int) : makeAppIdentifier scope t ≠ tempDir :=
  makeAppIdentifier_ne_of_head (by decide) (by decide) scope t

theorem fontConfigFile_ne_app (scope t : Int) : makeAppIdentifier scope t ≠ fontConfigFile :=
  makeAppIdentifier_ne_of_head (by decide) (by decide) scope t

theorem not_installTouches {u : Int} {s t : Slot} (hs : s.Valid) (ht : t.Valid) (hne : s ≠ t) :
    ¬ InstallTouches u s (t.loc u) := by
  have cancel : ∀ {l : Loc}, t.loc u = userDir u ++ l → t.sub = l := List.append_cancel_left
  have htemp := tempDir_ne_name ht.tagged
  have hconfig : t.name ≠ fontConfigFile :=
    ht.tagged.head_ne (c := 'i') rfl (by decide) (by decide)
  have hlast : ∀ {l : Loc} {c : Str}, t.sub = l ++ [c] → t.name = c := fun h =>
    (List.append_inj' h rfl).2 |> List.singleton_inj.mp
  rintro ((h | h | h) | ⟨d, hd, h | h⟩ | (h | h) | h)
  · simp [Slot.loc, Slot.sub] at h
  · exact htemp (hlast (l := []) (cancel h))
  · exact hconfig (hlast (l := []) (cancel h))
  · exact dir_ne_name hs.owned ht.tagged hd (hlast (l := []) (cancel h)).symm
  · exact htemp (hlast (l := [d]) (cancel h))
  · rw [Slot.loc, List.append_assoc, List.prefix_append_right_inj] at h
    obtain ⟨dir, name⟩ := t
    obtain ⟨dir', name'⟩ := s
    cases dir' with
    | none =>
      cases dir with
      | none => simp [Slot.sub] at h
      | some d =>
        obtain ⟨scope, n, hd⟩ := ht.owned d rfl
        obtain ⟨htd, -⟩ : tempDir = d ∧ name' = name := by simpa [Slot.sub] using h
        exact tempDir_ne_app scope n (hd ▸ htd.symm)
    | some d' => cases dir <;> simpa [Slot.sub] using h.length_le
  · exact hne (loc_injective hs ht (by rw [h, Slot.loc, Slot.sub, List.append_assoc]))
  · exact hne (loc_leads hs ht h).2

theorem configLoc_ne_userDir (u : Int) : configLoc u ≠ userDir u := by
  simp [configLoc]

theorem configLoc_ne_append {u : Int} {c : Str} (h : c ≠ fontConfigFile) :
    configLoc u ≠ userDir u ++ [c] := fun he =>
  userDir_noPrefix_configLoc h (FileTree.prefix_of_eq he.symm)

section configuration

variable {u : Int} {s : Slot} (hs : s.Valid)

include hs

theorem configLoc_not_below {cs : Loc} (hne : s.dir.toList ++ cs ≠ [])
    (hc : ∀ c ∈ cs.head?, c ≠ fontConfigFile) :
    ¬ userDir u ++ s.dir.toList ++ cs <+: configLoc u := by
  obtain ⟨dir, name⟩ := s
  cases dir with
  | none =>
    cases cs with
    | nil => simp at hne
    | cons c cs => simpa using userDir_noPrefix_configLoc (l := cs) (hc c rfl)
  | some d =>
    obtain ⟨scope, t, rfl⟩ := hs.owned d rfl
    simpa using userDir_noPrefix_configLoc (l := cs) (fontConfigFile_ne_app scope t)

theorem configLoc_not_loc : ¬ s.loc u <+: configLoc u := by
  rw [Slot.loc, Slot.sub, ← List.append_assoc]
  exact configLoc_not_below hs (by simp) fun c hc => by
    obtain rfl : s.name = c := by simpa using hc
    exact hs.tagged.head_ne (c := 'i') rfl (by decide) (by decide)

theorem configLoc_not_copied :
    ¬ CopyTouches (userDir u ++ s.dir.toList) s.name (configLoc u) := by
  rintro (h | h)
  · exact configLoc_not_below hs (by simp) (by simpa using by decide) h
  · rw [List.append_assoc] at h
    exact configLoc_not_loc hs (FileTree.prefix_of_eq h.symm)

end configuration

def InTemp (u : Int) (l : Loc) : Prop :=
  userDir u ++ [tempDir] <+: l ∨
    ∃ scope t, userDir u ++ [makeAppIdentifier scope t, tempDir] <+: l

section temp

variable {u : Int} {s : Slot} (hs : s.Valid) {l : Loc}

include hs

theorem loc_not_temp (hl : s.loc u <+: l) : ¬ InTemp u l := by
  obtain ⟨back, rfl⟩ := hl
  have hname := tempDir_ne_name hs.tagged
  obtain ⟨dir, name⟩ := s
  rintro (h | ⟨scope, t, h⟩)
  · rw [Slot.loc, List.append_assoc, List.prefix_append_right_inj] at h
    cases dir with
    | none => exact hname (List.cons_prefix_cons.mp h).1.symm
    | some d =>
      obtain ⟨scope, t, rfl⟩ := hs.owned d rfl
      exact tempDir_ne_app scope t (List.cons_prefix_cons.mp h).1.symm
  · rw [Slot.loc, List.append_assoc, List.prefix_append_right_inj] at h
    cases dir with
    | none => exact makeAppIdentifier_ne hs.tagged scope t (List.cons_prefix_cons.mp h).1.symm
    | some d =>
      exact hname (List.cons_prefix_cons.mp (List.cons_prefix_cons.mp h).2).1.symm

theorem loc_not_config (hl : s.loc u <+: l) :
    l ≠ configLoc u := fun he => configLoc_not_loc hs (he ▸ hl)

theorem temp_inTemp
    (hl : userDir u ++ s.dir.toList ++ [tempDir, s.name] <+: l) : InTemp u l := by
  obtain ⟨dir, name⟩ := s
  cases dir with
  | none =>
    refine Or.inl (List.IsPrefix.trans ⟨[name], ?_⟩ hl)
    simp
  | some d =>
    obtain ⟨scope, t, rfl⟩ := hs.owned d rfl
    refine Or.inr ⟨scope, t, List.IsPrefix.trans ⟨[name], ?_⟩ hl⟩
    simp

end temp

-- The look-ups that a listed record answers.
def ConfigOp.finds (json : Option Json) : ConfigOp → Bool
  | .getFontFileByName name => (FontConfig.listed json).any (FontConfig.named name)
  | .getFontRecordByName name => (FontConfig.listed json).any (FontConfig.named name)
  | .getFontRecordByUrl srcPath => (FontConfig.listed json).any (FontConfig.atUrl srcPath)
  | _ => false

def attentive (w : World) : Op → Io → Bool
  | .config u op, io => io.ok || !op.finds (w.config u)
  | _, _ => true

def Attentive (ok : World → Op → Io → Prop) : Prop := ∀ w o io, ok w o io → attentive w o io = true

theorem Attentive.readable {ok : World → Op → Io → Prop} (h : Attentive ok) {w : World} {u : Int}
    {op : ConfigOp} {io : Io} (hio : ok w (.config u op) io) (hfinds : op.finds (w.config u) = true) :
    io.ok = true := by
  simpa [attentive, hfinds] using h w (.config u op) io hio

theorem attentive_of_readable {ok : World → Op → Io → Prop}
    (h : ∀ w o io, ok w o io → io.ok = true) : Attentive ok := by
  intro w o io hio
  cases o with
  | config u op => simp [attentive, h w _ io hio]
  | _ => rfl

inductive InstallEffect (ok : World → Op → Io → Prop) (u : Int) (s : Slot) (fresh : List Record → Prop)
    (r : Record) (fd : Fd) (v : View) (w : World) : FontErrorCode → View → World → Prop
  | failed {code : FontErrorCode} {v' : View} {w' : World} (hcode : code ≠ .ok)
      (hs : v.Shrinks v') : InstallEffect ok u s fresh r fd v w code v' w'
  | skipped {rs : List Record} {w' : World} (hd : s.dir = none) (hs : v.Shrinks (some rs))
      (hn : Attentive ok → Sound v.records → Unnamed (getFullNamesByFd fd) rs)
      (hp : ∃ q ∈ rs, q.fontPath = s.sandbox) (hframe : Frame (InstallTouches u s) w w')
      (hfile : w'.tree.lookup (s.loc u) = some (.bytes fd.content)) :
      InstallEffect ok u s fresh r fd v w .ok (some rs) w'
  | lost {w₁ w' : World} {o : Op} {io : Io} {left : List UInt8} (hio : ok w₁ o io) (hl : io.write = .lost left) :
      InstallEffect ok u s fresh r fd v w .ok none w'
  | stored {rs : List Record} {w' : World} (hs : v.Shrinks (some rs))
      (hn : Attentive ok → Sound v.records → Unnamed (getFullNamesByFd fd) rs) (hf : fresh rs)
      (hframe : Frame (InstallTouches u s) w w')
      (hfile : w'.tree.lookup (s.loc u) = some (.bytes fd.content)) :
      InstallEffect ok u s fresh r fd v w .ok (some (rs ++ [r])) w'

theorem InstallEffect.published {ok : World → Op → Io → Prop} {u : Int} {s : Slot} {fresh : List Record → Prop}
    {r : Record} {fd : Fd} {v v' : View} {w w' : World} {code : FontErrorCode}
    (h : InstallEffect ok u s fresh r fd v w code v' w') (events : List FontEvent) :
    InstallEffect ok u s fresh r fd v w code v' { w' with published := events } := by
  cases h with
  | failed hcode hs => exact .failed hcode hs
  | skipped hd hs hn hp hframe hfile =>
    exact .skipped hd hs hn hp (hframe.step ⟨fun _ _ => rfl, rfl, rfl, rfl⟩) hfile
  | lost hio hl => exact .lost hio hl
  | stored hs hn hf hframe hfile =>
    exact .stored hs hn hf (hframe.step ⟨fun _ _ => rfl, rfl, rfl, rfl⟩) hfile

def userSlot (env : Env) (fd : Fd) : Slot :=
  ⟨none, FontManager.taggedName env (getFileName (getFilePathByFd fd))⟩

def appSlot (env : Env) (fd : Fd) (id : Str) : Slot :=
  ⟨some id, FontManager.taggedName env (getFileName (getFilePathByFd fd))⟩

theorem userSlot_valid (env : Env) (fd : Fd) : (userSlot env fd).Valid :=
  ⟨taggedName_tagged env fd, by simp [userSlot]⟩

theorem appSlot_valid (env : Env) (fd : Fd) (scope t : Int) :
    (appSlot env fd (makeAppIdentifier scope t)).Valid :=
  ⟨taggedName_tagged env fd, fun _ hd => ⟨scope, t, (Option.mem_some.mp hd).symm⟩⟩

def installedInfo (env : Env) (info : ScopeFontInstallInfo) : FontRecordInfo where
  fontPath := (appSlot env info.fd info.appIdentifier).sandbox
  fullNames := getFullNamesByFd info.fd
  scope := info.scope
  srcPath := info.srcPath
  appIdentifier := info.appIdentifier
  bundleName := info.bundleName

def UserFresh (env : Env) (fd : Fd) (rs : List Record) : Prop :=
  ∀ q ∈ rs, q.fontPath ≠ (userSlot env fd).sandbox

def ScopeFresh (ok : World → Op → Io → Prop) (info : ScopeFontInstallInfo) (rs : List Record) :
    Prop :=
  (info.scope = fontScopeApp ∨ info.scope = fontScopeSession) ∧
    (Attentive ok → ∀ q ∈ rs, info.srcPath ∉ q.urls)

namespace View

variable {v v' : View} {u : Int} {w w' : World}

theorem createConfig_shows (h : v.Shows u w) (io : Io) :
    ∃ v', v.Shrinks v' ∧ v'.Shows u (w.createConfig (configPath u) io).2 := by
  unfold World.createConfig
  split
  · exact ⟨v, .refl v, h⟩
  · split
    · exact ⟨some [], shrinks_nil v, shows_put w []⟩
    · exact ⟨v, .refl v, h⟩
    · exact ⟨none, shrinks_none v, shows_torn w _⟩
    · exact ⟨none, shrinks_none v, shows_torn w _⟩

theorem any_paths {rs : List Record} {path : Str} :
    rs.any (has Record.paths path) = true ↔ ∃ q ∈ rs, q.fontPath = path := by
  simp only [List.any_eq_true, has_iff, Record.paths, List.mem_singleton]
  exact exists_congr fun q => and_congr_right fun _ => eq_comm

theorem step_insertFontRecordIfUnderLimit (v : View) (path : Str) (names : List Str) (limit : Int)
    (io : Io) :
    let r := v.step (.insertFontRecordIfUnderLimit path names limit) io
    (r.1 ≠ FontErrorCode.ok ∧ v.Shrinks r.2) ∨
      (∃ rs, v = some rs ∧ (∃ q ∈ rs, q.fontPath = path) ∧ r = (FontErrorCode.ok, some rs)) ∨
      (∃ left, io.write = .lost left ∧ r = (FontErrorCode.ok, none)) ∨
      ∃ rs, v = some rs ∧ (∀ q ∈ rs, q.fontPath ≠ path) ∧
        r = (FontErrorCode.ok, some (rs ++ [Record.user path names])) := by
  intro r
  cases hio : io.ok with
  | false =>
    refine Or.inl ?_
    simp only [r, step_unreadable hio]
    exact ⟨by simp [ConfigOp.failure], .refl v⟩
  | true =>
    cases v with
    | none =>
      refine Or.inl ?_
      simp only [r, step_readable hio]
      exact ⟨by simp [edit, apply, ConfigOp.failure], .refl _⟩
    | some rs =>
      by_cases hpath : rs.any (has Record.paths path) = true
      · refine Or.inr (Or.inl ⟨rs, rfl, any_paths.mp hpath, ?_⟩)
        simp only [r, step_readable hio, edit, RecordStore.edit, if_pos hpath, apply]
      · have hfresh : ∀ q ∈ rs, q.fontPath ≠ path := fun q hq he =>
          hpath (any_paths.mpr ⟨q, hq, he⟩)
        by_cases hlimit : (rs.length : Int) ≥ limit
        · refine Or.inl ?_
          simp only [r, step_readable hio, edit, RecordStore.edit, if_neg hpath, if_pos hlimit, apply]
          exact ⟨by simp, .refl _⟩
        · have hr : r = apply (some rs) io.write (.write (rs ++ [Record.user path names])
              FontErrorCode.ok FontErrorCode.installFail) := by
            simp only [r, step_readable hio, edit, RecordStore.edit, if_neg hpath, if_neg hlimit]
          rw [hr]
          cases io.write with
          | complete => exact Or.inr (Or.inr (Or.inr ⟨rs, rfl, hfresh, rfl⟩))
          | openFails => exact Or.inl ⟨by simp [apply], .refl _⟩
          | short left => exact Or.inl ⟨by simp [apply], shrinks_none _⟩
          | lost left => exact Or.inr (Or.inr (Or.inl ⟨left, rfl, rfl⟩))

theorem step_insertScopeFontRecord (v : View) (record : FontRecordInfo) (io : Io) :
    let r := v.step (.insertScopeFontRecord record) io
    (r.1 = false ∧ v.Shrinks r.2) ∨ (∃ left, io.write = .lost left ∧ r = (true, none)) ∨
      ∃ rs, v = some rs ∧ r = (true, some (rs ++ [Record.ofInfo record])) := by
  intro r
  cases hio : io.ok with
  | false =>
    refine Or.inl ?_
    simp only [r, step_unreadable hio]
    exact ⟨rfl, .refl v⟩
  | true =>
    cases v with
    | none =>
      refine Or.inl ?_
      simp only [r, step_readable hio]
      exact ⟨rfl, .refl _⟩
    | some rs =>
      have hr : r = apply (some rs) io.write (.write (rs ++ [Record.ofInfo record]) true false) :=
        step_readable hio _ _
      rw [hr]
      cases io.write with
      | complete => exact Or.inr (Or.inr ⟨rs, rfl, rfl⟩)
      | openFails => exact Or.inl ⟨rfl, .refl _⟩
      | short left => exact Or.inl ⟨rfl, shrinks_none _⟩
      | lost left => exact Or.inr (Or.inl ⟨left, rfl, rfl⟩)

theorem step_deleteFontRecord_unnamed {n : Str} {r : Record} {io : Io}
    (hs : Sound v.records) (hf : v.records.find? (has Record.fullNames n) = some r)
    (hok : (v.step (.deleteFontRecord r.fontPath) io).1 = true) :
    Unnamed [n] (v.step (.deleteFontRecord r.fontPath) io).2.records := by
  cases hio : io.ok with
  | false =>
    rw [step_unreadable hio] at hok
    cases hok
  | true =>
    rw [step_readable hio] at hok ⊢
    cases v with
    | none => cases hf
    | some rs =>
      obtain ⟨hr, hn⟩ := find_has_some hf
      have hany : rs.any (has Record.paths r.fontPath) = true :=
        List.any_eq_true.mpr ⟨r, hr, by simp [Record.paths]⟩
      simp only [edit, RecordStore.edit, RecordStore.deleteFirst, hany, if_true] at hok ⊢
      cases hwrite : io.write with
      | complete =>
        rintro m hm s hs' hms
        obtain rfl := List.mem_singleton.mp hm
        obtain ⟨hs', hpath⟩ := hs.paths.mem_eraseP.mp hs'
        obtain rfl := hs.names.eq_of_mem hr hs' hn hms
        simp [Record.paths] at hpath
      | openFails => simp [hwrite, apply] at hok
      | short left => simp [hwrite, apply] at hok
      | lost left => simp [apply, records, Unnamed]

theorem any_listed {item : Json → Bool} {selected : Record → Bool} {r : Record} (hv : v.Shows u w)
    (hitem : ∀ r : Record, item r.item = selected r) (h : v.records.find? selected = some r) :
    (FontConfig.listed (w.config u)).any item = true := by
  rw [listed_shows hv, List.any_eq_true]
  exact ⟨r.item, List.mem_map_of_mem (List.mem_of_find?_eq_some h),
    (hitem r).trans (List.find?_some h)⟩

end View

namespace Ensures

variable {ok : World → Op → Io → Prop} {α β : Type} {w : World} {u : Int} {v : View}

theorem config (hv : v.Shows u w) {op : ConfigOp} {Q : op.Reply → World → Prop}
    (h : ∀ io w', ok w (.config u op) io → Frame (· = configLoc u) w w' →
      (v.step op io).2.Shows u w' → Q (v.step op io).1 w') :
    Ensures ok (FontManager.config u op) Q w := by
  intro io hio
  obtain ⟨hreply, hshows⟩ := View.execConfig_shows hv op io
  have hq := h io _ hio (World.execConfig_frame w u op io) hshows
  rw [← hreply] at hq
  exact hq

theorem query (hv : v.Shows u w) {op : ConfigOp} {r : op.Reply} (hr : v.edit op = .keep r)
    {Q : op.Reply → World → Prop}
    (hunread : ∀ io, ok w (.config u op) io → io.ok = false → Q op.failure w) (h : Q r w) :
    Ensures ok (FontManager.config u op) Q w := by
  intro io hio
  show Q (w.execConfig u op io).1 (w.execConfig u op io).2
  cases hread : io.ok with
  | false =>
    rw [World.execConfig_unreadable hread]
    exact hunread io hio hread
  | true =>
    rw [World.execConfig_readable hread, View.edit_shows hv, hr]
    exact h

theorem read (hv : v.Shows u w) {op : ConfigOp}
    (hread : ∀ io, ok w (.config u op) io → io.ok = true) {r : op.Reply} (hr : v.edit op = .keep r)
    {Q : op.Reply → World → Prop} (h : Q r w) : Ensures ok (FontManager.config u op) Q w := by
  refine query hv hr (fun io hio hfalse => ?_) h
  rw [hread io hio] at hfalse
  cases hfalse

theorem answered (hv : v.Shows u w) {op : ConfigOp} {r : op.Reply} (hr : v.edit op = .keep r)
    {P : op.Reply → Prop} (hkept : P r) (hunread : P op.failure) {Q : op.Reply → World → Prop}
    (h : ∀ r, P r → Q r w) : Ensures ok (FontManager.config u op) Q w :=
  query hv hr (fun _ _ _ => h _ hunread) (h _ hkept)

-- A look-up that could not read the file passes for one that found nothing.
theorem unread_missed {op : ConfigOp} {item : Json → Bool} {selected : Record → Bool}
    (hv : v.Shows u w) (hitem : ∀ r : Record, item r.item = selected r)
    (hfinds : op.finds (w.config u) = (FontConfig.listed (w.config u)).any item) {io : Io}
    (hio : ok w (.config u op) io) (hread : io.ok = false) (hatt : Attentive ok) :
    v.records.find? selected = none := by
  cases hf : v.records.find? selected with
  | none => rfl
  | some r =>
    rw [hatt.readable hio (hfinds.trans (View.any_listed hv hitem hf))] at hread
    cases hread

theorem getFontRecordByName (hv : v.Shows u w) {n : Str} {Q : Option FontRecordInfo → World → Prop}
    (hsome : ∀ info, Q (some info) w)
    (hnone : (Attentive ok → v.records.find? (has Record.fullNames n) = none) → Q none w) :
    Ensures ok (FontManager.config u (.getFontRecordByName n)) Q w := by
  refine query hv (v.edit_getFontRecordByName n)
    (fun io hio hread => hnone (unread_missed hv (Record.named_item · n) rfl hio hread)) ?_
  unfold RecordStore.findInfo
  cases hf : v.records.find? (has Record.fullNames n) with
  | none => exact hnone fun _ => hf
  | some r => exact hsome _

theorem getFontRecordByUrl (hv : v.Shows u w) {srcPath : Str}
    {Q : Option FontRecordInfo → World → Prop} (hsome : ∀ info, Q (some info) w)
    (hnone : (Attentive ok → v.records.find? (has Record.urls srcPath) = none) → Q none w) :
    Ensures ok (FontManager.config u (.getFontRecordByUrl srcPath)) Q w := by
  refine query hv (v.edit_getFontRecordByUrl srcPath)
    (fun io hio hread => hnone (unread_missed hv (Record.atUrl_item · srcPath) rfl hio hread)) ?_
  unfold RecordStore.findInfo
  cases hf : v.records.find? (has Record.urls srcPath) with
  | none => exact hnone fun _ => hf
  | some r => exact hsome _

theorem createConfig (hv : v.Shows u w) {Q : Bool → World → Prop}
    (h : ∀ b w' v', v.Shrinks v' → v'.Shows u w' → Frame (· = configLoc u) w w' → Q b w') :
    Ensures ok (createConfig (configPath u)) Q w := by
  intro io _
  obtain ⟨v', hshrinks, hshows⟩ := View.createConfig_shows hv io
  have hf := World.createConfig_frame w (configPath u) io
  rw [locate_configPath] at hf
  exact h _ _ v' hshrinks hshows hf

theorem checkFontConfigPath (hv : v.Shows u w) {Q : Bool → World → Prop}
    (h : ∀ b w' v', v.Shrinks v' → v'.Shows u w' → Frame (· = configLoc u) w w' → Q b w') :
    Ensures ok (checkFontConfigPath (installPath u)) Q w := by
  refine bind (checkPathExist fun b => ?_)
  cases b with
  | true => exact pure (h _ _ v (.refl v) hv (.refl _ w))
  | false =>
    show Ensures ok (createFileWithPermission (configPath u)) Q w
    unfold createFileWithPermission
    by_cases hp : configPath u = [] ∨ hasDotComponent (configPath u) = true
    · rw [if_pos hp]
      exact pure (h _ _ v (.refl v) hv (.refl _ w))
    · rw [if_neg hp]
      exact createConfig hv h

theorem checkAndInitInstallPath (hv : v.Shows u w) {Q : Bool → World → Prop}
    (h : ∀ b w' v', v.Shrinks v' → v'.Shows u w' → Frame (Scaffold u) w w' → Q b w') :
    Ensures ok (checkAndInitInstallPath (installPath u)) Q w := by
  refine bind (checkAndInitScopeFontPath fun b w₁ h₁ => ?_)
  have h₁' : Frame (fun l => l = userDir u ∨ l = userDir u ++ [tempDir]) w w₁ :=
    h₁.mono fun l hl => by
      rwa [locate_installPath, installPath_eq, locate_dir_tempFile (userDir_plain u)] at hl
  have hv₁ := hv.frame h₁' fun hl => hl.elim (configLoc_ne_userDir u)
    (configLoc_ne_append (by decide))
  cases b with
  | true =>
    refine checkFontConfigPath hv₁ fun b w₂ v₂ hs hv₂ h₂ => h b w₂ v₂ hs hv₂ ?_
    exact (h₁'.trans h₂).mono fun l hl => or_assoc.mp hl
  | false => exact pure (h _ _ v (.refl v) hv₁ (h₁'.mono fun l hl => or_assoc.mp (Or.inl hl)))

theorem getMaxInstallNum {Q : Int → World → Prop}
    (h : Q (FontManagerUtils.getMaxInstallNum w.maxInstallNum) w) :
    Ensures ok FontManager.getMaxInstallNum Q w := fun _ _ => h

theorem fixStaleRecords {names : List Str} (hv : v.Shows u w)
    {Q : Option FontErrorCode → World → Prop}
    (h : ∀ code w' v', code ≠ some .ok → v.Shrinks v' → v'.Shows u w' →
      Frame (· = configLoc u) w w' →
      (code = none → Attentive ok → Sound v.records → Unnamed names v'.records) → Q code w') :
    Ensures ok (FontManager.fixStaleRecords u (installPath u) names) Q w := by
  induction names generalizing w v with
  | nil => exact pure (h _ _ v (by simp) (.refl v) hv (.refl _ w) fun _ _ _ => by simp [Unnamed])
  | cons n rest ih =>
    have skip : (Attentive ok → Sound v.records → Unnamed [n] v.records) →
        Ensures ok (FontManager.fixStaleRecords u (installPath u) rest) Q w := fun hn =>
      ih hv fun code w' v' hc hs hv' hf hrest => h code w' v' hc hs hv' hf fun hc hatt hsound => by
        intro m hm r hr
        rcases List.mem_cons.mp hm with rfl | hm
        · exact hn hatt hsound m (by simp) r (hs.records_sublist.subset hr)
        · exact hrest hc hatt hsound m hm r hr
    have missed : (Attentive ok → v.records.find? (has Record.fullNames n) = none) →
        Ensures ok (FontManager.fixStaleRecords u (installPath u) rest) Q w := fun hnone =>
      skip fun hatt _ m hm r hr => List.mem_singleton.mp hm ▸ find_has_none.mp (hnone hatt) r hr
    refine bind (query hv (v.edit_getFontFileByName n)
      (fun io hio hread => missed (unread_missed hv (Record.named_item · n) rfl hio hread)) ?_)
    cases hf : v.records.find? (has Record.fullNames n) with
    | none =>
      simp only [Option.map_none, Option.getD_none, if_true]
      exact missed fun _ => hf
    | some r =>
      simp only [Option.map_some, Option.getD_some]
      by_cases hp : r.fontPath = []
      · rw [if_pos hp]
        refine skip fun _ hsound => ?_
        obtain ⟨s, hs⟩ := hsound.placed r (find_has_some hf).1
        exact absurd (hs.path ▸ hp) (sandbox_ne_nil s)
      · rw [if_neg hp]
        refine bind (checkPathExist fun b => ?_)
        cases b with
        | true => exact pure (h _ _ v (by simp) (.refl v) hv (.refl _ w) (by simp))
        | false =>
          refine bind (config hv fun io w₁ _ hw₁ hv₁ => ?_)
          have hs₁ := v.step_deleteFontRecord_shrinks r.fontPath io
          cases hd : (v.step (.deleteFontRecord r.fontPath) io).1 with
          | false => exact pure (h _ _ _ (by simp) hs₁ hv₁ hw₁ (by simp))
          | true =>
            refine ih hv₁ fun code w' v' hc hs hv' hf' hrest =>
              h code w' v' hc (hs₁.trans hs) hv' (hw₁.step hf') fun hc hatt hsound => ?_
            have hgone := View.step_deleteFontRecord_unnamed hsound hf hd
            have hsound₁ := hsound.sublist hs₁.records_sublist
            intro m hm t ht
            rcases List.mem_cons.mp hm with rfl | hm
            · exact hgone m (by simp) t (hs.records_sublist.subset ht)
            · exact hrest hc hatt hsound₁ m hm t ht

theorem copyAndInsertFont (hv : v.Shows u w) {env : Env} {fd : Fd} {limit : Int} {v₀ : View}
    {w₀ : World} (hs : v₀.Shrinks v)
    (hn : Attentive ok → Sound v₀.records → Unnamed (getFullNamesByFd fd) v.records)
    (hw : Frame (InstallTouches u (userSlot env fd)) w₀ w) :
    Ensures ok (FontManager.copyAndInsertFont env fd u (getFullNamesByFd fd) limit)
      (fun code w' => ∃ v', v'.Shows u w' ∧
        InstallEffect ok u (userSlot env fd) (UserFresh env fd)
          (Record.user (userSlot env fd).sandbox (getFullNamesByFd fd)) fd v₀ w₀ code v' w') w := by
  have hslot := userSlot_valid env fd
  have hname := hslot.tagged.plain
  have hroot : userDir u ++ (userSlot env fd).dir.toList = userDir u := List.append_nil _
  have hconfig := configLoc_not_copied (u := u) hslot
  rw [hroot] at hconfig
  have wide : ∀ l, CopyTouches (userDir u) (userSlot env fd).name l →
      InstallTouches u (userSlot env fd) l := fun l hl => Or.inr (Or.inr (Or.inl (by rwa [hroot])))
  unfold FontManager.copyAndInsertFont
  rw [installPath_eq]
  refine bind (copyFileForInstall (userDir_plain u) hname (fun w₁ h₁ => ?_) fun w₁ h₁ hfile => ?_)
  · exact pure ⟨v, hv.frame h₁ hconfig, .failed (by simp) hs⟩
  · have hv₁ := hv.frame h₁ hconfig
    have hw₁ := hw.step (h₁.mono wide)
    have hpath : installPathApp ++ getFileName (dirPath (userDir u) ++ (userSlot env fd).name) =
        (userSlot env fd).sandbox := by
      rw [getFileName_dirPath _ hname.noSlash, userSlot, sandbox_none]
    have hdest : dirPath (userDir u) ++ (userSlot env fd).name ≠ [] := by simp [dirPath]
    have hloc := locate_name (userDir_plain u) hname
    change Ensures ok (if dirPath (userDir u) ++ (userSlot env fd).name = [] then _ else do
      let insertRet ← FontManager.config u (.insertFontRecordIfUnderLimit
        (installPathApp ++ getFileName (dirPath (userDir u) ++ (userSlot env fd).name)) _ _)
      if insertRet ≠ .ok then do
        FontManagerUtils.deleteDir (dirPath (userDir u) ++ (userSlot env fd).name)
        _
      else _) _ _
    rw [if_neg hdest, hpath]
    refine bind (config hv₁ fun io w₂ hio h₂ hv₂ => ?_)
    have hw₂ := hw₁.step (h₂.mono fun l hl => Or.inl (Or.inr (Or.inr hl)))
    have hfile₂ : w₂.tree.lookup ((userSlot env fd).loc u) = some (.bytes fd.content) := by
      rw [h₂.tree _ fun he => ?_]
      · exact hfile
      · exact configLoc_not_loc hslot (FileTree.prefix_of_eq he)
    rcases v.step_insertFontRecordIfUnderLimit (userSlot env fd).sandbox (getFullNamesByFd fd) limit
      io with ⟨hcode, hs₂⟩ | ⟨rs, rfl, hq, hr⟩ | ⟨left, hl, hr⟩ | ⟨rs, rfl, hq, hr⟩
    · rw [if_pos hcode]
      refine bind (deleteDir fun w₃ h₃ => pure ⟨_, hv₂.frame h₃ ?_, .failed hcode (hs.trans hs₂)⟩)
      rw [hloc]
      exact configLoc_not_loc hslot
    · rw [hr] at hv₂ ⊢
      exact fun _ _ => ⟨_, hv₂, (InstallEffect.skipped rfl hs hn hq hw₂ hfile₂).published _⟩
    · rw [hr] at hv₂ ⊢
      exact fun _ _ => ⟨_, hv₂, .lost hio hl⟩
    · rw [hr] at hv₂ ⊢
      exact fun _ _ => ⟨_, hv₂, (InstallEffect.stored hs hn hq hw₂ hfile₂).published _⟩

theorem installFont (hv : v.Shows u w) (env : Env) (fd : Fd) :
    Ensures ok (FontManager.installFont env fd u)
      (fun code w' => ∃ v', v'.Shows u w' ∧
        InstallEffect ok u (userSlot env fd) (UserFresh env fd)
          (Record.user (userSlot env fd).sandbox (getFullNamesByFd fd)) fd v w code v' w') w := by
  refine bind (checkAndInitInstallPath hv fun b w₁ v₁ hs₁ hv₁ h₁ => ?_)
  cases b with
  | false => exact pure ⟨v₁, hv₁, .failed (by simp) hs₁⟩
  | true =>
    simp only [if_true]
    by_cases hnames : getFullNamesByFd fd = []
    · rw [if_pos hnames]
      exact pure ⟨v₁, hv₁, .failed (by simp) hs₁⟩
    · rw [if_neg hnames]
      refine bind (fixStaleRecords hv₁ fun code w₂ v₂ hc hs₂ hv₂ h₂ hn => ?_)
      cases code with
      | some code => exact pure ⟨v₂, hv₂, .failed (fun h => hc (congrArg some h)) (hs₁.trans hs₂)⟩
      | none =>
        refine bind (getMaxInstallNum ?_)
        refine bind (answered hv₂ v₂.edit_getInstalledFontsNum (P := fun _ => True) trivial
          trivial fun n _ => ?_)
        by_cases hlimit : (n : Int) ≥ FontManagerUtils.getMaxInstallNum w₂.maxInstallNum
        · rw [if_pos hlimit]
          exact pure ⟨v₂, hv₂, .failed (by simp) (hs₁.trans hs₂)⟩
        · rw [if_neg hlimit]
          refine copyAndInsertFont hv₂ (hs₁.trans hs₂)
            (fun hatt hsound => hn rfl hatt (hsound.sublist hs₁.records_sublist)) ?_
          exact (h₁.mono fun l hl => Or.inl hl).step (h₂.mono fun l hl => Or.inl (Or.inr (Or.inr hl)))

theorem findInstalledName {names : List Str} (hv : v.Shows u w) {Q : Bool → World → Prop}
    (h : ∀ b, (b = false → Attentive ok → Unnamed names v.records) → Q b w) :
    Ensures ok (FontManager.findInstalledName u names) Q w := by
  induction names with
  | nil => exact pure (h _ fun _ _ => by simp [Unnamed])
  | cons n rest ih =>
    refine bind (getFontRecordByName hv (fun info => ?_) fun hnone => ?_)
    · exact pure (h _ (by simp))
    · refine ih fun b hb => h b fun hfalse hatt m hm r hr => ?_
      rcases List.mem_cons.mp hm with rfl | hm
      · exact find_has_none.mp (hnone hatt) r hr
      · exact hb hfalse hatt m hm r hr

theorem validateScopeFontForInstall (hv : v.Shows u w) (srcPath : Str) (fd : Fd)
    {Q : FontErrorCode → World → Prop}
    (h : ∀ code, (code = .ok → Attentive ok → (∀ q ∈ v.records, srcPath ∉ q.urls) ∧
      Unnamed (getFullNamesByFd fd) v.records) → Q code w) :
    Ensures ok (FontManager.validateScopeFontForInstall u srcPath fd) Q w := by
  refine bind (getFontRecordByUrl hv (fun info => ?_) fun hnone => ?_)
  · exact pure (h _ (by simp))
  · refine bind (getMaxInstallNum
      (bind (answered hv v.edit_getTotalInstalledFontsNum (P := fun _ => True)
      trivial trivial fun n _ => ?_)))
    by_cases hlimit : (n : Int) ≥ FontManagerUtils.getMaxInstallNum w.maxInstallNum
    · rw [if_pos hlimit]
      exact pure (h _ (by simp))
    · rw [if_neg hlimit]
      by_cases hnames : getFullNamesByFd fd = []
      · rw [if_pos hnames]
        exact pure (h _ (by simp))
      · rw [if_neg hnames]
        refine bind (findInstalledName hv fun b hb => ?_)
        cases b with
        | true => exact pure (h _ (by simp))
        | false => exact pure (h _ fun _ hatt => ⟨find_has_none.mp (hnone hatt), hb rfl hatt⟩)

theorem copyAndInsertScopeFont {env : Env} {info : ScopeFontInstallInfo}
    (hid : ∃ t, info.appIdentifier = makeAppIdentifier info.scope t) (hv : v.Shows info.userId w)
    {v₀ : View} {w₀ : World} (hs : v₀.Shrinks v)
    (hn : Attentive ok → Unnamed (getFullNamesByFd info.fd) v.records)
    (hfresh : ScopeFresh ok info v.records)
    (hw : Frame (InstallTouches info.userId (appSlot env info.fd info.appIdentifier)) w₀ w) :
    Ensures ok (FontManager.copyAndInsertScopeFont env info)
      (fun code w' => ∃ v', v'.Shows info.userId w' ∧
        InstallEffect ok info.userId (appSlot env info.fd info.appIdentifier) (ScopeFresh ok info)
          (Record.ofInfo (installedInfo env info)) info.fd v₀ w₀ code v' w') w := by
  obtain ⟨t, hid⟩ := hid
  have hslot : (appSlot env info.fd info.appIdentifier).Valid :=
    hid ▸ appSlot_valid env info.fd info.scope t
  have hplain : Plain info.appIdentifier := hid ▸ makeAppIdentifier_plain info.scope t
  have hname : Plain (FontManager.taggedName env (getFileName (getFilePathByFd info.fd))) :=
    hslot.tagged.plain
  have hdir := appDir_plain info.userId hplain
  have hconfig := configLoc_not_copied (u := info.userId) hslot
  unfold FontManager.copyAndInsertScopeFont
  rw [getAppInstallPath_eq]
  refine bind (checkAndInitScopeFontPath fun b w₁ h₁ => ?_)
  rw [locate_dirPath hdir, locate_dir_tempFile hdir] at h₁
  have hne : ∀ l, configLoc info.userId ≠ userDir info.userId ++ info.appIdentifier :: l :=
    fun l he => userDir_noPrefix_configLoc (hid ▸ fontConfigFile_ne_app info.scope t)
      (FileTree.prefix_of_eq he.symm)
  have hv₁ := hv.frame h₁ (by simpa using ⟨hne [], hne [tempDir]⟩)
  have hw₁ : Frame (InstallTouches info.userId (appSlot env info.fd info.appIdentifier)) w₀ w₁ :=
    hw.step (h₁.mono fun l hl => Or.inr (Or.inl ⟨info.appIdentifier, rfl, by simpa using hl⟩))
  cases b with
  | false => exact pure ⟨v, hv₁, .failed (by simp) hs⟩
  | true =>
    simp only [if_true]
    refine bind (copyFileForInstall hdir hname (fun w₂ h₂ => ?_) fun w₂ h₂ hfile => ?_)
    · exact pure ⟨v, hv₁.frame h₂ hconfig, .failed (by simp) hs⟩
    · have hv₂ := hv₁.frame h₂ hconfig
      have hw₂ := hw₁.step (h₂.mono fun l hl => Or.inr (Or.inr (Or.inl hl)))
      have hdest : dirPath (userDir info.userId ++ [info.appIdentifier]) ++
          FontManager.taggedName env (getFileName (getFilePathByFd info.fd)) ≠ [] := by
        simp [dirPath]
      have hrecord : FontManager.scopeRecord info
          (dirPath (userDir info.userId ++ [info.appIdentifier]) ++
            FontManager.taggedName env (getFileName (getFilePathByFd info.fd))) =
          installedInfo env info := by
        rw [FontManager.scopeRecord, getFileName_dirPath _ hname.noSlash, ← sandbox_some]
        rfl
      have hloc : locate (dirPath (userDir info.userId ++ [info.appIdentifier]) ++
          FontManager.taggedName env (getFileName (getFilePathByFd info.fd))) =
          (appSlot env info.fd info.appIdentifier).loc info.userId := by
        rw [locate_name hdir hname, List.append_assoc]
        rfl
      rw [if_neg hdest, hrecord]
      refine bind (config hv₂ fun io w₃ hio h₃ hv₃ => ?_)
      have hw₃ := hw₂.step (h₃.mono fun l hl => Or.inl (Or.inr (Or.inr hl)))
      have hfile₃ : w₃.tree.lookup ((appSlot env info.fd info.appIdentifier).loc info.userId) =
          some (.bytes info.fd.content) := by
        rw [h₃.tree _ fun he => configLoc_not_loc hslot (FileTree.prefix_of_eq he)]
        simpa [Slot.loc, Slot.sub, appSlot] using hfile
      rcases v.step_insertScopeFontRecord (installedInfo env info) io with
        ⟨hcode, hs₃⟩ | ⟨left, hl, hr⟩ | ⟨rs, rfl, hr⟩
      · rw [hcode]
        refine bind (deleteDir fun w₄ h₄ => pure ⟨_, hv₃.frame h₄ ?_, .failed (by simp)
          (hs.trans hs₃)⟩)
        rw [hloc]
        exact configLoc_not_loc hslot
      · rw [hr] at hv₃ ⊢
        exact pure ⟨_, hv₃, .lost hio hl⟩
      · rw [hr] at hv₃ ⊢
        exact pure ⟨_, hv₃, .stored hs (fun hatt _ => hn hatt) hfresh hw₃ hfile₃⟩

theorem installScopeFont {info : ScopeFontInstallInfo} (hv : v.Shows info.userId w) (env : Env)
    (hid : ∃ t, info.appIdentifier = makeAppIdentifier info.scope t) :
    Ensures ok (FontManager.installScopeFont env info)
      (fun code w' => ∃ v', v'.Shows info.userId w' ∧
        InstallEffect ok info.userId (appSlot env info.fd info.appIdentifier) (ScopeFresh ok info)
          (Record.ofInfo (installedInfo env info)) info.fd v w code v' w') w := by
  unfold FontManager.installScopeFont
  by_cases hscope : info.scope ≠ fontScopeApp ∧ info.scope ≠ fontScopeSession
  · rw [if_pos hscope]
    exact pure ⟨v, hv, .failed (by simp) (.refl v)⟩
  · have hscope' : info.scope = fontScopeApp ∨ info.scope = fontScopeSession := by
      rwa [not_and_or, not_not, not_not] at hscope
    rw [if_neg hscope]
    refine bind (checkAndInitInstallPath hv fun b w₁ v₁ hs₁ hv₁ h₁ => ?_)
    cases b with
    | false => exact pure ⟨v₁, hv₁, .failed (by simp) hs₁⟩
    | true =>
      simp only [if_true]
      refine bind (query hv₁ (v₁.edit_checkAndUpdateFontRecord)
        (fun _ _ _ => pure ⟨v₁, hv₁, .failed (by simp) hs₁⟩) ?_)
      cases hsome : v₁.isSome with
      | false => exact pure ⟨v₁, hv₁, .failed (by simp) hs₁⟩
      | true =>
        simp only [if_true]
        refine bind (validateScopeFontForInstall hv₁ _ _ fun ret hret => ?_)
        by_cases hok : ret = .ok
        · rw [if_neg (not_not.mpr hok)]
          refine bind ((copyAndInsertScopeFont hid hv₁ hs₁ (fun hatt => (hret hok hatt).2)
            ⟨hscope', fun hatt => (hret hok hatt).1⟩ (h₁.mono fun l hl => Or.inl hl)).mono fun code w' hw' => ?_)
          obtain ⟨v', hv', heffect⟩ := hw'
          by_cases hcode : code = .ok
          · obtain rfl := hcode
            rw [if_neg (by simp)]
            exact fun _ _ => ⟨v', hv', heffect.published _⟩
          · rw [if_pos hcode]
            exact pure ⟨v', hv', heffect⟩
        · rw [if_pos hok]
          exact pure ⟨v₁, hv₁, .failed hok hs₁⟩

end Ensures
