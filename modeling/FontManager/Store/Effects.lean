import FontManager.Store.Document
import FontManager.Store.Location

open FontDefine FontManagerUtils FontLocation Interaction

structure Frame (touched : Loc → Prop) (w w' : World) : Prop where
  tree : ∀ loc, ¬ touched loc → w'.tree.lookup loc = w.tree.lookup loc
  registry : w'.registry = w.registry
  maxInstallNum : w'.maxInstallNum = w.maxInstallNum
  createdUserIds : w'.createdUserIds = w.createdUserIds

namespace Frame

variable {S T : Loc → Prop} {w w' w'' : World}

theorem refl (S : Loc → Prop) (w : World) : Frame S w w := ⟨fun _ _ => rfl, rfl, rfl, rfl⟩

theorem trans (h : Frame S w w') (h' : Frame T w' w'') : Frame (fun l => S l ∨ T l) w w'' where
  tree loc hloc := (h'.tree loc fun ht => hloc (Or.inr ht)).trans
    (h.tree loc fun hs => hloc (Or.inl hs))
  registry := h'.registry.trans h.registry
  maxInstallNum := h'.maxInstallNum.trans h.maxInstallNum
  createdUserIds := h'.createdUserIds.trans h.createdUserIds

theorem mono (h : Frame S w w') (hST : ∀ loc, S loc → T loc) : Frame T w w' :=
  { h with tree := fun loc hloc => h.tree loc fun hs => hloc (hST loc hs) }

theorem step (h : Frame S w w') (h' : Frame S w' w'') : Frame S w w'' :=
  (h.trans h').mono fun _ hs => hs.elim id id

theorem ofTree {t : FileTree Str Entry} (h : ∀ loc, ¬ S loc → t.lookup loc = w.tree.lookup loc) :
    Frame S w { w with tree := t } := ⟨h, rfl, rfl, rfl⟩

end Frame

def configLoc (u : Int) : Loc := userDir u ++ [fontConfigFile]

def World.provisioned (userIds : List Int) : World where
  tree := userIds.flatMap fun u =>
    [(userDir u, .dir), (userDir u ++ [tempDir], .dir), (configLoc u, .document emptyConfig)]
  registry := .empty
  maxInstallNum := defaultMaxInstallNum
  createdUserIds := userIds
  published := []

namespace Sample

def noon (sec : Nat) : Env := ⟨⟨125, 0, 1, 12, 0, sec⟩, 7⟩

def sourceFont (fullName : Str) (byte : UInt8) : Fd :=
  ⟨some "/data/source.ttf".toList, [byte], [fullName]⟩

def sharedFont : World :=
  { World.provisioned [100] with
    tree := (locate (installPathApp ++ "a.ttf".toList), .bytes [1]) ::
      (World.provisioned [100]).tree }

end Sample

theorem fontConfigFile_plain : Plain fontConfigFile := by decide

theorem locate_configPath (u : Int) : locate (configPath u) = configLoc u := by
  rw [configPath, installPath_eq, dirPath_append_name, locate_joinPath]
  · rfl
  · intro c hc
    rcases List.mem_append.mp hc with hc | hc
    · exact userDir_plain u c hc
    · exact List.mem_singleton.mp hc ▸ fontConfigFile_plain

theorem configLoc_below (u : Int) : userDir u <+: configLoc u := List.prefix_append _ _

theorem configLoc_injective {u v : Int} (h : configLoc u = configLoc v) : u = v :=
  userDir_leads (FileTree.prefix_of_eq h)

namespace World

variable {S : Loc → Prop} {w w' : World} {u : Int}

theorem frame_put (w : World) (path : Str) (e : Entry) :
    Frame (· = locate path) w (w.put path e) :=
  .ofTree fun _ hloc => FileTree.lookup_put_ne (Ne.symm hloc)

theorem frame_prune (w : World) (loc : Loc) :
    Frame (loc <+: ·) w { w with tree := w.tree.prune loc } :=
  .ofTree fun _ hloc => FileTree.lookup_prune_of_not_under hloc

theorem config_eq_match (w : World) (u : Int) :
    w.config u = match w.tree.lookup (configLoc u) with
      | some (.document json) => some json
      | _ => none :=
  congrArg (fun e : Option Entry => match e with
    | some (.document json) => some json
    | _ => none) (congrArg w.tree.lookup (locate_configPath u))

theorem config_provisioned {userIds : List Int} {json : Json}
    (h : (provisioned userIds).config u = some json) : json = emptyConfig := by
  rw [config_eq_match] at h
  split at h
  · rename_i j hj
    obtain ⟨x, hx, heq⟩ := Option.map_eq_some_iff.mp hj
    obtain ⟨v, -, hmem⟩ := List.mem_flatMap.mp (List.mem_of_find?_eq_some hx)
    have hdoc : x.2 = .dir ∨ x.2 = .document emptyConfig := by
      simp only [List.mem_cons, List.not_mem_nil, or_false] at hmem
      rcases hmem with rfl | rfl | rfl <;> simp
    rw [heq] at hdoc
    rcases hdoc with hdoc | hdoc
    · cases hdoc
    · cases hdoc
      exact (Option.some.inj h).symm
  · cases h

theorem config_congr (h : w'.tree.lookup (configLoc u) = w.tree.lookup (configLoc u)) :
    w'.config u = w.config u := by
  rw [config_eq_match, config_eq_match, h]

theorem config_frame (h : Frame S w w') (hu : ¬ S (configLoc u)) : w'.config u = w.config u :=
  config_congr (h.tree _ hu)

theorem config_put (path : Str) (e : Entry) : (w.put path e).config u =
    if locate path = configLoc u then
      match e with
      | .document json => some json
      | _ => none
    else w.config u := by
  split
  · rename_i hpath
    rw [config_eq_match, put, hpath, FileTree.lookup_put_self]
    cases e <;> rfl
  · rename_i hpath
    exact config_frame (w.frame_put path e) (Ne.symm hpath)

theorem config_configPath (e : Entry) : (w.put (configPath u) e).config u =
    match e with
    | .document json => some json
    | _ => none := by
  rw [config_put, if_pos (locate_configPath u)]

end World

def FileOp.touches : FileOp → Loc → Prop
  | .createDirectory path, loc => loc = locate path
  | .createConfig path, loc => loc = locate path
  | .copy _ path, loc => loc = locate path
  | .rename src dest, loc => locate src <+: loc ∨ loc = locate dest
  | .removeAll path, loc => locate path <+: loc
  | _, _ => False

namespace World

theorem createDirectory_frame (w : World) (path : Str) (io : Io) :
    Frame (· = locate path) w (w.createDirectory path io).2 := by
  unfold createDirectory
  split
  · exact .refl _ w
  · split
    · exact .refl _ w
    · exact .refl _ w
    · split
      · exact frame_put w path _
      · exact .refl _ w

theorem createConfig_frame (w : World) (path : Str) (io : Io) :
    Frame (· = locate path) w (w.createConfig path io).2 := by
  unfold createConfig
  split
  · exact .refl _ w
  · split
    · exact frame_put w path _
    · exact .refl _ w
    · exact frame_put w path _
    · exact frame_put w path _

theorem copy_frame (w : World) (fd : Fd) (path : Str) (io : Io) :
    Frame (· = locate path) w (w.copy fd path io).2 := by
  unfold copy
  split
  · exact .refl _ w
  · split
    · exact frame_put w path _
    · exact frame_put w path _

theorem rename_frame (w : World) (src dest : Str) (ok : Bool) :
    Frame (FileOp.rename src dest).touches w (w.rename src dest ok).2 := by
  unfold rename
  split
  · split
    · refine .ofTree fun loc hloc => ?_
      rw [FileTree.lookup_put_ne fun h => hloc (Or.inr h.symm),
        FileTree.lookup_prune_of_not_under fun h => hloc (Or.inl h)]
    · exact .refl _ w
  · exact .refl _ w

theorem removeAll_frame (w : World) (path : Str) (io : Io) :
    Frame (locate path <+: ·) w (w.removeAll path io).2 := by
  unfold removeAll
  split
  · exact frame_prune w _
  · refine .ofTree fun loc hloc => ?_
    have hu : FileTree.under (locate path) loc = false :=
      Bool.eq_false_iff.mpr (mt FileTree.under_iff.mp hloc)
    simp [FileTree.lookup_keep, hu]

theorem execFile_frame (w : World) (io : Io) (op : FileOp) :
    Frame op.touches w (w.execFile io op).2 := by
  cases op with
  | «exists» path => exact .refl _ w
  | createDirectory path => exact createDirectory_frame w path io
  | createConfig path => exact createConfig_frame w path io
  | copy fd path => exact copy_frame w fd path io
  | rename src dest => exact rename_frame w src dest io.ok
  | removeAll path => exact removeAll_frame w path io
  | weaklyCanonical path => exact .refl _ w
  | directories path => exact .refl _ w

theorem writeFile_frame (w : World) (path : Str) (json : Json) (outcome : WriteOutcome) :
    Frame (· = locate path) w (w.writeFile path json outcome).2 := by
  cases outcome with
  | complete => exact frame_put w path _
  | openFails => exact .refl _ w
  | short left => exact frame_put w path _
  | lost left => exact frame_put w path _

theorem execConfig_frame (w : World) (u : Int) (op : ConfigOp) (io : Io) :
    Frame (· = configLoc u) w (w.execConfig u op io).2 := by
  rw [← locate_configPath]
  unfold execConfig applyEdit
  split
  · exact .refl _ w
  · exact writeFile_frame w _ _ _

theorem exec_registry {w : World} {o : Op} (io : Io) (h : ∀ op, o ≠ .registry op) :
    (w.exec o io).2.registry = w.registry := by
  cases o with
  | config u op => exact (execConfig_frame w u op io).registry
  | file op => exact (execFile_frame w io op).registry
  | registry op => exact absurd rfl (h op)
  | _ => rfl

theorem exec_createdUserIds (w : World) (o : Op) (io : Io) :
    (w.exec o io).2.createdUserIds = w.createdUserIds := by
  cases o with
  | config u op => exact (execConfig_frame w u op io).createdUserIds
  | file op => exact (execFile_frame w io op).createdUserIds
  | registry op => cases op <;> rfl
  | _ => rfl

end World

def ConfigOp.failure : (op : ConfigOp) → op.Reply
  | .insertFontRecord _ _ => false
  | .insertFontRecordIfUnderLimit _ _ _ => FontErrorCode.installFail
  | .insertScopeFontRecord _ => false
  | .deleteFontRecord _ => false
  | .deleteScopeFontRecordByUrl _ => false
  | .deleteScopeFontRecordByAppId _ => false
  | .checkAndUpdateFontRecord => false
  | .getInstalledFontsNum => (0 : Nat)
  | .getTotalInstalledFontsNum => (0 : Nat)
  | .getFontFileByName _ => ([] : Str)
  | .getFontRecordByName _ => (none : Option FontRecordInfo)
  | .getFontRecordByUrl _ => (none : Option FontRecordInfo)
  | .getFontRecordsByAppId _ => ([] : List FontRecordInfo)
  | .getScopeFontRecords => ([] : List FontRecordInfo)
  | .getAppScopeFontRecords => ([] : List FontRecordInfo)

theorem edit_none (names : Str → List Str) (path : Str) (op : ConfigOp) :
    op.edit names path none = .keep op.failure := by
  cases op <;> rfl

namespace World

theorem checkConfigFile_true (w : World) (u : Int) : w.checkConfigFile u true = w.config u := rfl

theorem execConfig_readable {io : Io} (h : io.ok = true) (w : World) (u : Int) (op : ConfigOp) :
    w.execConfig u op io =
      w.applyEdit (configPath u) io.write (op.edit io.fullNames (configPath u) (w.config u)) := by
  rw [execConfig, h, checkConfigFile_true]

theorem execConfig_unreadable {io : Io} (h : io.ok = false) (w : World) (u : Int) (op : ConfigOp) :
    w.execConfig u op io = (op.failure, w) := by
  rw [execConfig, h]
  exact congrArg (w.applyEdit _ _) (edit_none _ _ op)

end World

abbrev View := Option (List Record)

namespace View

def edit (v : View) (op : ConfigOp) : Edit (List Record) op.Reply :=
  match v with
  | none => .keep op.failure
  | some rs => RecordStore.edit rs op

def apply {α : Type} (v : View) (outcome : WriteOutcome) : Edit (List Record) α → α × View
  | .keep reply => (reply, v)
  | .write rs done failed =>
    match outcome with
    | .complete => (done, some rs)
    | .openFails => (failed, v)
    | .short _ => (failed, none)
    | .lost _ => (done, none)

def step (v : View) (op : ConfigOp) (io : Io) : op.Reply × View :=
  if io.ok then v.apply io.write (v.edit op) else (op.failure, v)

theorem step_readable {io : Io} (h : io.ok = true) (v : View) (op : ConfigOp) :
    v.step op io = v.apply io.write (v.edit op) := if_pos h

theorem step_unreadable {io : Io} (h : io.ok = false) (v : View) (op : ConfigOp) :
    v.step op io = (op.failure, v) := by
  rw [step, h]
  rfl

def Shows (u : Int) (v : View) (w : World) : Prop := w.config u = v.map RecordStore.document

theorem edit_shows {u : Int} {v : View} {w : World} (h : v.Shows u w) (names : Str → List Str)
    (path : Str) (op : ConfigOp) :
    op.edit names path (w.config u) = (v.edit op).map RecordStore.document := by
  rw [h]
  cases v with
  | none => exact edit_none names path op
  | some rs => exact RecordStore.edit_document names path rs op

theorem shows_put {u : Int} (w : World) (rs : List Record) :
    Shows u (some rs) (w.put (configPath u) (.document (RecordStore.document rs))) := by
  simp [Shows, World.config_eq_match, World.put, locate_configPath]

theorem shows_torn {u : Int} (w : World) (left : List UInt8) :
    Shows u none (w.put (configPath u) (.bytes left)) := by
  simp [Shows, World.config_eq_match, World.put, locate_configPath]

theorem applyEdit_shows {α : Type} {u : Int} {v : View} {w : World} (h : v.Shows u w)
    (outcome : WriteOutcome) (e : Edit (List Record) α) :
    (w.applyEdit (configPath u) outcome (e.map RecordStore.document)).1 = (v.apply outcome e).1 ∧
      (v.apply outcome e).2.Shows u
        (w.applyEdit (configPath u) outcome (e.map RecordStore.document)).2 := by
  cases e with
  | keep reply => exact ⟨rfl, h⟩
  | write rs done failed =>
    cases outcome with
    | complete => exact ⟨rfl, shows_put w rs⟩
    | openFails => exact ⟨rfl, h⟩
    | short left => exact ⟨rfl, shows_torn w left⟩
    | lost left => exact ⟨rfl, shows_torn w left⟩

theorem execConfig_shows {u : Int} {v : View} {w : World} (h : v.Shows u w) (op : ConfigOp)
    (io : Io) :
    (w.execConfig u op io).1 = (v.step op io).1 ∧
      (v.step op io).2.Shows u (w.execConfig u op io).2 := by
  cases hio : io.ok with
  | true =>
    rw [World.execConfig_readable hio, step_readable hio, edit_shows h]
    exact applyEdit_shows h io.write (v.edit op)
  | false =>
    rw [World.execConfig_unreadable hio, step_unreadable hio]
    exact ⟨rfl, h⟩

theorem Shows.frame {S : Loc → Prop} {u : Int} {v : View} {w w' : World} (h : v.Shows u w)
    (hf : Frame S w w') (hu : ¬ S (configLoc u)) : v.Shows u w' :=
  (World.config_frame hf hu).trans h

end View
