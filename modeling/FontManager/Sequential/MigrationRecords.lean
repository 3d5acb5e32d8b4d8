import FontManager.Sequential.MigrationOutcome
import FontManager.Source.Lifecycle

open FontDefine FontManagerUtils FontLocation FontConfig CJson Interaction DataMigrationManager

namespace Migration

variable {C : Type} {u : Int} {users : List Int} {files : List Loc} {w w' : World}
  {fontNames : Entry → List Str}

def Truthful (_ : Process C) (o : ProcessOp C) (io : Io) : Prop :=
  ∀ path, o = .font (.file (.exists path)) → io.ok = true

def Reading (fontNames : Entry → List Str) (s : Process C) (o : ProcessOp C) (io : Io) : Prop :=
  (∀ u op, o = .font (.config u op) → io.ok = true) ∧ io.write = .complete ∧
    io.fullNames = namesIn fontNames s.world.tree.lookup

def sharedConfig (w : World) : Option Json :=
  match w.tree.lookup (publicDir ++ [fontConfigFile]) with
  | some (.document j) => some j
  | _ => none

-- A name that the shared config resolves to a font that the migration finds.
structure SharedFont (w : World) (n : Str) (r : FontRecordInfo) (content : List UInt8) : Prop where
  resolved : getFontRecordByName n (sharedConfig w) = some r
  listed : locate r.fontPath ∈ w.files publicDir
  content : w.tree.lookup (locate r.fontPath) = some (.bytes content)

def fontLoc (u : Int) (r : FontRecordInfo) : Loc := dest u (locate r.fontPath)

-- The record found under the name is one of the font's file in the user's directory, and that file holds
-- the font; the user's own records are where they were, with their names.
structure CarriedOver (u : Int) (w w' : World) : Prop where
  resolved : ∀ n r content, SharedFont w n r content →
    ∃ r', getFontRecordByName n (w'.config u) = some r' ∧
      locate (realPath u r'.fontPath) = fontLoc u r
  migrated : ∀ n r content, SharedFont w n r content →
    w'.tree.lookup (fontLoc u r) = some (.bytes content)
  kept : ∀ (i : Nat) item, (listed (w.config u))[i]? = some item →
    ∃ item', (listed (w'.config u))[i]? = some item' ∧
      { parseScopeRecord item' with fullNames := fullNamesOf item } = parseScopeRecord item ∧
      fullNamesOf item ⊆ fullNamesOf item'

-- The names of a record in the config that the user starts with: those stored under version "7.0",
-- else those of the font file that the user starts with at the record's path.
def startNames (fontNames : Entry → List Str) (w : World) (u : Int) (j item : Json) : List Str :=
  fullNamesOf (refreshed (namesIn fontNames (given w (w.files publicDir) u)) (configPath u) j item)

-- What the user's config and fonts are to be like before the migration.
structure Compatible (fontNames : Entry → List Str) (u : Int) (w : World) : Prop where
  named : ∀ n r content, SharedFont w n r content →
    ∃ j item, given w (w.files publicDir) u (configLoc u) = some (.document j) ∧
      (listed (some j)).find? (fun item => (startNames fontNames w u j item).contains n) = some item ∧
      locate (realPath u ((stringItem item fontPath).getD [])) = fontLoc u r
  unclaimed : ∀ n r content, SharedFont w n r content →
    given w (w.files publicDir) u (fontLoc u r) = some (.bytes content)
  readable : ∀ j, w.config u = some j → ∀ item ∈ listed (some j),
    fullNamesOf item ⊆ startNames fontNames w u j item

theorem Progress.complete (h : Progress (fun _ => True) users w files files w') (hu : u ∈ users)
    {l : Loc} (hl : Beside u l) : w'.tree.lookup l = given w files u l :=
  h.lookup_beside hl fun f hf hfl => hfl ▸ h.settled f hf u hu

theorem configLoc_beside (u : Int) : Beside u (configLoc u) := .name fontConfigFile_plain

theorem Beside.of_config {v : Int} (h : Beside u (configLoc v)) : u = v := by
  generalize hl : configLoc v = l at h
  cases h with
  | name _ => exact userDir_leads (FileTree.prefix_of_eq hl.symm)
  | dir => simpa [configLoc, userDir_length] using congrArg List.length hl
  | parent => simpa [configLoc, userDir_length] using congrArg List.length hl

theorem config_of_upgraded (h : Progress (fun _ => True) users w files files w') {w'' : World}
    (h' : Upgraded fontNames users w' w'') (hu : u ∈ users) :
    w''.tree.lookup (configLoc u) = (given w files u (configLoc u)).map
      (upgradeEntry (namesIn fontNames (given w files u)) (configPath u)) := by
  rw [h'.config u hu, h.complete hu (configLoc_beside u)]
  refine congrArg (Option.map · _) (upgradeEntry_congr fun p => namesIn_congr ?_)
  exact h.complete hu (beside_realPath u p)

theorem parse_refreshed (names : Str → List Str) (path : Str) (j item : Json) :
    { parseScopeRecord (refreshed names path j item) with fullNames := fullNamesOf item } =
      parseScopeRecord item := by
  simp only [parseScopeRecord, stringItem, numberItem]
  rw [getObjectItem_refreshed j item (by decide) (by decide),
    getObjectItem_refreshed j item (by decide) (by decide),
    getObjectItem_refreshed j item (by decide) (by decide),
    getObjectItem_refreshed j item (by decide) (by decide),
    getObjectItem_refreshed j item (by decide) (by decide)]

theorem fontPath_refreshed (names : Str → List Str) (path : Str) (j item : Json) :
    (parseScopeRecord (refreshed names path j item)).fontPath = (stringItem item fontPath).getD [] :=
  congrArg FontRecordInfo.fontPath (parse_refreshed names path j item)

theorem getFontRecordByName_upgraded (names : Str → List Str) (path n : Str) (j : Json) :
    getFontRecordByName n (some (upgraded names path j)) =
      ((listed (some j)).find? fun item => (fullNamesOf (refreshed names path j item)).contains n).map
        fun item => parseScopeRecord (refreshed names path j item) := by
  rw [getFontRecordByName, listed_upgraded, List.find?_map, Option.map_map]
  rfl

theorem own_given {j : Json} (h : w.config u = some j) :
    given w files u (configLoc u) = some (.document j) := by
  rw [World.config_eq_match] at h
  split at h
  · rename_i j' hj'
    rw [given, hj', Option.some.inj h, Option.some_or]
  · cases h

-- The upgrade rewrites documents only, so that fonts are found after it as before.
theorem font_upgraded {names : Str → List Str} {path : Str} {e : Option Entry} {content : List UInt8} :
    e.map (upgradeEntry names path) = some (.bytes content) ↔ e = some (.bytes content) := by
  cases e with
  | none => exact Iff.rfl
  | some e =>
    cases e with
    | document j => simp [upgradeEntry]
    | _ => exact Iff.rfl

theorem font_given (h : Progress (fun _ => True) users w files files w') {w'' : World}
    (h' : Upgraded fontNames users w' w'') (hu : u ∈ users) {l : Loc} (hl : Beside u l)
    {content : List UInt8} :
    w''.tree.lookup l = some (.bytes content) ↔ given w files u l = some (.bytes content) := by
  by_cases hconfig : l = configLoc u
  · rw [hconfig, config_of_upgraded h h' hu]
    exact font_upgraded
  · have hframe : ¬ ∃ v ∈ users, l = configLoc v := by
      rintro ⟨v, -, rfl⟩
      exact hconfig (congrArg configLoc hl.of_config.symm)
    rw [h'.frame.tree l hframe, h.complete hu hl]

theorem carriedOver_iff (hw : Orderly w)
    (h : Progress (fun _ => True) users w (w.files publicDir) (w.files publicDir) w') {w'' : World}
    (h' : Upgraded fontNames users w' w'') (hu : u ∈ users) :
    CarriedOver u w w'' ↔ Compatible fontNames u w := by
  have hupgraded := config_of_upgraded h h' hu
  have hdocument : ∀ {j}, given w (w.files publicDir) u (configLoc u) = some (.document j) →
      w''.config u = some (upgraded (namesIn fontNames (given w (w.files publicDir) u))
        (configPath u) j) := by
    intro j hj
    rw [World.config_eq_match, hupgraded, hj]
    rfl
  have hfont : ∀ {n r content}, SharedFont w n r content →
      (w''.tree.lookup (fontLoc u r) = some (.bytes content) ↔
        given w (w.files publicDir) u (fontLoc u r) = some (.bytes content)) := fun hr =>
    font_given h h' hu (.name (hw.listed hr.listed).fileName_plain)
  constructor
  · intro hc
    refine ⟨fun n r content hr => ?_, fun n r content hr => (hfont hr).mp (hc.migrated n r content hr),
      fun j hj item hitem => ?_⟩
    · obtain ⟨r', hr', hplace⟩ := hc.resolved n r content hr
      cases hgiven : given w (w.files publicDir) u (configLoc u) with
      | none =>
        rw [World.config_eq_match, hupgraded, hgiven] at hr'
        cases hr'
      | some e =>
        cases e with
        | document j =>
          rw [hdocument hgiven, getFontRecordByName_upgraded] at hr'
          obtain ⟨item, hfind, rfl⟩ := Option.map_eq_some_iff.mp hr'
          rw [fontPath_refreshed] at hplace
          exact ⟨j, item, rfl, hfind, hplace⟩
        | _ =>
          rw [World.config_eq_match, hupgraded, hgiven] at hr'
          cases hr'
    · obtain ⟨i, hi⟩ := List.mem_iff_getElem?.mp hitem
      obtain ⟨item', hitem', -, hnames⟩ := hc.kept i item (by rw [hj, hi])
      rw [hdocument (own_given hj), listed_upgraded, List.getElem?_map, hi] at hitem'
      obtain rfl := Option.some.inj hitem'
      exact hnames
  · intro hp
    refine ⟨fun n r content hr => ?_, fun n r content hr => (hfont hr).mpr (hp.unclaimed n r content hr),
      fun i item hitem => ?_⟩
    · obtain ⟨j, item, hj, hfind, hplace⟩ := hp.named n r content hr
      have hfound : getFontRecordByName n (w''.config u) = some (parseScopeRecord
          (refreshed (namesIn fontNames (given w (w.files publicDir) u)) (configPath u) j item)) := by
        rw [hdocument hj, getFontRecordByName_upgraded]
        exact congrArg (Option.map _) hfind
      exact ⟨_, hfound, by rw [fontPath_refreshed]; exact hplace⟩
    · cases hown : w.config u with
      | none =>
        rw [hown] at hitem
        cases hitem
      | some j =>
        rw [hown] at hitem
        rw [hdocument (own_given hown), listed_upgraded, List.getElem?_map, hitem]
        exact ⟨_, rfl, parse_refreshed _ _ j item,
          hp.readable j hown item (List.mem_of_getElem? hitem)⟩

theorem records_carried_iff (s s₁ s₂ : Process C) (request : Nat) (hw : Orderly s.world)
    (hnodup : users.Nodup)
    (hmigrated : Program.Reaches (processSemantics C) Truthful (startDataMigration request users) s
      (.done .ok) s₁)
    (hupdated : Program.Reaches (processSemantics C) (Reading fontNames)
      (checkAndUpdateAllFontRecord users) s₁ (.done ()) s₂) :
    (∀ u ∈ users, CarriedOver u s.world s₂.world) ↔ ∀ u ∈ users, Compatible fontNames u s.world := by
  have hmigrate := @startDataMigration_steady C Truthful (fun _ => True) s hw
    (fun path s io _ hio => hio path rfl) request users
  have hdone := (hmigrate.reached hmigrated).2 rfl
  have hupdate := @checkAndUpdateAllFontRecord_steady C users (Reading fontNames) (fun _ _ => True)
    fontNames hnodup (fun s io u hio => ⟨hio.1 _ _ rfl, hio.2.1, hio.2.2, trivial⟩) (fun _ _ _ _ _ => trivial) s₁
  have hup := (hupdate.reached hupdated).2.1
  exact forall_congr' fun u => imp_congr_right fun hu => carriedOver_iff hw hdone hup hu

section ownConfig

def fontRecord : Json := constructCJSON (installPathApp ++ "a.ttf".toList) ["A".toList]

def versionOne : Json := .object [(fontList, .array [fontRecord]), (fontVersion, .number 1)]

def nameOf : Entry → List Str
  | .bytes content => if content = [1] then ["A".toList] else []
  | _ => []

def sharedFont : List (Loc × Entry) :=
  [(locate (installPathApp ++ "a.ttf".toList), .bytes [1]),
    (locate (installPathApp ++ fontConfigFile), .document versionOne)]

def before (tree : FileTree Str Entry) : Process Unit :=
  (Server.onStart .other { World.provisioned [100] with tree := sharedFont ++ tree }).process

def after (s : Process Unit) : Process Unit :=
  ((startDataMigration 0 [100]).run (processSemantics Unit) s []).2

def updated (s : Process Unit) : Process Unit :=
  s.withWorld (s.world.execConfig 100 .checkAndUpdateFontRecord
    { fullNames := namesIn nameOf s.world.tree.lookup }).2

theorem reaches_after {s : Process Unit}
    (h : ((startDataMigration 0 [100]).run (processSemantics Unit) s []).1 = .ok) :
    Program.Reaches (processSemantics Unit) Truthful (startDataMigration 0 [100]) s (.done .ok)
      (after s) :=
  h ▸ Program.reaches_run (fun _ _ _ _ => rfl) [] (by simp) _ _

theorem reaches_updated (s : Process Unit) :
    Program.Reaches (processSemantics Unit) (Reading nameOf) (checkAndUpdateAllFontRecord [100]) s
      (.done ()) (updated s) :=
  have hio : Reading nameOf s (.font (.config 100 .checkAndUpdateFontRecord))
      { fullNames := namesIn nameOf s.world.tree.lookup } := ⟨fun _ _ _ => rfl, rfl, rfl⟩
  .step hio (.here _ _)

theorem sole_record {n : Str} {r : FontRecordInfo}
    (h : getFontRecordByName n (some versionOne) = some r) :
    n = "A".toList ∧ r = parseScopeRecord fontRecord := by
  obtain ⟨item, hfind, rfl⟩ := Option.map_eq_some_iff.mp h
  obtain rfl : item = fontRecord := List.mem_singleton.mp (List.mem_of_find?_eq_some hfind)
  have hn : n ∈ fullNamesOf fontRecord := by
    have hnamed := List.find?_some hfind
    exact List.contains_iff_mem.mp hnamed
  exact ⟨List.mem_singleton.mp hn, rfl⟩

theorem own_config_hides_fonts :
    ¬ ∀ (fontNames : Entry → List Str) (s s₁ s₂ : Process Unit) (request : Nat) (users : List Int),
      Orderly s.world → users.Nodup →
      (∀ n r, getFontRecordByName n (sharedConfig s.world) = some r →
        ∃ content, SharedFont s.world n r content ∧
          n ∈ namesIn fontNames s.world.tree.lookup r.fontPath) →
      Program.Reaches (processSemantics Unit) Truthful (startDataMigration request users) s
        (.done .ok) s₁ →
      Program.Reaches (processSemantics Unit) (Reading fontNames)
        (checkAndUpdateAllFontRecord users) s₁ (.done ()) s₂ →
      ∀ u ∈ users, CarriedOver u s.world s₂.world := by
  intro h
  have hcarried := h nameOf (before (World.provisioned [100]).tree) _ _ 0 [100]
    ⟨by decide, by decide, by decide⟩ (by simp) ?_ (reaches_after (by decide))
    (reaches_updated _) 100 (by simp)
  · obtain ⟨r', hr', -⟩ := hcarried.resolved "A".toList (parseScopeRecord fontRecord) [1]
      ⟨rfl, by decide, rfl⟩
    have hconfig : (updated (after (before (World.provisioned [100]).tree))).world.config 100 =
      some emptyConfig := rfl
    rw [hconfig] at hr'
    cases hr'
  · intro n r hr
    obtain ⟨rfl, rfl⟩ := sole_record hr
    exact ⟨[1], ⟨hr, by decide, rfl⟩, by decide⟩

def unconfigured : FileTree Str Entry := [(userDir 100, .dir), (userDir 100 ++ [tempDir], .dir)]

theorem fonts_of_new_user_carried :
    CarriedOver 100 (before unconfigured).world (updated (after (before unconfigured))).world := by
  have hcarried := records_carried_iff (before unconfigured) _ _ 0 ⟨by decide, by decide, by decide⟩
    (List.nodup_singleton 100) (reaches_after (by decide)) (reaches_updated _)
  refine hcarried.mpr ?_ 100 (by simp)
  intro u hu
  obtain rfl := List.mem_singleton.mp hu
  refine ⟨fun n r content hr => ?_, fun n r content hr => ?_, fun j hj => by cases hj⟩
  · obtain ⟨rfl, rfl⟩ := sole_record hr.resolved
    exact ⟨versionOne, fontRecord, rfl, rfl, by decide⟩
  · obtain ⟨rfl, rfl⟩ := sole_record hr.resolved
    rw [← hr.content]
    rfl

end ownConfig

end Migration
