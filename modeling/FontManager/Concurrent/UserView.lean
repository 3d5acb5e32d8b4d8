import FontManager.Concurrent.FontCount
import FontManager.Sequential.RegistryConsistency

open FontDefine FontManagerUtils FontLocation FontConfig CJson

namespace UserIsolation

def hall (u : Int) : Loc := (userDir u).dropLast

theorem hall_eq (u : Int) :
    hall u = serviceDir ++ [Text.decimal u, "for-all-app".toList] := rfl

theorem hall_below_userDir (u : Int) : hall u <+: userDir u := List.dropLast_prefix _

theorem hall_unique {u v : Int} {l : Loc} (hu : hall u <+: l) (hv : hall v <+: l) : u = v := by
  obtain ⟨r, rfl⟩ := hu
  rw [hall_eq, hall_eq, List.append_assoc, List.prefix_append_right_inj, List.cons_append,
    List.cons_prefix_cons] at hv
  exact (Text.decimal_injective hv.1).symm

def Inside (u : Int) (path : Str) : Prop := userDir u <+: locate path

instance (u : Int) (path : Str) : Decidable (Inside u path) :=
  inferInstanceAs (Decidable (_ <+: _))

theorem Inside.hall {u : Int} {path : Str} (h : Inside u path) : hall u <+: locate path :=
  (hall_below_userDir u).trans h

theorem Inside.parent {u : Int} {path : Str} (h : Inside u path) :
    UserIsolation.hall u <+: (locate path).dropLast := by
  obtain ⟨r, hr⟩ := h
  rw [← hr]
  cases r using List.reverseRecOn with
  | nil => rw [List.append_nil, UserIsolation.hall]
  | append_singleton r c =>
    rw [← List.append_assoc, List.dropLast_concat]
    exact (hall_below_userDir u).trans (List.prefix_append _ _)

theorem Inside.below {u : Int} {path : Str} {l : Loc} (h : Inside u path) (hl : locate path <+: l) :
    UserIsolation.hall u <+: l := h.hall.trans hl

def CanonicalReply (path : Str) (r : Option Str) : Prop := ∀ p ∈ r, p = lexicallyNormal path

structure SameFor (home : Int → Int) (k : Int) (w v : World) : Prop where
  tree : ∀ l, hall k <+: l → w.tree.lookup l = v.tree.lookup l
  clients : ∀ t, home t = k → w.registry.info t = v.registry.info t
  userClients : w.registry.userClients k = v.registry.userClients k
  maxInstallNum : w.maxInstallNum = v.maxInstallNum
  published : w.published.filter (·.userId = k) = v.published.filter (·.userId = k)

namespace SameFor

variable {home : Int → Int} {k u : Int} {w v x : World}

theorem refl (home : Int → Int) (k : Int) (w : World) : SameFor home k w w :=
  ⟨fun _ _ => rfl, fun _ _ => rfl, rfl, rfl, rfl⟩

theorem trans (h : SameFor home k w v) (h' : SameFor home k v x) : SameFor home k w x where
  tree l hl := (h.tree l hl).trans (h'.tree l hl)
  clients t ht := (h.clients t ht).trans (h'.clients t ht)
  userClients := h.userClients.trans h'.userClients
  maxInstallNum := h.maxInstallNum.trans h'.maxInstallNum
  published := h.published.trans h'.published

theorem entry (h : SameFor home k w v) {path : Str} (hp : Inside k path) :
    w.entry path = v.entry path := h.tree _ hp.hall

theorem isDir (h : SameFor home k w v) {l : Loc} (hl : hall k <+: l) : w.isDir l = v.isDir l := by
  rw [World.isDir, World.isDir, h.tree l hl]

theorem canHold (h : SameFor home k w v) {path : Str} (hp : Inside k path) :
    w.canHold (locate path) = v.canHold (locate path) := by
  rw [World.canHold, World.canHold, h.isDir hp.parent, h.isDir hp.hall]

theorem inside_configPath (u : Int) : Inside u (configPath u) := by
  rw [Inside, locate_configPath]
  exact configLoc_below u

theorem config (h : SameFor home k w v) : w.config k = v.config k := by
  rw [World.config, World.config, h.entry (inside_configPath k)]

theorem checkConfigFile (h : SameFor home k w v) (ok : Bool) :
    w.checkConfigFile k ok = v.checkConfigFile k ok := by
  rw [World.checkConfigFile, World.checkConfigFile, h.config]

theorem ofTree (h : SameFor home k w v) {t t' : FileTree Str Entry}
    (ht : ∀ l, hall k <+: l → t.lookup l = t'.lookup l) :
    SameFor home k { w with tree := t } { v with tree := t' } :=
  ⟨ht, h.clients, h.userClients, h.maxInstallNum, h.published⟩

theorem put (h : SameFor home k w v) (path : Str) (e : Entry) :
    SameFor home k (w.put path e) (v.put path e) := by
  apply h.ofTree
  intro l hl
  by_cases hloc : locate path = l
  · rw [hloc, FileTree.lookup_put_self, FileTree.lookup_put_self]
  · rw [FileTree.lookup_put_ne hloc, FileTree.lookup_put_ne hloc, h.tree l hl]

theorem keep (h : SameFor home k w v) (p : Loc → Bool) :
    SameFor home k { w with tree := w.tree.keep p } { v with tree := v.tree.keep p } := by
  apply h.ofTree
  intro l hl
  rw [FileTree.lookup_keep, FileTree.lookup_keep, h.tree l hl]

theorem ofFrame {S : Loc → Prop} (h : Frame S w v) (hS : ∀ l, hall k <+: l → ¬ S l)
    (hpub : v.published = w.published) : SameFor home k v w where
  tree l hl := h.tree l (hS l hl)
  clients t _ := by rw [h.registry]
  userClients := by rw [h.registry]
  maxInstallNum := h.maxInstallNum
  published := by rw [hpub]

end SameFor

def Within (u : Int) : FileOp → Prop
  | .exists path => Inside u path
  | .createDirectory path => Inside u path
  | .createConfig path => Inside u path
  | .copy _ path => Inside u path
  | .rename src dest => Inside u src ∧ Inside u dest
  | .removeAll path => Inside u path
  | .weaklyCanonical _ => True
  | .directories _ => False

section files

variable {home : Int → Int} {k : Int} {w v : World}

theorem same_createDirectory (h : SameFor home k w v) {path : Str} (hp : Inside k path) (io : Io) :
    (w.createDirectory path io).1 = (v.createDirectory path io).1 ∧
      SameFor home k (w.createDirectory path io).2 (v.createDirectory path io).2 := by
  simp only [World.createDirectory, h.entry hp, h.isDir hp.parent]
  split
  · exact ⟨rfl, h⟩
  · split
    · exact ⟨rfl, h⟩
    · exact ⟨rfl, h⟩
    · split
      · exact ⟨rfl, h.put path .dir⟩
      · exact ⟨rfl, h⟩

theorem same_createConfig (h : SameFor home k w v) {path : Str} (hp : Inside k path) (io : Io) :
    (w.createConfig path io).1 = (v.createConfig path io).1 ∧
      SameFor home k (w.createConfig path io).2 (v.createConfig path io).2 := by
  simp only [World.createConfig, h.canHold hp]
  split
  · exact ⟨rfl, h⟩
  · cases io.write with
    | complete => exact ⟨rfl, h.put path _⟩
    | openFails => exact ⟨rfl, h⟩
    | short left => exact ⟨rfl, h.put path _⟩
    | lost left => exact ⟨rfl, h.put path _⟩

theorem same_copy (h : SameFor home k w v) (fd : Fd) {path : Str} (hp : Inside k path) (io : Io) :
    (w.copy fd path io).1 = (v.copy fd path io).1 ∧
      SameFor home k (w.copy fd path io).2 (v.copy fd path io).2 := by
  simp only [World.copy, h.canHold hp]
  split
  · exact ⟨rfl, h⟩
  · split
    · exact ⟨rfl, h.put path _⟩
    · exact ⟨rfl, h.put path _⟩

theorem same_rename (h : SameFor home k w v) {src dest : Str} (hsrc : Inside k src)
    (hdest : Inside k dest) (ok : Bool) :
    (w.rename src dest ok).1 = (v.rename src dest ok).1 ∧
      SameFor home k (w.rename src dest ok).2 (v.rename src dest ok).2 := by
  simp only [World.rename, h.entry hsrc, h.canHold hdest]
  split
  · split
    · exact ⟨rfl, (h.keep fun l => !FileTree.under (locate src) l).put dest _⟩
    · exact ⟨rfl, h⟩
  · exact ⟨rfl, h⟩

theorem same_removeAll (h : SameFor home k w v) (path : Str) (io : Io) :
    (w.removeAll path io).1 = (v.removeAll path io).1 ∧
      SameFor home k (w.removeAll path io).2 (v.removeAll path io).2 := by
  unfold World.removeAll
  split
  · exact ⟨rfl, h.keep _⟩
  · exact ⟨rfl, h.keep _⟩

theorem same_execFile (h : SameFor home k w v) {op : FileOp} (hop : Within k op) (io : Io) :
    (w.execFile io op).1 = (v.execFile io op).1 ∧
      SameFor home k (w.execFile io op).2 (v.execFile io op).2 := by
  cases op with
  | «exists» path =>
    refine ⟨?_, h⟩
    simp only [World.execFile, World.pathExists, h.entry hop]
  | createDirectory path => exact same_createDirectory h hop io
  | createConfig path => exact same_createConfig h hop io
  | copy fd path => exact same_copy h fd hop io
  | rename src dest => exact same_rename h hop.1 hop.2 io.ok
  | removeAll path => exact same_removeAll h path io
  | weaklyCanonical path => exact ⟨rfl, h⟩
  | directories path => exact hop.elim

theorem published_execFile (w : World) (io : Io) (op : FileOp) :
    (w.execFile io op).2.published = w.published := by
  cases op with
  | createDirectory path =>
    simp only [World.execFile, World.createDirectory]
    split
    · rfl
    · split
      · rfl
      · rfl
      · split <;> rfl
  | createConfig path =>
    simp only [World.execFile, World.createConfig]
    split
    · rfl
    · split <;> rfl
  | copy fd path =>
    simp only [World.execFile, World.copy]
    split
    · rfl
    · split <;> rfl
  | rename src dest =>
    simp only [World.execFile, World.rename]
    split
    · split <;> rfl
    · rfl
  | removeAll path =>
    simp only [World.execFile, World.removeAll]
    split <;> rfl
  | _ => rfl

theorem touches_within {op : FileOp} (hop : Within k op) {l : Loc} (h : op.touches l) :
    hall k <+: l := by
  cases op with
  | createDirectory path => exact h ▸ Inside.hall hop
  | createConfig path => exact h ▸ Inside.hall hop
  | copy fd path => exact h ▸ Inside.hall hop
  | rename src dest =>
    rcases h with h | h
    · exact Inside.below hop.1 h
    · exact h ▸ Inside.hall hop.2
  | removeAll path => exact Inside.below hop h
  | _ => exact h.elim

theorem apart_execFile {k' : Int} (hne : k' ≠ k) {op : FileOp} (hop : Within k' op) (w : World)
    (io : Io) : SameFor home k (w.execFile io op).2 w := by
  apply SameFor.ofFrame (w.execFile_frame io op)
  · intro l hl htouch
    exact hne (hall_unique (touches_within hop htouch) hl)
  · exact published_execFile w io op

end files

section configuration

variable {home : Int → Int} {k : Int} {w v : World}

theorem same_writeFile (h : SameFor home k w v) (path : Str) (json : Json) (outcome : WriteOutcome) :
    (w.writeFile path json outcome).1 = (v.writeFile path json outcome).1 ∧
      SameFor home k (w.writeFile path json outcome).2 (v.writeFile path json outcome).2 := by
  cases outcome with
  | complete => exact ⟨rfl, h.put path _⟩
  | openFails => exact ⟨rfl, h⟩
  | short left => exact ⟨rfl, h.put path _⟩
  | lost left => exact ⟨rfl, h.put path _⟩

theorem same_execConfig (h : SameFor home k w v) (op : ConfigOp) (io : Io) :
    (w.execConfig k op io).1 = (v.execConfig k op io).1 ∧
      SameFor home k (w.execConfig k op io).2 (v.execConfig k op io).2 := by
  rw [World.execConfig, World.execConfig, h.checkConfigFile]
  cases op.edit io.fullNames (configPath k) (v.checkConfigFile k io.ok) with
  | keep reply => exact ⟨rfl, h⟩
  | write json done failed =>
    obtain ⟨hreply, hsame⟩ := same_writeFile h (configPath k) json io.write
    exact ⟨by simp only [World.applyEdit, hreply], hsame⟩

theorem published_execConfig (w : World) (u : Int) (op : ConfigOp) (io : Io) :
    (w.execConfig u op io).2.published = w.published := by
  rw [World.execConfig]
  cases op.edit io.fullNames (configPath u) (w.checkConfigFile u io.ok) with
  | keep reply => rfl
  | write json done failed => cases hio : io.write <;> simp [World.applyEdit, World.writeFile, World.put]

theorem apart_execConfig {k' : Int} (hne : k' ≠ k) (w : World) (op : ConfigOp) (io : Io) :
    SameFor home k (w.execConfig k' op io).2 w := by
  apply SameFor.ofFrame (w.execConfig_frame k' op io)
  · intro l hl hloc
    obtain rfl := hloc
    exact hne (hall_unique ((hall_below_userDir k').trans (configLoc_below k')) hl)
  · exact published_execConfig w k' op io

end configuration

section listing

variable {u v : Int} {w : World} {key : RecordKey}

def KeyInside (u : Int) (key : RecordKey) : Prop := ∀ p ∈ key.fontPath, Inside u (realPath u p)

def Inserts (u : Int) : ConfigOp → Prop
  | .insertFontRecord path _ => Inside u (realPath u (Text.cStr path))
  | .insertFontRecordIfUnderLimit path _ _ => Inside u (realPath u (Text.cStr path))
  | .insertScopeFontRecord record => Inside u (realPath u (Text.cStr record.fontPath))
  | _ => True

theorem fontPath_item (r : Record) : (keyOf r.item).fontPath = some r.fontPath :=
  Record.stringItem_fontPath r

theorem inside_construct {path : Str} (names : List Str)
    (h : Inside u (realPath u (Text.cStr path))) : KeyInside u (keyOf (constructCJSON path names)) := by
  intro p hp
  rw [Record.constructCJSON_eq, fontPath_item] at hp
  exact Option.mem_some_iff.mp hp ▸ h

theorem inside_constructScope {record : FontRecordInfo}
    (h : Inside u (realPath u (Text.cStr record.fontPath))) :
    KeyInside u (keyOf (constructScopeCJSON record)) := by
  intro p hp
  rw [Record.constructScopeCJSON_eq, fontPath_item] at hp
  exact Option.mem_some_iff.mp hp ▸ h

theorem inside_insertKey {path : Str} {names : List Str} {keys : List RecordKey}
    (h : Inside u (realPath u (Text.cStr path))) (hkeys : ∀ key ∈ keys, KeyInside u key) :
    ∀ key ∈ ConfigOp.insertKey path names keys, KeyInside u key := by
  intro key hkey
  unfold ConfigOp.insertKey at hkey
  split at hkey
  · exact hkeys key hkey
  · rcases List.mem_append.mp hkey with hkey | hkey
    · exact hkeys key hkey
    · obtain rfl := List.mem_singleton.mp hkey
      exact inside_construct names h

theorem inside_expected {op : ConfigOp} {keys : List RecordKey} (hop : Inserts u op)
    (hkeys : ∀ key ∈ keys, KeyInside u key) : ∀ key ∈ op.expected keys, KeyInside u key := by
  intro key hkey
  cases op with
  | insertFontRecord path names => exact inside_insertKey hop hkeys key hkey
  | insertFontRecordIfUnderLimit path names maxCount => exact inside_insertKey hop hkeys key hkey
  | insertScopeFontRecord record =>
    rcases List.mem_append.mp hkey with hkey | hkey
    · exact hkeys key hkey
    · obtain rfl := List.mem_singleton.mp hkey
      exact inside_constructScope hop
  | deleteFontRecord path => exact hkeys key (List.eraseP_sublist.subset hkey)
  | deleteScopeFontRecordByUrl srcPath => exact hkeys key (List.eraseP_sublist.subset hkey)
  | deleteScopeFontRecordByAppId id => exact hkeys key (List.filter_sublist.subset hkey)
  | _ => exact hkeys key hkey

theorem keys_torn (w : World) (u : Int) (left : List UInt8) :
    listedKeys ((w.put (configPath u) (.bytes left)).config u) = [] := by
  rw [World.config_configPath]
  rfl

theorem keys_execConfig (w : World) (u : Int) (op : ConfigOp) (io : Io)
    (h : key ∈ listedKeys ((w.execConfig u op io).2.config u)) :
    key ∈ listedKeys (w.config u) ∨ key ∈ op.expected (listedKeys (w.config u)) := by
  cases hread : io.ok with
  | false =>
    rw [World.execConfig_unreadable hread] at h
    exact Or.inl h
  | true =>
  rw [World.execConfig_readable hread] at h
  cases hedit : op.edit io.fullNames (configPath u) (w.config u) with
  | keep reply =>
    rw [hedit] at h
    exact Or.inl h
  | write json done failed =>
    rw [hedit] at h
    cases hio : io.write with
    | complete =>
      rw [hio, World.applyEdit, World.writeFile, World.config_configPath,
        (Mutation.of_edit hedit).listedKeys_eq] at h
      split at h
      · exact Or.inr h
      · exact absurd h List.not_mem_nil
    | openFails =>
      rw [hio] at h
      exact Or.inl h
    | short left =>
      rw [hio, World.applyEdit, World.writeFile, keys_torn] at h
      exact absurd h List.not_mem_nil
    | lost left =>
      rw [hio, World.applyEdit, World.writeFile, keys_torn] at h
      exact absurd h List.not_mem_nil

theorem listedKeys_of_listed {json json' : Option Json} (h : listed json' = listed json) :
    listedKeys json' = listedKeys json := congrArg (List.map keyOf) h

end listing

structure Homed (home : Int → Int) (w : World) : Prop where
  paths : ∀ u, ∀ key ∈ listedKeys (w.config u), KeyInside u key
  clients : ∀ t info, w.registry.info t = some info →
    info.userId = home t ∧ info.appIdentifier = makeAppIdentifier fontScopeApp t

def actsFor (home : Int → Int) (k : Int) : Op → Prop
  | .config u op => u = k ∧ Inserts k op
  | .file op => Within k op
  | .registry (.registerClient _ _ userId tokenId) => userId = k ∧ home tokenId = k
  | .registry (.eraseClient tokenId) => home tokenId = k
  | .registry (.isClientRegistered tokenId) => home tokenId = k
  | .registry .getClientCount => False
  | .getMaxInstallNum => True
  | .getAllCreatedUserIds => False
  | .publishFontUpdate event => event.userId = k

def answers (home : Int → Int) : (o : Op) → o.Reply → Prop
  | .config u (.getFontFileByName _), r => r = [] ∨ Inside u (realPath u r)
  | .file (.weaklyCanonical path), r => CanonicalReply path r
  | .registry (.eraseClient tokenId), r =>
    ∀ c ∈ r, c = (makeAppIdentifier fontScopeApp tokenId, home tokenId)
  | _, _ => True

section world

variable {home : Int → Int} {k k' : Int} {w v : World}

theorem homed_of_tree (h : Homed home w) (hreg : v.registry = w.registry)
    (hkeys : ∀ u, ∀ key ∈ listedKeys (v.config u), KeyInside u key) : Homed home v :=
  ⟨hkeys, by rw [hreg]; exact h.clients⟩

theorem homed_execFile (h : Homed home w) (io : Io) (op : FileOp) :
    Homed home (w.execFile io op).2 := by
  apply homed_of_tree h (w.execFile_frame io op).registry
  intro u key hkey
  rcases (FontCount.fresh_execFile u w io op).sheds with hlist | hlist
  · rw [listedKeys_of_listed hlist] at hkey
    exact h.paths u key hkey
  · rw [listedKeys, hlist] at hkey
    exact absurd hkey List.not_mem_nil

theorem homed_execConfig (h : Homed home w) {op : ConfigOp} (hop : Inserts k op) (io : Io) :
    Homed home (w.execConfig k op io).2 := by
  apply homed_of_tree h (w.execConfig_frame k op io).registry
  intro u key hkey
  by_cases hu : u = k
  · subst hu
    rcases keys_execConfig w u op io hkey with hkey | hkey
    · exact h.paths u key hkey
    · exact inside_expected hop (h.paths u) key hkey
  · have hframe := World.config_frame (u := u) (w.execConfig_frame k op io)
      fun hloc => hu (configLoc_injective hloc)
    rw [hframe] at hkey
    exact h.paths u key hkey

theorem homed_register (h : Homed home w) (hasBinder linked : Bool) (bundleName : Str)
    {userId tokenId : Int} (hhome : home tokenId = userId) :
    Homed home { w with registry :=
      (w.registry.registerClient hasBinder linked bundleName userId tokenId).2 } := by
  refine ⟨h.paths, ?_⟩
  intro t info hinfo
  rcases FontClientRegistry.registerClient_cases (r := w.registry) hasBinder linked bundleName userId
    tokenId with ⟨-, heq⟩ | ⟨-, -, heq⟩
  · simp only [heq] at hinfo
    exact h.clients t info hinfo
  · simp only [heq, FontClientRegistry.enrol, FontClientRegistry.info_cons] at hinfo
    split at hinfo
    · next ht =>
      obtain rfl := Option.some.inj hinfo
      subst ht
      exact ⟨hhome.symm, rfl⟩
    · exact h.clients t info hinfo

theorem homed_erase (h : Homed home w) (tokenId : Int) :
    Homed home { w with registry := (w.registry.eraseClient tokenId).2 } := by
  refine ⟨h.paths, ?_⟩
  intro t info hinfo
  simp only [FontClientRegistry.info_eraseClient] at hinfo
  split at hinfo
  · cases hinfo
  · exact h.clients t info hinfo

theorem homed_exec (o : Op) (io : Io) (hact : actsFor home k o) (h : Homed home w) :
    Homed home (w.exec o io).2 := by
  cases o with
  | config u op =>
    obtain ⟨rfl, hop⟩ := hact
    exact homed_execConfig h hop io
  | file op => exact homed_execFile h io op
  | registry op =>
    cases op with
    | registerClient hasBinder bundleName userId tokenId =>
      exact homed_register h hasBinder io.ok bundleName (hact.2.trans hact.1.symm)
    | eraseClient tokenId => exact homed_erase h tokenId
    | _ => exact h
  | _ => exact ⟨h.paths, h.clients⟩

theorem same_register (h : SameFor home k w v) (hasBinder linked : Bool) (bundleName : Str)
    {tokenId : Int} (ht : home tokenId = k) :
    (w.registry.registerClient hasBinder linked bundleName k tokenId).1 =
        (v.registry.registerClient hasBinder linked bundleName k tokenId).1 ∧
      SameFor home k
        { w with registry := (w.registry.registerClient hasBinder linked bundleName k tokenId).2 }
        { v with registry := (v.registry.registerClient hasBinder linked bundleName k tokenId).2 } := by
  have hsame : SameFor home k { w with registry := w.registry } { v with registry := v.registry } := h
  simp only [FontClientRegistry.registerClient, h.clients tokenId ht, h.userClients]
  split
  · exact ⟨rfl, hsame⟩
  · split
    · exact ⟨rfl, hsame⟩
    · split
      · exact ⟨rfl, hsame⟩
      · split
        · refine ⟨rfl, h.tree, fun t htk => ?_, ?_, h.maxInstallNum, h.published⟩
          · simp only [FontClientRegistry.info_cons, h.clients t htk]
          · simp [h.userClients]
        · exact ⟨rfl, hsame⟩

theorem same_erase (h : SameFor home k w v) (hw : Homed home w) {tokenId : Int}
    (ht : home tokenId = k) :
    (w.registry.eraseClient tokenId).1 = (v.registry.eraseClient tokenId).1 ∧
      SameFor home k { w with registry := (w.registry.eraseClient tokenId).2 }
        { v with registry := (v.registry.eraseClient tokenId).2 } := by
  refine ⟨?_, h.tree, ?_, ?_, h.maxInstallNum, h.published⟩
  · rw [FontClientRegistry.eraseClient_reply, FontClientRegistry.eraseClient_reply,
      h.clients tokenId ht]
  · intro t htk
    simp only [FontClientRegistry.info_eraseClient, h.clients t htk]
  · simp only [FontClientRegistry.eraseClient, ← h.clients tokenId ht]
    cases hinfo : w.registry.info tokenId with
    | none => exact h.userClients
    | some info =>
      obtain ⟨huser, -⟩ := hw.clients tokenId info hinfo
      simp only [huser, ht, if_true, h.userClients]

theorem apart_register (w : World) (hasBinder linked : Bool) (bundleName : Str) {tokenId : Int}
    (hne : k' ≠ k) (ht : home tokenId = k') :
    SameFor home k { w with registry :=
      (w.registry.registerClient hasBinder linked bundleName k' tokenId).2 } w := by
  refine ⟨fun _ _ => rfl, fun t htk => ?_, ?_, rfl, rfl⟩ <;>
    rcases FontClientRegistry.registerClient_cases (r := w.registry) hasBinder linked bundleName k'
      tokenId with ⟨-, heq⟩ | ⟨-, -, heq⟩
  · simp only [heq]
  · have htoken : t ≠ tokenId := fun htt => hne (by rw [← ht, ← htt, htk])
    simp only [heq, FontClientRegistry.enrol, FontClientRegistry.info_cons, if_neg htoken]
  · simp only [heq]
  · simp only [heq, FontClientRegistry.enrol, if_neg hne.symm]

theorem apart_erase (hw : Homed home w) {tokenId : Int} (hne : k' ≠ k) (ht : home tokenId = k') :
    SameFor home k { w with registry := (w.registry.eraseClient tokenId).2 } w := by
  refine ⟨fun _ _ => rfl, fun t htk => ?_, ?_, rfl, rfl⟩
  · have htoken : t ≠ tokenId := fun htt => hne (by rw [← ht, ← htt, htk])
    simp only [FontClientRegistry.info_eraseClient, if_neg htoken]
  · simp only [FontClientRegistry.eraseClient]
    cases hinfo : w.registry.info tokenId with
    | none => rfl
    | some info =>
      obtain ⟨huser, -⟩ := hw.clients tokenId info hinfo
      have hother : k ≠ info.userId := fun hk => hne (by rw [← ht, ← huser, hk])
      simp only [if_neg hother]

theorem same_exec (o : Op) (io : Io) (hact : actsFor home k o) (hw : Homed home w)
    (h : SameFor home k w v) :
    (w.exec o io).1 = (v.exec o io).1 ∧ SameFor home k (w.exec o io).2 (v.exec o io).2 := by
  cases o with
  | config u op =>
    obtain ⟨rfl, -⟩ := hact
    exact same_execConfig h op io
  | file op => exact same_execFile h hact io
  | registry op =>
    cases op with
    | registerClient hasBinder bundleName userId tokenId =>
      obtain ⟨rfl, ht⟩ := hact
      exact same_register h hasBinder io.ok bundleName ht
    | eraseClient tokenId => exact same_erase h hw hact
    | isClientRegistered tokenId =>
      refine ⟨?_, h⟩
      simp only [World.exec, World.execRegistry, FontClientRegistry.isClientRegistered,
        h.clients tokenId hact]
    | getClientCount => exact hact.elim
  | getMaxInstallNum =>
    refine ⟨?_, h⟩
    simp only [World.exec, h.maxInstallNum]
  | getAllCreatedUserIds => exact hact.elim
  | publishFontUpdate event =>
    refine ⟨rfl, h.tree, h.clients, h.userClients, h.maxInstallNum, ?_⟩
    simp only [World.exec, List.filter_append, h.published]

theorem apart_exec (o : Op) (io : Io) (hne : k' ≠ k) (hact : actsFor home k' o) (hw : Homed home w) :
    SameFor home k (w.exec o io).2 w := by
  cases o with
  | config u op =>
    obtain ⟨rfl, -⟩ := hact
    exact apart_execConfig hne w op io
  | file op => exact apart_execFile hne hact w io
  | registry op =>
    cases op with
    | registerClient hasBinder bundleName userId tokenId =>
      obtain ⟨rfl, ht⟩ := hact
      exact apart_register w hasBinder io.ok bundleName hne ht
    | eraseClient tokenId => exact apart_erase hw hne hact
    | _ => exact .refl home k w
  | publishFontUpdate event =>
    refine ⟨fun _ _ => rfl, fun _ _ => rfl, rfl, rfl, ?_⟩
    have hother : ¬ event.userId = k := fun hk => hne (hact.symm.trans hk)
    simp [World.exec, List.filter_append, hother]
  | _ => exact .refl home k w

theorem find_inside {u : Int} {json : Option Json} (name : Str)
    (h : ∀ key ∈ listedKeys json, KeyInside u key) :
    getFontFileByName name json = [] ∨ Inside u (realPath u (getFontFileByName name json)) := by
  unfold getFontFileByName
  cases hfind : (listed json).find? (named name) with
  | none => exact Or.inl rfl
  | some item =>
    cases hpath : stringItem item FontConfig.fontPath with
    | none =>
      rw [Option.bind_some, hpath]
      exact Or.inl rfl
    | some path =>
      rw [Option.bind_some, hpath]
      apply Or.inr
      exact h (keyOf item) (List.mem_map_of_mem (List.mem_of_find?_eq_some hfind)) path hpath

theorem answers_exec (w : World) (o : Op) (io : Io) (h : Homed home w) :
    answers home o (w.exec o io).1 := by
  cases o with
  | config u op =>
    cases op with
    | getFontFileByName name =>
      cases hread : io.ok with
      | true =>
        rw [World.exec, World.execConfig_readable hread]
        exact find_inside name (h.paths u)
      | false =>
        rw [World.exec, World.execConfig_unreadable hread]
        exact Or.inl rfl
    | _ => trivial
  | file op =>
    cases op with
    | weaklyCanonical path =>
      intro p hp
      simp only [World.exec, World.execFile] at hp
      split at hp
      · exact (Option.mem_some_iff.mp hp).symm
      · cases hp
    | _ => trivial
  | registry op =>
    cases op with
    | eraseClient tokenId =>
      intro c hc
      simp only [World.exec, World.execRegistry, FontClientRegistry.eraseClient_reply,
        Option.mem_def, Option.map_eq_some_iff] at hc
      obtain ⟨info, hinfo, rfl⟩ := hc
      obtain ⟨huser, hid⟩ := h.clients tokenId info hinfo
      rw [huser, hid]
    | _ => trivial
  | _ => trivial

end world

end UserIsolation
