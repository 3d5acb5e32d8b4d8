import FontManager.Concurrent.ScopeRegistration
import FontManager.Store.Calls
import FontManager.Store.Versions

open FontDefine FontManagerUtils FontConfig FontLocation CJson Interaction Program

namespace LastingFonts

open ScopeRegistration
open Mutation (rewrites updater)
open Versions (Current)

def home (t : Int) (name : Str) : Slot := ⟨some (makeAppIdentifier fontScopeApp t), name⟩

def Homed (k : RecordKey) : Prop :=
  ∀ t, k.appIdentifier = some (makeAppIdentifier fontScopeApp t) →
    ∃ name, Tagged name ∧ k.fontPath = some (home t name).sandbox

structure Settled (w : World) : Prop where
  arrays : ∀ u, w.config u = none ∨ arrayList (w.config u) = true
  homed : ∀ u, ∀ k ∈ listedKeys (w.config u), Homed k
  ids : IdsMatch w.registry

-- Where the file of an installed font is computed to be, below its application's directory.
structure Place where
  userId : Int
  tokenId : Int
  name : Str
deriving DecidableEq

def Place.staging (p : Place) : Loc :=
  userDir p.userId ++ [makeAppIdentifier fontScopeApp p.tokenId, tempDir, p.name]

def Stored (w : World) (u t : Int) (name : Str) (content : List UInt8) : Prop :=
  w.tree.lookup ((home t name).loc u) = some (.bytes content)

def Staged (w : World) (p : Place) (content : List UInt8) : Prop :=
  w.tree.lookup p.staging = some (.bytes content)

def ownItem (t : Int) (item : Json) : Prop :=
  isApp (keyOf item) = true ∧ (keyOf item).appIdentifier = some (makeAppIdentifier fontScopeApp t)

-- What one step leaves of the application t: its records with their names, and its font files.
structure Keeps (t : Int) (w v : World) : Prop where
  lists : ∀ u, Current w u → Current v u
  items : ∀ u, Current w u → ∀ item ∈ listed (w.config u), ownItem t item → item ∈ listed (v.config u)
  files : ∀ u name content, Tagged name → Stored w u t name content → Stored v u t name content

def Rests (p : Place) (w v : World) : Prop := ∀ content, Staged w p content → Staged v p content

namespace Keeps

variable {t : Int} {u v w : World}

theorem of_tree (h : w.tree = v.tree) : Keeps t v w := by
  have hconfig : ∀ x, w.config x = v.config x := fun x => World.config_congr (by rw [h])
  refine ⟨fun x hx => hx.congr (hconfig x), fun x _ item hitem _ => ?_, fun x name content _ hs => ?_⟩
  · rwa [hconfig]
  · rwa [Stored, h]

theorem refl (t : Int) (w : World) : Keeps t w w := .of_tree rfl

theorem trans (h : Keeps t u v) (h' : Keeps t v w) : Keeps t u w where
  lists x hx := h'.lists x (h.lists x hx)
  items x hx item hitem hown := h'.items x (h.lists x hx) item (h.items x hx item hitem hown) hown
  files x name content hn hs := h'.files x name content hn (h.files x name content hn hs)

end Keeps

section locations

variable {t u v : Int} {S T : Loc → Prop}

structure Aside (t : Int) (S : Loc → Prop) : Prop where
  config : ∀ u, ¬ S (configLoc u)
  files : ∀ u name, Tagged name → ¬ S ((home t name).loc u)

theorem Aside.mono (h : Aside t T) (hST : ∀ l, S l → T l) : Aside t S where
  config u hu := h.config u (hST _ hu)
  files u name hn hs := h.files u name hn (hST _ hs)

theorem home_valid {name : Str} (h : Tagged name) (t : Int) : (home t name).Valid :=
  ⟨h, fun _ hd => ⟨fontScopeApp, t, (Option.mem_some.mp hd).symm⟩⟩

theorem loc_ne_configLoc {name : Str} (h : Tagged name) (t u v : Int) :
    (home t name).loc u ≠ configLoc v := by
  intro he
  obtain rfl := userDir_leads (FileTree.prefix_of_eq he)
  exact configLoc_not_loc (home_valid h t) (FileTree.prefix_of_eq he)

theorem configLoc_aside {c : Str} (hc : c ≠ fontConfigFile) (u : Int) (l : Loc) (v : Int) :
    ¬ userDir u ++ c :: l <+: configLoc v := by
  intro h
  obtain rfl := userDir_leads h
  exact userDir_noPrefix_configLoc hc h

theorem aside_other {id : Str} (hid : id ≠ makeAppIdentifier fontScopeApp t)
    (hc : id ≠ fontConfigFile) (u : Int) (l : Loc) : Aside t (userDir u ++ id :: l <+: ·) where
  config := configLoc_aside hc u l
  files v name _ h := by
    obtain rfl := userDir_leads h
    rw [Slot.loc, List.prefix_append_right_inj] at h
    exact hid (List.cons_prefix_cons.mp h).1

theorem aside_temp {scope t' : Int} (u : Int) (name : Str) :
    Aside t (userDir u ++ [makeAppIdentifier scope t', tempDir, name] <+: ·) where
  config := configLoc_aside (fontConfigFile_ne_app scope t') u _
  files v other _ h := by
    obtain rfl := userDir_leads h
    rw [Slot.loc, List.prefix_append_right_inj] at h
    simpa [Slot.sub, home] using h.length_le

theorem staging_ne_configLoc (p : Place) (u : Int) : p.staging ≠ configLoc u := fun he =>
  configLoc_aside (fontConfigFile_ne_app fontScopeApp p.tokenId) p.userId [tempDir, p.name] u
    (FileTree.prefix_of_eq he)

theorem staging_other {id : Str} {p : Place} (hid : id ≠ makeAppIdentifier fontScopeApp p.tokenId)
    (u : Int) (l : Loc) : ¬ userDir u ++ id :: l <+: p.staging := by
  intro h
  obtain rfl := userDir_leads h
  rw [Place.staging, List.prefix_append_right_inj] at h
  exact hid (List.cons_prefix_cons.mp h).1

theorem staging_own {scope t' u : Int} {name : Str} {p : Place}
    (hp : scope = fontScopeApp → (⟨u, t', name⟩ : Place) ≠ p)
    (hscope : scope = fontScopeApp ∨ scope = fontScopeSession) :
    ¬ userDir u ++ [makeAppIdentifier scope t', tempDir, name] <+: p.staging := by
  intro h
  obtain ⟨v, t, other⟩ := p
  obtain rfl := userDir_leads h
  rw [Place.staging, List.prefix_append_right_inj] at h
  obtain ⟨hid, hrest⟩ := List.cons_prefix_cons.mp h
  obtain ⟨-, hname⟩ := List.cons_prefix_cons.mp hrest
  obtain ⟨rfl, rfl⟩ := makeAppIdentifier_injective hscope (Or.inl rfl) hid
  obtain ⟨rfl, -⟩ := List.cons_prefix_cons.mp hname
  exact hp rfl rfl

theorem staging_not_home {scope t' u : Int} {name : Str} {p : Place} :
    userDir u ++ [makeAppIdentifier scope t', name] ≠ p.staging := by
  intro h
  obtain rfl := userDir_leads (FileTree.prefix_of_eq h)
  simpa [Place.staging] using congrArg List.length h

end locations

section config

variable {u v t : Int} {w : World} {io : Io}

theorem arrays_execConfig (hio : io.write = .complete) (w : World) (v : Int) (op : ConfigOp) (u : Int) :
    (w.execConfig v op io).2.config u = w.config u ∨
      w.config u ≠ none ∧ arrayList ((w.execConfig v op io).2.config u) = arrayList (w.config u) := by
  by_cases hu : v = u
  · subst hu
    cases hread : io.ok with
    | false =>
      rw [World.execConfig_unreadable hread]
      exact Or.inl rfl
    | true =>
    rw [World.execConfig_readable hread, hio]
    cases hedit : op.edit io.fullNames (configPath v) (w.config v) with
    | keep reply => exact Or.inl rfl
    | write json done failed =>
      refine Or.inr ⟨fun hnone => ?_, ?_⟩
      · rw [hnone, edit_none] at hedit
        cases hedit
      · simp only [World.applyEdit, World.writeFile, World.config_configPath]
        exact (Mutation.of_edit hedit).array
  · have hne : ¬ configLoc u = configLoc v := fun h => hu (configLoc_injective h).symm
    exact Or.inl (World.config_frame (w.execConfig_frame v op io) hne)

end config

section steps

variable {t : Int} {w : World} {io : Io}

def tame : Op → Prop
  | .config _ (.insertFontRecord _ _) => False
  | .config _ (.insertFontRecordIfUnderLimit _ _ _) => False
  | .config _ (.insertScopeFontRecord record) => Homed (keyOf (constructScopeCJSON record))
  | _ => True

theorem homed_expected {u : Int} {op : ConfigOp} {keys : List RecordKey} (ho : tame (.config u op))
    (h : ∀ k ∈ keys, Homed k) : ∀ k ∈ op.expected keys, Homed k := by
  intro k hk
  cases op with
  | insertFontRecord path names => exact ho.elim
  | insertFontRecordIfUnderLimit path names maxCount => exact ho.elim
  | insertScopeFontRecord record =>
    rcases List.mem_append.mp hk with hk | hk
    · exact h k hk
    · exact List.mem_singleton.mp hk ▸ ho
  | deleteFontRecord path => exact h k (List.eraseP_sublist.subset hk)
  | deleteScopeFontRecordByUrl srcPath => exact h k (List.eraseP_sublist.subset hk)
  | deleteScopeFontRecordByAppId id => exact h k (List.filter_sublist.subset hk)
  | _ => exact h k hk

theorem Settled.exec (h : Settled w) {o : Op} (ho : tame o) (hio : io.write = .complete) :
    Settled (w.exec o io).2 where
  arrays u := by
    cases o with
    | config v op =>
      rcases arrays_execConfig hio w v op u with heq | ⟨hsome, harray⟩
      · exact heq ▸ h.arrays u
      · exact Or.inr (harray.trans ((h.arrays u).resolve_left hsome))
    | file op =>
      rcases FontCount.fresh_execFile u w io op with heq | heq | heq
      · exact heq ▸ h.arrays u
      · exact Or.inl heq
      · exact Or.inr (heq ▸ rfl)
    | registry op => cases op <;> exact h.arrays u
    | _ => exact h.arrays u
  homed u k hk := by
    rcases keys_exec u w o hio with heq | heq | ⟨op, rfl, heq⟩
    · exact h.homed u k (heq ▸ hk)
    · exact absurd (heq ▸ hk) List.not_mem_nil
    · exact homed_expected ho (h.homed u) k (heq ▸ hk)
  ids := ids_exec h.ids o io

-- The places whose file an operation can take away or overwrite, apart from where it lands.
def disturbs : FileOp → Loc → Prop
  | .copy _ path, l => l = locate path
  | .rename src _, l => locate src <+: l
  | .removeAll path, l => locate path <+: l
  | _, _ => False

def spares (t : Int) : Op → Prop
  | .config _ (.deleteFontRecord _) => False
  | .config _ (.deleteScopeFontRecordByAppId _) => False
  | .file op => Aside t (disturbs op)
  | _ => True

def rests (p : Place) : Op → Prop
  | .file (.rename src dest) => ¬ locate src <+: p.staging ∧ locate dest ≠ p.staging
  | .file op => ¬ disturbs op p.staging
  | _ => True

-- The record that a deletion by source path finds is not one of the application's own, and a file
-- lands where none is.
def misses (t : Int) (w : World) : Op → Prop
  | .config u (.deleteScopeFontRecordByUrl srcPath) =>
    ∀ item, (listed (w.config u)).find? (atUrl srcPath) = some item → ¬ ownItem t item
  | .file (.createConfig path) => w.pathExists path = false
  | .file (.rename _ dest) => w.pathExists dest = false ∨ Aside t (· = locate dest)
  | _ => True

theorem ne_of_vacant {path : Str} {l : Loc} {e : Entry} (hv : w.pathExists path = false)
    (hl : w.tree.lookup l = some e) : l ≠ locate path := by
  rintro rfl
  simp [World.pathExists, World.entry, hl] at hv

theorem lookup_createDirectory {path : Str} {l : Loc} {e : Entry} (hl : w.tree.lookup l = some e) :
    (w.createDirectory path io).2.tree.lookup l = some e := by
  unfold World.createDirectory
  split
  · exact hl
  · split
    · exact hl
    · exact hl
    · rename_i hnone
      have hne : l ≠ locate path := ne_of_vacant (by simp [World.pathExists, hnone]) hl
      split
      · exact ((w.frame_put path .dir).tree l hne).trans hl
      · exact hl

theorem lookup_execFile {op : FileOp} {l : Loc} {e : Entry} (hl : w.tree.lookup l = some e)
    (hd : ¬ disturbs op l) (hcreate : ∀ path, op = .createConfig path → w.pathExists path = false)
    (hrename : ∀ src dest, op = .rename src dest → l ≠ locate dest) :
    (w.execFile io op).2.tree.lookup l = some e := by
  cases op with
  | createDirectory path => exact lookup_createDirectory hl
  | createConfig path =>
    exact ((w.createConfig_frame path io).tree l (ne_of_vacant (hcreate path rfl) hl)).trans hl
  | copy fd path => exact ((w.copy_frame fd path io).tree l hd).trans hl
  | rename src dest =>
    exact ((w.rename_frame src dest io.ok).tree l (not_or_intro hd (hrename src dest rfl))).trans hl
  | removeAll path => exact ((w.removeAll_frame path io).tree l hd).trans hl
  | _ => exact hl

theorem mem_eraseP_of_find {α : Type} {q : α → Bool} {l : List α} {a : α} (ha : a ∈ l)
    (hfind : l.find? q ≠ some a) : a ∈ l.eraseP q := by
  induction l with
  | nil => cases ha
  | cons b l ih =>
    by_cases hb : q b = true
    · rw [List.find?_cons_of_pos hb] at hfind
      rw [List.eraseP_cons_of_pos hb]
      exact (List.mem_cons.mp ha).resolve_left fun he => hfind (congrArg some he.symm)
    · rw [List.find?_cons_of_neg hb] at hfind
      rw [List.eraseP_cons_of_neg hb]
      rcases List.mem_cons.mp ha with rfl | ha
      · exact List.mem_cons_self
      · exact List.mem_cons_of_mem b (ih ha hfind)

theorem mem_insertItem {path : Str} {names : List Str} {items : List Json} {item : Json}
    (h : item ∈ items) : item ∈ ConfigOp.insertItem path names items := by
  rw [ConfigOp.insertItem]
  split
  · exact h
  · exact List.mem_append_left _ h

theorem kept_applied {u : Int} {op : ConfigOp} {item : Json} (ho : spares t (.config u op))
    (hm : misses t w (.config u op)) (hitem : item ∈ listed (w.config u)) (hown : ownItem t item) :
    item ∈ op.applied id (listed (w.config u)) := by
  cases op with
  | insertFontRecord path names => exact mem_insertItem hitem
  | insertFontRecordIfUnderLimit path names maxCount => exact mem_insertItem hitem
  | insertScopeFontRecord record => exact List.mem_append_left _ hitem
  | deleteFontRecord path => exact ho.elim
  | deleteScopeFontRecordByUrl srcPath =>
    exact mem_eraseP_of_find hitem fun hfind => hm item hfind hown
  | deleteScopeFontRecordByAppId id => exact ho.elim
  | checkAndUpdateFontRecord =>
    rw [ConfigOp.applied, List.map_id]
    exact hitem
  | _ => exact hitem

theorem keeps_execConfig {u : Int} {op : ConfigOp} (ho : spares t (.config u op))
    (hm : misses t w (.config u op)) (hio : io.write = .complete) :
    Keeps t w (w.execConfig u op io).2 where
  lists v hv := hv.execConfig hio u op
  items v hv item hitem hown := by
    by_cases hu : u = v
    · subst hu
      rw [Mutation.listed_execConfig w u op hio, updater, hv.latest, if_neg Bool.false_ne_true]
      cases op.succeeded (w.execConfig u op io).1 && arrayList (w.config u) with
      | true => exact kept_applied ho hm hitem hown
      | false => exact hitem
    · have hne : ¬ configLoc v = configLoc u := fun h => hu (configLoc_injective h).symm
      rwa [World.config_frame (w.execConfig_frame u op io) hne]
  files v name content hn hs :=
    ((w.execConfig_frame u op io).tree _ (loc_ne_configLoc hn t v u)).trans hs

theorem keeps_execFile {op : FileOp} (ho : spares t (.file op)) (hm : misses t w (.file op)) :
    Keeps t w (w.execFile io op).2 := by
  have hcreate : ∀ path, op = .createConfig path → w.pathExists path = false := by
    rintro path rfl
    exact hm
  have hlands : ∀ l e, w.tree.lookup l = some e → (∀ S, Aside t S → ¬ S l) →
      ∀ src dest, op = .rename src dest → l ≠ locate dest := by
    rintro l e hl haside src dest rfl
    rcases hm with hvacant | hother
    · exact ne_of_vacant hvacant hl
    · exact haside _ hother
  have hconfig : ∀ u, Current w u → (w.execFile io op).2.config u = w.config u := by
    intro u hu
    obtain ⟨e, he⟩ : ∃ e, w.tree.lookup (configLoc u) = some e := by
      cases he : w.tree.lookup (configLoc u) with
      | none =>
        have harray := hu.array
        rw [World.config_eq_match, he] at harray
        cases harray
      | some e => exact ⟨e, rfl⟩
    have hkept : (w.execFile io op).2.tree.lookup (configLoc u) = some e :=
      lookup_execFile he (ho.config u) hcreate (hlands _ e he fun S hS => hS.config u)
    exact World.config_congr (hkept.trans he.symm)
  refine ⟨fun u hu => hu.congr (hconfig u hu), fun u hu item hitem _ => ?_, fun u name content hn hs => ?_⟩
  · rwa [hconfig u hu]
  · exact lookup_execFile hs (ho.files u name hn) hcreate (hlands _ _ hs fun S hS => hS.files u name hn)

theorem keeps_exec {o : Op} (ho : spares t o) (hm : misses t w o) (hio : io.write = .complete) :
    Keeps t w (w.exec o io).2 := by
  cases o with
  | config u op => exact keeps_execConfig ho hm hio
  | file op => exact keeps_execFile ho hm
  | registry op => cases op <;> exact .of_tree rfl
  | _ => exact .of_tree rfl

theorem rests_exec {p : Place} {o : Op} (ho : rests p o) (hm : misses t w o) :
    Rests p w (w.exec o io).2 := by
  intro content hs
  cases o with
  | config u op => exact ((w.execConfig_frame u op io).tree _ (staging_ne_configLoc p u)).trans hs
  | file op =>
    refine lookup_execFile hs ?_ ?_ ?_
    · cases op with
      | rename src dest => exact ho.1
      | _ => exact ho
    · rintro path rfl
      exact hm
    · rintro src dest rfl
      exact ho.2.symm
  | registry op => cases op <;> exact hs
  | _ => exact hs

end steps

end LastingFonts
