import FontManager.Concurrent.FontCount
import FontManager.Store.Reread

open FontDefine FontManagerUtils FontConfig CJson Interaction Program Reread
open Mutation (rewrites rewrites_of_write)

inductive FontOperation where
  | call (c : FontCall)
  | checkAndUpdateFontRecord
deriving DecidableEq

namespace FontOperation

def program (u : Int) : FontOperation → FontTask FontErrorCode
  | call c => c.program u
  | checkAndUpdateFontRecord => do
    let updated : Bool ← FontManager.config u .checkAndUpdateFontRecord
    pure (if updated then .ok else .systemError)

def service (u : Int) : Service sig FontOperation FontErrorCode World Io := ⟨semantics, program u⟩

end FontOperation

namespace NamedRecords

def Named (json : Option Json) : Prop := ∀ item ∈ listed json, fullNamesOf item ≠ []

section refresh

variable {names : Str → List Str} {path : Str} {j item : Json}

def namesOf (value : Json) : List Str := ((arrayItems value).getD []).filterMap stringValue

theorem fullNamesOf_eq (item : Json) :
    fullNamesOf item = ((entries fontFullName item).head?.map namesOf).getD [] := by
  rw [fullNamesOf, arrayItem, getObjectItem_eq_head?]
  cases (entries fontFullName item).head? <;> rfl

theorem namesOf_created (names : List Str) :
    namesOf (.array (names.map createString)) = names.map Text.cStr := by
  simp [namesOf, arrayItems, List.filterMap_map, Function.comp_def, createString, stringValue]

theorem filter_eraseP {β : Type} (p : β → Bool) (l : List β) :
    (l.eraseP p).filter p = (l.filter p).tail := by
  induction l with
  | nil => rfl
  | cons b l ih =>
    by_cases hb : p b = true
    · simp [hb]
    · simp [hb, ih]

theorem entries_deleteItemFromObject (name : Str) (j : Json) :
    entries name (deleteItemFromObject name j) = (entries name j).tail := by
  cases j with
  | object fields =>
    have hfields := filter_eraseP (fun f : Str × Json => sameKey name f.1) fields
    simp only [deleteItemFromObject, entries, hfields, List.map_tail]
  | _ => rfl

-- The names come from the font file, unless a second fullname entry stands behind the deleted one.
def legible (names : Str → List Str) (path : Str) (item : Json) : Bool :=
  match stringItem item fontPath with
  | none => true
  | some pathVal =>
    match (entries fontFullName item)[1]? with
    | none => names (sandBoxPathToRealPath path pathVal) ≠ []
    | some second => namesOf second ≠ []

theorem fullNamesOf_refreshItem {pathVal : Str} (h : stringItem item fontPath = some pathVal) :
    fullNamesOf (refreshItem names path item) =
      match (entries fontFullName item)[1]? with
      | none => (names (sandBoxPathToRealPath path pathVal)).map Text.cStr
      | some second => namesOf second := by
  cases item with
  | object fields =>
    have hentries : entries fontFullName (refreshItem names path (.object fields)) =
        (entries fontFullName (.object fields)).tail ++
          [.array ((names (sandBoxPathToRealPath path pathVal)).map createString)] := by
      rw [← entries_deleteItemFromObject, refreshItem, h]
      exact entries_addItemToObject fontFullName _ _
    rw [fullNamesOf_eq, hentries, List.head?_append, List.head?_tail]
    cases (entries fontFullName (.object fields))[1]? with
    | none => exact namesOf_created _
    | some second => rfl
  | _ => cases h

theorem named_refreshItem (h : fullNamesOf item ≠ []) :
    fullNamesOf (refreshItem names path item) ≠ [] ↔ legible names path item = true := by
  cases hpath : stringItem item fontPath with
  | none => simp [refreshItem, legible, hpath, h]
  | some pathVal =>
    rw [fullNamesOf_refreshItem hpath]
    cases hsecond : (entries fontFullName item)[1]? with
    | none => simp [legible, hpath, hsecond]
    | some second => simp [legible, hpath, hsecond]

end refresh

section edit

variable {names : Str → List Str} {path : Str} {j json' item : Json} {done failed : Bool}

theorem listed_updated
    (h : checkAndUpdateFontRecord names path (some j) = .write json' done failed) :
    listed (some json') = (listed (some j)).map (refreshItem names path) := by
  have hmutation : Mutation names path .checkAndUpdateFontRecord (some j) json' done failed :=
    Mutation.of_edit h
  exact hmutation.listed_kept rfl

theorem named_updated (hj : Named (some j))
    (h : checkAndUpdateFontRecord names path (some j) = .write json' done failed) :
    Named (some json') ↔ (listed (some j)).all (legible names path) = true := by
  rw [Named, listed_updated h, List.forall_mem_map, List.all_eq_true]
  exact forall_congr' fun item => imp_congr_right fun hitem => named_refreshItem (hj item hitem)

theorem fullNamesOf_user (path : Str) {fullNames : List Str} (h : fullNames ≠ []) :
    fullNamesOf (constructCJSON path fullNames) ≠ [] := by
  rw [Record.constructCJSON_eq, Record.fullNamesOf_item]
  simpa [Record.user] using h

theorem fullNamesOf_scope {r : FontRecordInfo} (h : r.fullNames ≠ []) :
    fullNamesOf (constructScopeCJSON r) ≠ [] := by
  rw [Record.constructScopeCJSON_eq, Record.fullNamesOf_item]
  simpa [Record.ofInfo] using h

end edit

def namesGiven : ConfigOp → Prop
  | .insertFontRecord _ fullNames => fullNames ≠ []
  | .insertFontRecordIfUnderLimit _ fullNames _ => fullNames ≠ []
  | .insertScopeFontRecord record => record.fullNames ≠ []
  | _ => True

theorem named_insertItem {path : Str} {fullNames : List Str} {items : List Json}
    (h : fullNames ≠ []) (hitems : ∀ item ∈ items, fullNamesOf item ≠ []) :
    ∀ item ∈ ConfigOp.insertItem path fullNames items, fullNamesOf item ≠ [] := by
  unfold ConfigOp.insertItem
  split
  · exact hitems
  · exact List.forall_mem_append.mpr
      ⟨hitems, List.forall_mem_singleton.mpr (fullNamesOf_user path h)⟩

theorem named_applied {refresh : Json → Json} {op : ConfigOp} {items : List Json}
    (hop : namesGiven op) (hcheck : op ≠ .checkAndUpdateFontRecord)
    (hitems : ∀ item ∈ items, fullNamesOf item ≠ []) :
    ∀ item ∈ op.applied refresh items, fullNamesOf item ≠ [] := by
  cases op with
  | insertFontRecord fontPath fullNames => exact named_insertItem hop hitems
  | insertFontRecordIfUnderLimit fontPath fullNames maxCount => exact named_insertItem hop hitems
  | insertScopeFontRecord record =>
    exact List.forall_mem_append.mpr
      ⟨hitems, List.forall_mem_singleton.mpr (fullNamesOf_scope hop)⟩
  | deleteFontRecord fontPath => exact fun item hitem => hitems item (List.mem_of_mem_eraseP hitem)
  | deleteScopeFontRecordByUrl srcPath =>
    exact fun item hitem => hitems item (List.mem_of_mem_eraseP hitem)
  | deleteScopeFontRecordByAppId id =>
    exact fun item hitem => hitems item (List.mem_of_mem_filter hitem)
  | checkAndUpdateFontRecord => exact absurd rfl hcheck
  | _ => exact hitems

theorem named_edit {names : Str → List Str} {path : Str} {json : Option Json} {json' : Json}
    {op : ConfigOp} {done failed : op.Reply} (hop : namesGiven op)
    (hcheck : op ≠ .checkAndUpdateFontRecord) (hj : Named json)
    (h : op.edit names path json = .write json' done failed) : Named (some json') := by
  rw [Named, (Mutation.of_edit h).listed_eq]
  split
  · exact named_applied hop hcheck hj
  · exact fun item hitem => by cases hitem

abbrev NamedSystem := System sig FontOperation FontErrorCode World

abbrev Step := Event FontOperation Io

def refreshes (u : Int) (s : NamedSystem) : Step → Bool
  | .spawn _ => false
  | .act i io =>
    match s.operation (.act i io : Step) with
    | some (.config v .checkAndUpdateFontRecord) =>
      v = u && io.stores && rewrites (s.world.config u)
    | _ => false

def answers : Step → Io
  | .spawn _ => default
  | .act _ io => io

def Legible (u : Int) (s : NamedSystem) (e : Step) : Prop :=
  refreshes u s e = true → ∀ item ∈ listed (s.world.config u),
    legible (answers e).fullNames (configPath u) item = true

instance (u : Int) (s : NamedSystem) (e : Step) : Decidable (Legible u s e) :=
  inferInstanceAs (Decidable (_ → _))

def givesNames : Op → Prop
  | .config _ op => namesGiven op
  | _ => True

theorem permits (u : Int) : Permits (fun _ _ => True) givesNames u where
  file _ := trivial
  config op hop := by cases op <;> trivial
  limit := trivial
  publish _ := trivial

def Guarded (s : NamedSystem) : Prop :=
  ∀ t ∈ s.threads, always (P := sig) (fun _ _ => True) givesNames t.program

section step

variable {u : Int} {s t : NamedSystem} {e : Step}

theorem guarded_program (u : Int) (l : FontOperation) :
    always (P := sig) (fun _ _ => True) givesNames (l.program u) := by
  cases l with
  | call c =>
    exact (permits u).call (fun _ => trivial) (fun _ _ _ hnames _ => hnames) (fun _ hnames => hnames) c
  | checkAndUpdateFontRecord =>
    exact always_bind ((permits u).configTask _ rfl) fun _ => always_pure _

theorem guarded_step (hs : Guarded s) (h : (FontOperation.service u).machine.next s e = some t) :
    Guarded t := by
  cases e with
  | spawn l =>
    obtain rfl := Service.next_spawn h
    intro t ht
    rcases List.mem_append.mp ht with ht | ht
    · exact hs t ht
    · exact List.mem_singleton.mp ht ▸ guarded_program u l
  | act i io =>
    obtain ⟨l, o, k, hthread, -, rfl⟩ := Service.next_act h
    intro t ht
    rcases Service.mem_advance ht with ht | rfl
    · exact hs t ht
    · exact (hs _ (List.mem_of_getElem? hthread)).2 _ trivial

theorem named_sheds {w w' : World} (h : FontCount.Sheds u w w') (hw : Named (w.config u)) :
    Named (w'.config u) := by
  rcases h with h | h
  · exact fun item hitem => hw item (h ▸ hitem)
  · intro item hitem
    rw [h] at hitem
    cases hitem

theorem edit_of_rewrites (names : Str → List Str) (path : Str) {j : Json}
    (h : rewrites (some j) = true) :
    ∃ json', checkAndUpdateFontRecord names path (some j) = .write json' true false := by
  have hversion : stringItem j fontVersion ≠ some fontConfigVersion7 := by simpa [rewrites] using h
  rw [checkAndUpdateFontRecord, if_neg hversion]
  dsimp only
  split
  · exact ⟨_, rfl⟩
  · exact ⟨_, rfl⟩

theorem config_updated {w : World} {io : Io} {j json' : Json} (hio : io.stores = true)
    (hj : w.config u = some j)
    (h : checkAndUpdateFontRecord io.fullNames (configPath u) (some j) = .write json' true false) :
    (w.exec (.config u .checkAndUpdateFontRecord) io).2.config u = some json' := by
  obtain ⟨hread, hwrite⟩ := Io.stores_iff.mp hio
  rw [World.exec, World.execConfig_readable hread, ConfigOp.edit, hj, h, World.applyEdit, hwrite]
  exact World.config_configPath (.document json')

-- A completed write of the check is the only step on which the font files matter.
theorem named_exec (w : World) (o : Op) (io : Io) (ho : givesNames o) (hw : Named (w.config u)) :
    Named ((w.exec o io).2.config u) ↔
      (o = .config u .checkAndUpdateFontRecord → io.stores = true → rewrites (w.config u) = true →
        ∀ item ∈ listed (w.config u), legible io.fullNames (configPath u) item = true) := by
  by_cases hcheck : o = .config u .checkAndUpdateFontRecord
  · subst hcheck
    by_cases hwrites : io.stores = true ∧ rewrites (w.config u) = true
    · obtain ⟨hio, hrewrites⟩ := hwrites
      cases hj : w.config u with
      | none => simp [hj, rewrites] at hrewrites
      | some j =>
        rw [hj] at hw hrewrites
        obtain ⟨json', hedit⟩ := edit_of_rewrites io.fullNames (configPath u) hrewrites
        rw [config_updated hio hj hedit, named_updated hw hedit, List.all_eq_true]
        exact ⟨fun h _ _ _ => h, fun h => h rfl hio hrewrites⟩
    · refine iff_of_true ?_ fun _ hio hrewrites => absurd ⟨hio, hrewrites⟩ hwrites
      rcases FontCount.sheds_exec u w _ io with h | ⟨op, heq, hio, json', done, failed, hedit, -⟩
      · exact named_sheds h hw
      · obtain rfl : op = .checkAndUpdateFontRecord := by simpa using heq.symm
        exact absurd ⟨hio, rewrites_of_write hedit⟩ hwrites
  · refine iff_of_true ?_ fun h => absurd h hcheck
    rcases FontCount.sheds_exec u w o io with h | ⟨op, rfl, -, json', done, failed, hedit, hconfig⟩
    · exact named_sheds h hw
    · rw [hconfig]
      exact named_edit ho (fun h => hcheck (h ▸ rfl)) hw hedit

theorem named_step (hs : Guarded s) (hw : Named (s.world.config u))
    (h : (FontOperation.service u).machine.next s e = some t) :
    Named (t.world.config u) ↔ Legible u s e := by
  cases e with
  | spawn l =>
    obtain rfl := Service.next_spawn h
    exact iff_of_true hw fun h => by cases h
  | act i io =>
    obtain ⟨l, o, k, hthread, hop, rfl⟩ := Service.next_act h
    refine (named_exec s.world o io (hs _ (List.mem_of_getElem? hthread)).1 hw).trans ?_
    have hop' : s.operation (.act i io : Step) = some o := hop
    simp only [Legible, refreshes, hop', answers]
    split
    · rename_i v heq
      obtain rfl := Option.some.inj heq
      simp [and_imp]
    · rename_i hother
      exact iff_of_true (fun ho => absurd (congrArg some ho) (hother u)) fun h => by cases h

theorem names_kept_iff {w : World} (h : Named (w.config u)) (es : List Step) (t : NamedSystem) :
    (FontOperation.service u).machine.Run (Legible u) ⟨w, []⟩ es t ↔
      (FontOperation.service u).machine.Run (fun _ _ => True) ⟨w, []⟩ es t ∧
        ∀ fs s, fs <+: es → (FontOperation.service u).machine.Run (fun _ _ => True) ⟨w, []⟩ fs s →
          Named (s.world.config u) :=
  Machine.Run.iff_always Guarded (fun s => Named (s.world.config u))
    (fun _ _ _ hs hn => guarded_step hs hn) (fun _ _ _ hs hw hn => named_step hs hw hn)
    (by simp [Guarded]) h

end step

section missing

def record : Json := constructCJSON (installPathApp ++ "a.ttf".toList) ["A".toList]

def unversioned : World :=
  (World.provisioned [100]).put (configPath 100) (.document (.object [(fontList, .array [record])]))

def unnamed (json : Option Json) : Bool := (listed json).any fun item => (fullNamesOf item).isEmpty

theorem named_iff (json : Option Json) : Named json ↔ unnamed json = false := by
  simp [Named, unnamed]

theorem names_lost :
    ¬ ∀ (u : Int) (w : World) (es : List Step) (t : NamedSystem), Named (w.config u) →
      (FontOperation.service u).machine.Run (fun _ _ => True) ⟨w, []⟩ es t →
      Named (t.world.config u) := by
  intro h
  obtain ⟨t, hrun, hlost⟩ := Machine.exists_run_of_replay (m := (FontOperation.service 100).machine)
    (fun _ _ => true) (fun t => unnamed (t.world.config 100)) ⟨unversioned, []⟩
    [.spawn .checkAndUpdateFontRecord, .act 0 {}] (by decide +kernel)
  have hnamed := h 100 unversioned _ t ((named_iff _).mpr (by decide +kernel))
    (hrun.mono fun _ _ _ => trivial)
  rw [(named_iff _).mp hnamed] at hlost
  cases hlost

def present : List Step :=
  [.spawn .checkAndUpdateFontRecord, .act 0 { fullNames := fun _ => ["A".toList, "B".toList] }]

theorem names_kept_present :
    ∃ t : NamedSystem, (listed (t.world.config 100)).map fullNamesOf = [["A".toList, "B".toList]] ∧
      ∀ fs s, fs <+: present →
        (FontOperation.service 100).machine.Run (fun _ _ => True) ⟨unversioned, []⟩ fs s →
          Named (s.world.config 100) := by
  obtain ⟨t, hrun, hnames⟩ := Machine.exists_run_of_replay (m := (FontOperation.service 100).machine)
    (fun s e => decide (Legible 100 s e))
    (fun t : NamedSystem =>
      (listed (t.world.config 100)).map fullNamesOf = [["A".toList, "B".toList]])
    ⟨unversioned, []⟩ present (by decide +kernel)
  refine ⟨t, of_decide_eq_true hnames, ?_⟩
  exact ((names_kept_iff ((named_iff _).mpr (by decide +kernel)) present t).mp
    (hrun.mono fun _ _ h => of_decide_eq_true h)).2

end missing

end NamedRecords
