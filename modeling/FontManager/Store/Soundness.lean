import FontManager.Store.Effects

open FontDefine FontManagerUtils FontLocation KeyedList

namespace Record

structure PlacedAt (s : Slot) (r : Record) : Prop where
  valid : s.Valid
  path : r.fontPath = s.sandbox
  owner : (r.scope = none ∧ r.appIdentifier = none ∧ s.dir = none) ∨
    ∃ scope t, (scope = fontScopeApp ∨ scope = fontScopeSession) ∧ r.scope = some scope ∧
      r.appIdentifier = some (makeAppIdentifier scope t) ∧ s.dir = some (makeAppIdentifier scope t)

def Placed (r : Record) : Prop := ∃ s, r.PlacedAt s

theorem PlacedAt.dir_eq {s : Slot} {r : Record} (h : r.PlacedAt s) : r.appIdentifier = s.dir := by
  rcases h.owner with ⟨-, happ, hdir⟩ | ⟨scope, t, -, -, happ, hdir⟩
  · rw [happ, hdir]
  · rw [happ, hdir]

theorem PlacedAt.scope_eq {s : Slot} {r r' : Record} (h : r.PlacedAt s) (h' : r'.PlacedAt s) :
    r.scope = r'.scope := by
  rcases h.owner with ⟨hscope, -, hdir⟩ | ⟨scope, t, hs, hscope, -, hdir⟩ <;>
    rcases h'.owner with ⟨hscope', -, hdir'⟩ | ⟨scope', t', hs', hscope', -, hdir'⟩
  · rw [hscope, hscope']
  · simp [hdir] at hdir'
  · simp [hdir] at hdir'
  · have hid := Option.some.inj (hdir.symm.trans hdir')
    rw [hscope, hscope', (makeAppIdentifier_injective hs hs' hid).1]

end Record

structure Sound (rs : List Record) : Prop where
  placed : ∀ r ∈ rs, r.Placed
  names : Apart Record.fullNames rs
  paths : Apart Record.paths rs

def Unnamed (names : List Str) (rs : List Record) : Prop := ∀ n ∈ names, ∀ r ∈ rs, n ∉ r.fullNames

namespace Sound

variable {rs : List Record} {r : Record}

theorem nil : Sound [] := ⟨by simp, apart_nil, apart_nil⟩

theorem sublist {rs' : List Record} (h : Sound rs) (hs : rs'.Sublist rs) : Sound rs' :=
  ⟨fun r hr => h.placed r (hs.subset hr), h.names.sublist hs, h.paths.sublist hs⟩

theorem append (h : Sound rs) (hr : r.Placed) (hnames : Unnamed r.fullNames rs)
    (hpaths : ∀ s ∈ rs, s.fontPath ≠ r.fontPath) :
    Sound (rs ++ [r]) where
  placed s hs := by
    rcases List.mem_append.mp hs with hs | hs
    · exact h.placed s hs
    · exact List.mem_singleton.mp hs ▸ hr
  names := apart_append_singleton.mpr ⟨h.names, fun s hs k hk hr => hnames k hr s hs hk⟩
  paths := apart_append_singleton.mpr ⟨h.paths, fun s hs k hk hr => hpaths s hs (by
    simp only [Record.paths, List.mem_singleton] at hk hr
    exact hk.symm.trans hr)⟩

end Sound

namespace View

variable {v v' v'' : View}

def records (v : View) : List Record := v.getD []

def Shrinks (v v' : View) : Prop := ∀ rs, v' = some rs → rs.Sublist v.records

theorem Shrinks.refl (v : View) : v.Shrinks v := by
  rintro rs rfl
  exact List.Sublist.refl rs

theorem Shrinks.trans (h : v.Shrinks v') (h' : v'.Shrinks v'') : v.Shrinks v'' := by
  intro rs hrs
  cases v' with
  | none => exact (h' rs hrs).trans (List.nil_sublist _)
  | some rs' => exact (h' rs hrs).trans (h rs' rfl)

theorem shrinks_none (v : View) : v.Shrinks none := by simp [Shrinks]

theorem shrinks_nil (v : View) : v.Shrinks (some []) := by
  rintro rs ⟨⟩
  exact List.nil_sublist _

theorem Shrinks.some {rs rs' : List Record} (h : rs'.Sublist rs) :
    Shrinks (some rs) (some rs') := by
  rintro _ ⟨⟩
  exact h

theorem Shrinks.records_sublist (h : v.Shrinks v') : v'.records.Sublist v.records := by
  cases v' with
  | none => exact List.nil_sublist _
  | some rs => exact h rs rfl

theorem edit_getInstalledFontsNum (v : View) :
    v.edit .getInstalledFontsNum = .keep v.records.length := by
  cases v <;> rfl

theorem edit_getTotalInstalledFontsNum (v : View) :
    v.edit .getTotalInstalledFontsNum = .keep v.records.length := by
  cases v <;> rfl

theorem edit_checkAndUpdateFontRecord (v : View) :
    v.edit .checkAndUpdateFontRecord = .keep v.isSome := by
  cases v <;> rfl

theorem edit_getFontFileByName (v : View) (n : Str) :
    v.edit (.getFontFileByName n) =
      .keep (((v.records.find? (has Record.fullNames n)).map Record.fontPath).getD []) := by
  cases v <;> rfl

theorem edit_getFontRecordByName (v : View) (n : Str) :
    v.edit (.getFontRecordByName n) =
      .keep (RecordStore.findInfo (has Record.fullNames n) v.records) := by
  cases v <;> rfl

theorem edit_getFontRecordByUrl (v : View) (s : Str) :
    v.edit (.getFontRecordByUrl s) =
      .keep (RecordStore.findInfo (has Record.urls s) v.records) := by
  cases v <;> rfl

theorem edit_getFontRecordsByAppId (v : View) (id : Str) :
    v.edit (.getFontRecordsByAppId id) =
      .keep (RecordStore.collect (has Record.apps id) v.records) := by
  cases v <;> rfl

theorem edit_getScopeFontRecords (v : View) :
    v.edit .getScopeFontRecords =
      .keep (RecordStore.collect (Record.inScope (· ≥ 0)) v.records) := by
  cases v <;> rfl

theorem edit_getAppScopeFontRecords (v : View) :
    v.edit .getAppScopeFontRecords =
      .keep (RecordStore.collect (Record.inScope (· = fontScopeApp)) v.records) := by
  cases v <;> rfl

theorem apply_deleteFirst_shrinks (selected : Record → Bool) (rs : List Record)
    (outcome : WriteOutcome) :
    Shrinks (some rs) (apply (some rs) outcome (RecordStore.deleteFirst selected rs)).2 := by
  unfold RecordStore.deleteFirst
  split
  · cases outcome with
    | complete => exact .some List.eraseP_sublist
    | openFails => exact .refl _
    | short left => exact shrinks_none _
    | lost left => exact shrinks_none _
  · exact .refl _

theorem step_shrinks {op : ConfigOp} (v : View) (io : Io)
    (h : ∀ rs outcome, Shrinks (some rs) (apply (some rs) outcome (RecordStore.edit rs op)).2) :
    v.Shrinks (v.step op io).2 := by
  cases hio : io.ok with
  | false =>
    rw [step_unreadable hio]
    exact .refl v
  | true =>
    rw [step_readable hio]
    cases v with
    | none => exact .refl _
    | some rs => exact h rs io.write

theorem step_deleteFontRecord_shrinks (v : View) (path : Str) (io : Io) :
    v.Shrinks (v.step (.deleteFontRecord path) io).2 :=
  v.step_shrinks io (apply_deleteFirst_shrinks _)

theorem step_deleteScopeFontRecordByUrl_shrinks (v : View) (s : Str) (io : Io) :
    v.Shrinks (v.step (.deleteScopeFontRecordByUrl s) io).2 :=
  v.step_shrinks io (apply_deleteFirst_shrinks _)

end View

theorem listed_shows {u : Int} {v : View} {w : World} (hv : v.Shows u w) :
    FontConfig.listed (w.config u) = v.records.map Record.item := by
  rw [hv]
  cases v <;> rfl
