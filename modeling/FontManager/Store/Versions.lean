import FontManager.Store.Reread

open FontDefine FontManagerUtils FontConfig FontLocation CJson

namespace Versions

open Mutation (rewrites rewrites_of_write)

variable {names : Str → List Str} {path : Str} {json : Option Json} {op : ConfigOp} {json' : Json}
  {done failed : op.Reply}

-- A config in a format that the upgrade recognises.
def known : Json → Bool
  | .object fields => (getObjectItem (.object fields) fontVersion).isNone ||
      (numberItem (.object fields) fontVersion).map valueint == some version
  | _ => false

theorem version_written {j : Json} {done failed : Bool} (h : known j = true)
    (hwrite : checkAndUpdateFontRecord names path (some j) = .write json' done failed) :
    stringItem json' fontVersion = some fontConfigVersion7 := by
  cases j with
  | object fields =>
    by_cases hlatest : stringItem (.object fields) fontVersion = some fontConfigVersion7
    · rw [checkAndUpdateFontRecord, if_pos hlatest] at hwrite
      cases hwrite
    · obtain ⟨j', hupgrade, hentries⟩ := @Reread.upgrade_written names path fields hlatest
      obtain ⟨rfl, -, -⟩ := Edit.write.inj (hwrite.symm.trans hupgrade)
      rw [Reread.stringItem_eq_some, hentries]
      by_cases hone : (numberItem (.object fields) fontVersion).map valueint = some version
      · rw [if_pos hone]
        obtain ⟨q, hq, -⟩ := Option.map_eq_some_iff.mp hone
        obtain ⟨rest, hrest⟩ := List.head?_eq_some_iff.mp (Reread.numberItem_eq_some.mp hq)
        rw [hrest]
        rfl
      · have hnone : getObjectItem (.object fields) fontVersion = none := by
          simpa [known, hone] using h
        rw [Reread.getObjectItem_eq_head?, List.head?_eq_none_iff] at hnone
        rw [if_neg hone, hnone]
        rfl
  | _ => cases h

theorem deleteFirst_modifies {p : Json → Bool} {done failed : Bool}
    (h : deleteFirst p json = .write json' done failed) :
    ∃ j f, json = some j ∧ json' = modifyObjectItem f fontList j := by
  cases json with
  | none => cases h
  | some j =>
    simp only [deleteFirst] at h
    split at h
    · cases h
    · exact ⟨j, _, rfl, (Edit.write.inj h).1.symm⟩

-- Every operation but the update changes the font list alone.
theorem edit_modifies (hop : op ≠ .checkAndUpdateFontRecord)
    (h : op.edit names path json = .write json' done failed) :
    ∃ j f, json = some j ∧ json' = modifyObjectItem f fontList j := by
  cases json with
  | none =>
    rw [edit_none] at h
    cases h
  | some j =>
    cases op with
    | insertFontRecord fontPath fullNames =>
      simp only [ConfigOp.edit, insertFontRecord] at h
      split at h
      · cases h
      · split at h
        · cases h
        · exact ⟨j, _, rfl, (Edit.write.inj h).1.symm⟩
    | insertFontRecordIfUnderLimit fontPath fullNames maxCount =>
      simp only [ConfigOp.edit, insertFontRecordIfUnderLimit] at h
      split at h
      · cases h
      · split at h
        · cases h
        · split at h
          · cases h
          · exact ⟨j, _, rfl, (Edit.write.inj h).1.symm⟩
    | insertScopeFontRecord record =>
      simp only [ConfigOp.edit, insertScopeFontRecord] at h
      split at h
      · cases h
      · exact ⟨j, _, rfl, (Edit.write.inj h).1.symm⟩
    | deleteFontRecord fontPath =>
      have hedit : deleteFirst (atPath fontPath) (some j) = .write json' done failed := h
      exact deleteFirst_modifies hedit
    | deleteScopeFontRecordByUrl srcPath =>
      have hedit : deleteFirst (atUrl srcPath) (some j) = .write json' done failed := h
      exact deleteFirst_modifies hedit
    | deleteScopeFontRecordByAppId id =>
      simp only [ConfigOp.edit, deleteScopeFontRecordByAppId] at h
      split at h
      · cases h
      · split at h
        · exact ⟨j, _, rfl, (Edit.write.inj h).1.symm⟩
        · cases h
    | checkAndUpdateFontRecord => exact absurd rfl hop
    | _ => cases h

theorem rewrites_edit (hop : op ≠ .checkAndUpdateFontRecord)
    (h : op.edit names path json = .write json' done failed) :
    rewrites (some json') = rewrites json := by
  obtain ⟨j, f, rfl, rfl⟩ := edit_modifies hop h
  have hsame : stringItem (modifyObjectItem f fontList j) fontVersion = stringItem j fontVersion := by
    rw [stringItem, stringItem, Reread.getObjectItem_eq_head?, Reread.getObjectItem_eq_head?,
      Reread.entries_modifyObjectItem_ne f Mutation.fontList_ne_version]
  simp only [rewrites, Option.any_some, hsame]

-- The list of a user that no update rewrites any more.
structure Current (w : World) (u : Int) : Prop where
  array : arrayList (w.config u) = true
  latest : rewrites (w.config u) = false

variable {w w' : World} {u v : Int} {io : Io}

theorem Current.congr (h : Current w u) (heq : w'.config u = w.config u) : Current w' u :=
  ⟨heq ▸ h.array, heq ▸ h.latest⟩

theorem Current.written (h : Current w u) (hconfig : w'.config u = some json')
    (hedit : op.edit names path (w.config u) = .write json' done failed) : Current w' u := by
  have hop : op ≠ .checkAndUpdateFontRecord := by
    rintro rfl
    cases h.latest.symm.trans (rewrites_of_write hedit)
  constructor
  · rw [hconfig, (Mutation.of_edit hedit).array, h.array]
  · rw [hconfig, rewrites_edit hop hedit, h.latest]

theorem Current.execConfig (h : Current w u) (hio : io.write = .complete) (v : Int) (op : ConfigOp) :
    Current (w.execConfig v op io).2 u := by
  by_cases hu : v = u
  · subst hu
    cases hread : io.ok with
    | false =>
      rw [World.execConfig_unreadable hread]
      exact h
    | true =>
    rw [World.execConfig_readable hread, hio]
    cases hedit : op.edit io.fullNames (configPath v) (w.config v) with
    | keep reply => exact h
    | write json done failed => exact h.written (World.config_configPath (.document json)) hedit
  · have hne : ¬ configLoc u = configLoc v := fun h => hu (configLoc_injective h).symm
    exact h.congr (World.config_frame (w.execConfig_frame v op io) hne)

-- After an update of a list in a known format, the list is current.
theorem current_updated (harray : arrayList (w.config u) = true) (hio : io.write = .complete)
    (hknown : ∀ j ∈ w.config u, rewrites (some j) = true → known j = true)
    (h : (w.execConfig u .checkAndUpdateFontRecord io).1 = true) :
    Current (w.execConfig u .checkAndUpdateFontRecord io).2 u := by
  cases hread : io.ok with
  | false =>
    rw [World.execConfig_unreadable hread] at h
    cases h
  | true =>
  rw [World.execConfig_readable hread, hio] at h ⊢
  cases hedit : (ConfigOp.checkAndUpdateFontRecord).edit io.fullNames (configPath u) (w.config u) with
  | keep reply =>
    rw [hedit] at h
    obtain rfl : reply = true := h
    exact ⟨harray, Mutation.rewrites_of_keep hedit⟩
  | write json done failed =>
    have hrewrites : rewrites (w.config u) = true := rewrites_of_write hedit
    obtain ⟨j, hj⟩ : ∃ j, w.config u = some j := by
      cases hj : w.config u with
      | none => cases hj ▸ hrewrites
      | some j => exact ⟨j, rfl⟩
    have hconfig : (w.put (configPath u) (.document json)).config u = some json :=
      World.config_configPath (.document json)
    have hversion : stringItem json fontVersion = some fontConfigVersion7 :=
      version_written (hknown j hj (hj ▸ hrewrites)) (hj ▸ hedit)
    constructor
    · show arrayList ((w.put (configPath u) (.document json)).config u) = true
      rw [hconfig, (Mutation.of_edit hedit).array, harray]
    · show rewrites ((w.put (configPath u) (.document json)).config u) = false
      rw [hconfig]
      exact decide_eq_false (not_not_intro hversion)

end Versions
