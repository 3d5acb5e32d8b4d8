import FontManager.Store.Calls

open FontDefine FontManagerUtils FontLocation Interaction KeyedList

def View.Placed (v : View) : Prop := ∀ r ∈ v.records, r.Placed

theorem View.Placed.shrinks {v v' : View} (h : v.Placed) (hs : v.Shrinks v') : v'.Placed :=
  fun r hr => h r (hs.records_sublist.subset hr)

def Kept (u : Int) (v : View) (w : World) : Prop := ∃ v', v.Shrinks v' ∧ v'.Shows u w

theorem findInfo_placed {v : View} {selected : Record → Bool} {info : FontRecordInfo}
    (hp : v.Placed) (h : RecordStore.findInfo selected v.records = some info) :
    ∃ s : Slot, s.Valid ∧ info.fontPath = s.sandbox := by
  obtain ⟨r, hr, rfl⟩ := Option.map_eq_some_iff.mp h
  obtain ⟨s, hs⟩ := hp r (List.mem_of_find?_eq_some hr)
  exact ⟨s, hs.valid, hs.path⟩

theorem collect_placed {v : View} {selected : Record → Bool} (hp : v.Placed) :
    ∀ info ∈ RecordStore.collect selected v.records, ∃ s : Slot, s.Valid ∧
      info.fontPath = s.sandbox := by
  intro info hinfo
  obtain ⟨r, hr, rfl⟩ := List.mem_map.mp hinfo
  obtain ⟨s, hs⟩ := hp r (List.mem_filter.mp hr).1
  exact ⟨s, hs.valid, hs.path⟩

theorem locate_appInstallPath (u : Int) {id : Str} (hid : Plain id) :
    locate (FontManager.getAppInstallPath u id) = userDir u ++ [id] := by
  rw [getAppInstallPath_eq, locate_dirPath (appDir_plain u hid)]

namespace Ensures

variable {ok : World → Op → Io → Prop} {w : World} {u : Int} {v : View}

theorem validateAndResolveRealPath {s : Slot} (hs : s.Valid) {Q : Str → World → Prop}
    (hnil : Q [] w) (hpath : Q (joinPath (s.loc u)) w) :
    Ensures ok (FontManager.validateAndResolveRealPath (installPath u) s.sandbox) Q w := by
  have hnormal : lexicallyNormal (FontManager.sandBoxPathToRealPath (installPath u) s.sandbox) =
      joinPath (s.loc u) :=
    lexicallyNormal_of_locate (locate_realPath hs u) (by simp [Slot.loc, Slot.sub])
  unfold FontManager.validateAndResolveRealPath
  split
  · exact pure hnil
  · refine bind (weaklyCanonical (pure hnil) ?_)
    rw [hnormal]
    refine bind (weaklyCanonical (pure hnil) ?_)
    simp only [installDir_leads, if_true]
    exact pure hpath

theorem removeIfExists {path : Str} {l : Loc} (hpath : path = [] ∨ locate path = l)
    {Q : Bool → World → Prop} (h : ∀ b w', Frame (l <+: ·) w w' → Q b w') :
    Ensures ok (FontManager.removeIfExists path) Q w := by
  unfold FontManager.removeIfExists
  by_cases hp : path = []
  · rw [if_pos hp]
    exact pure (h _ _ (.refl _ w))
  · rw [if_neg hp]
    refine bind (checkPathExist fun b => ?_)
    cases b with
    | false => exact pure (h _ _ (.refl _ w))
    | true =>
      refine removeFile fun b w' hf => h b w' ?_
      rwa [hpath.resolve_left hp] at hf

theorem removePlaced {α : Type} {s : Slot} (hs : s.Valid) (hv : v.Shows u w)
    {f : Bool → FontTask α} {Q : α → World → Prop}
    (h : ∀ b w', v.Shows u w' → Ensures ok (f b) Q w') :
    Ensures ok (FontManager.validateAndResolveRealPath (installPath u) s.sandbox >>= fun path =>
      FontManager.removeIfExists path >>= f) Q w := by
  refine bind (validateAndResolveRealPath hs ?_ ?_)
  · exact bind (removeIfExists (l := s.loc u) (Or.inl rfl) fun b w' hf =>
      h b w' (hv.frame hf (configLoc_not_loc hs)))
  · exact bind (removeIfExists (Or.inr (locate_joinPath (loc_plain hs u))) fun b w' hf =>
      h b w' (hv.frame hf (configLoc_not_loc hs)))

theorem uninstallFont (hp : v.Placed) (hv : v.Shows u w) (name : Str) :
    Ensures ok (FontManager.uninstallFont name u) (fun _ w' => Kept u v w') w := by
  have stay : Kept u v w := ⟨v, .refl v, hv⟩
  unfold FontManager.uninstallFont
  by_cases hname : name = []
  · rw [if_pos hname]
    exact pure stay
  · rw [if_neg hname]
    refine bind (query hv (v.edit_getFontRecordByName name) (fun _ _ _ => pure stay) ?_)
    cases hf : RecordStore.findInfo (has Record.fullNames name) v.records with
    | none => exact pure stay
    | some record =>
      obtain ⟨s, hs, hpath⟩ := findInfo_placed hp hf
      dsimp only
      rw [hpath]
      split
      · exact pure stay
      · refine bind (validateAndResolveRealPath hs (pure stay) ?_)
        split
        · exact pure stay
        · refine bind (removeIfExists (Or.inr (locate_joinPath (loc_plain hs u))) fun b w₁ h₁ => ?_)
          have hv₁ := hv.frame h₁ (configLoc_not_loc hs)
          cases b with
          | false => exact pure ⟨v, .refl v, hv₁⟩
          | true =>
            refine bind (config hv₁ fun io w₂ _ _ hv₂ => ?_)
            have hs₂ := v.step_deleteFontRecord_shrinks s.sandbox io
            split
            · exact fun _ _ => ⟨_, hs₂, hv₂⟩
            · exact pure ⟨_, hs₂, hv₂⟩

theorem uninstallScopeFont (hp : v.Placed) (hv : v.Shows u w) (srcPath bundleName : Str)
    (tokenId : Int) :
    Ensures ok (FontManager.uninstallScopeFont srcPath bundleName tokenId u)
      (fun _ w' => Kept u v w') w := by
  have stay : Kept u v w := ⟨v, .refl v, hv⟩
  unfold FontManager.uninstallScopeFont
  by_cases hsrc : srcPath = []
  · rw [if_pos hsrc]
    exact pure stay
  · rw [if_neg hsrc]
    refine bind (query hv (v.edit_getFontRecordByUrl srcPath) (fun _ _ _ => pure stay) ?_)
    cases hf : RecordStore.findInfo (has Record.urls srcPath) v.records with
    | none => exact pure stay
    | some record =>
      obtain ⟨s, hs, hpath⟩ := findInfo_placed hp hf
      dsimp only
      rw [hpath]
      split
      · refine removePlaced hs hv fun b w₁ hv₁ => ?_
        cases b with
        | false => exact pure ⟨v, .refl v, hv₁⟩
        | true =>
          refine bind (config hv₁ fun io w₂ _ _ hv₂ => ?_)
          have hs₂ := v.step_deleteScopeFontRecordByUrl_shrinks srcPath io
          split
          · exact fun _ _ => ⟨_, hs₂, hv₂⟩
          · exact pure ⟨_, hs₂, hv₂⟩
      · exact pure stay

theorem sweepRecords {records : List FontRecordInfo}
    (hr : ∀ info ∈ records, ∃ s : Slot, s.Valid ∧ info.fontPath = s.sandbox) (hv : v.Shows u w) :
    Ensures ok (FontManager.sweepRecords u records) (fun _ w' => Kept u v w') w := by
  induction records generalizing w v with
  | nil => exact pure ⟨v, .refl v, hv⟩
  | cons info rest ih =>
    obtain ⟨⟨s, hs, hpath⟩, hrest⟩ := List.forall_mem_cons.mp hr
    unfold FontManager.sweepRecords
    rw [hpath]
    refine removePlaced hs hv fun b w₁ hv₁ => bind (config hv₁ fun io w₂ _ _ hv₂ => ?_)
    have hs₂ := v.step_deleteScopeFontRecordByUrl_shrinks info.srcPath io
    refine (ih hrest hv₂).mono fun _ w' hw' => ?_
    obtain ⟨v', hs', hv'⟩ := hw'
    exact ⟨v', hs₂.trans hs', hv'⟩

theorem reportRemoved (records : List FontRecordInfo) {Q : Unit → World → Prop}
    (h : ∀ events, Q () { w with published := events }) :
    Ensures ok (FontManager.reportRemoved u records) Q w := by
  unfold FontManager.reportRemoved
  split
  · exact pure (h w.published)
  · exact fun _ _ => h _

def AllPlaced (infos : List FontRecordInfo) : Prop :=
  ∀ info ∈ infos, ∃ s : Slot, s.Valid ∧ info.fontPath = s.sandbox

theorem allPlaced_nil : AllPlaced [] := by simp [AllPlaced]

theorem cleanupScopeFontsByUser (hp : v.Placed) (hv : v.Shows u w) :
    Ensures ok (FontManager.cleanupScopeFontsByUser u) (fun _ w' => Kept u v w') w := by
  refine bind (answered hv v.edit_getScopeFontRecords (P := AllPlaced) (collect_placed hp) allPlaced_nil
    fun infos hinfos => bind ((sweepRecords hinfos hv).mono fun _ w₁ h => ?_))
  exact bind (reportRemoved _ fun _ => pure h)

theorem cleanupAppScopeFontsByUser (hp : v.Placed) (hv : v.Shows u w) :
    Ensures ok (FontManager.cleanupAppScopeFontsByUser u) (fun _ w' => Kept u v w') w := by
  refine bind (answered hv v.edit_getAppScopeFontRecords (P := AllPlaced) (collect_placed hp) allPlaced_nil
    fun infos hinfos => bind ((sweepRecords hinfos hv).mono fun _ w₁ h => ?_))
  exact bind (reportRemoved _ fun _ => pure h)

theorem cleanupAppScopeFonts (hp : v.Placed) (hv : v.Shows u w) (scope t : Int) :
    Ensures ok (FontManager.cleanupAppScopeFonts (makeAppIdentifier scope t) u)
      (fun _ w' => Kept u v w') w := by
  refine bind (answered hv (v.edit_getFontRecordsByAppId _) (P := AllPlaced) (collect_placed hp) allPlaced_nil
    fun infos hinfos => bind ((sweepRecords hinfos hv).mono fun _ w₁ h => ?_))
  refine bind (reportRemoved _ fun events => bind (deleteDir fun w₂ h₂ => pure ?_))
  obtain ⟨v', hs', hv'⟩ := h
  have hpublished : v'.Shows u { w₁ with published := events } := hv'
  refine ⟨v', hs', hpublished.frame h₂ ?_⟩
  rw [locate_appInstallPath u (makeAppIdentifier_plain scope t)]
  exact userDir_noPrefix_configLoc (fontConfigFile_ne_app scope t)

end Ensures
